import ParLib.Job.Handlers

/-!
# What the first step of an iteration does

`InitLeaderStep` deals the stacks of the search out to all clients. After
that, and as long as no client with work has been lost, a leader's check only
sends notices and has at most one division of its own in between.
-/

namespace ParLib.Job

set_option autoImplicit false

open Foundations ParallelStack

namespace StackAssignment

theorem touch_of_isSome {a : StackAssignment} {client : NetworkId}
    (h : (a.find? client).isSome = true) : a.touch client = a := by
  rw [touch]
  split
  · rename_i hnone
    rw [hnone] at h
    cases h
  · rfl

theorem find?_foldl_remove (a : StackAssignment) (clients : List NetworkId) (k : NetworkId) :
    (clients.foldl remove a).find? k = if k ∈ clients then none else a.find? k := by
  induction clients generalizing a with
  | nil => simp
  | cons client clients ih =>
    rw [List.foldl_cons, ih, find?_remove]
    by_cases hk : k = client <;> simp [hk]

end StackAssignment

namespace Computation

theorem find?_foldl_setAssignment (entries : List (NetworkId × ParallelStack Path))
    (assign : StackAssignment) (hnodup : (entries.map Prod.fst).Nodup) (k : NetworkId)
    (states : List Path) :
    (entries.foldl (fun assign e => assign.setAssignment e.1 e.2.data) assign).find? k =
        some states ↔
      (k, ⟨states⟩) ∈ entries ∨ k ∉ entries.map Prod.fst ∧ assign.find? k = some states := by
  induction entries generalizing assign with
  | nil => simp
  | cons e entries ih =>
    obtain ⟨client, ⟨data⟩⟩ := e
    rw [List.map_cons, List.nodup_cons] at hnodup
    rw [List.foldl_cons, ih _ hnodup.2, StackAssignment.find?_setAssignment]
    rcases eq_or_ne k client with rfl | hk
    · have hnot : ∀ s : ParallelStack Path, (k, s) ∉ entries :=
        fun s hs => hnodup.1 (List.mem_map.mpr ⟨_, hs, rfl⟩)
      have hfst : k ∉ entries.map Prod.fst := hnodup.1
      simp only [hnot, hfst, not_false_eq_true, true_and, if_true, Option.some.injEq, false_or,
        List.mem_cons, Prod.mk.injEq, ParallelStack.mk.injEq, or_false, List.map_cons,
        not_true, false_and]
      exact eq_comm
    · simp [hk]

theorem find?_assignStacks {clients : List NetworkId} {pars : List (ParallelStack Path)}
    (hnodup : clients.Nodup) (hlen : clients.length = pars.length) (k : NetworkId)
    (states : List Path) :
    (assignStacks clients pars).find? k = some states ↔ (k, ⟨states⟩) ∈ clients.zip pars := by
  have hfst : (clients.zip pars).map Prod.fst = clients := List.map_fst_zip hlen.le
  rw [assignStacks, find?_foldl_setAssignment _ _ (by rwa [hfst])]
  simp

theorem isSome_find?_assignStacks {clients : List NetworkId} {pars : List (ParallelStack Path)}
    (hnodup : clients.Nodup) (hlen : clients.length = pars.length) (k : NetworkId) :
    ((assignStacks clients pars).find? k).isSome = true ↔ k ∈ clients := by
  rw [Option.isSome_iff_exists]
  simp only [find?_assignStacks hnodup hlen]
  constructor
  · rintro ⟨states, h⟩
    exact (List.of_mem_zip h).1
  · intro h
    rw [← List.map_fst_zip hlen.le, List.mem_map] at h
    obtain ⟨⟨_, ⟨states⟩⟩, hmem, rfl⟩ := h
    exact ⟨states, hmem⟩

/-- Until a node is computing, its compute steps announce nothing. -/
theorem computeSteps_eq_some {net : Net} {n : Nat} {c : Computation}
    {r : Computation × List Send} (hstate : c.state ≠ .computing)
    (h : computeSteps net n c = some r) :
    ∃ mc ps, MaximumCut.Explored c.maximumCut mc ps ∧ r = ({ c with maximumCut := mc }, []) := by
  induction n generalizing c r with
  | zero =>
    cases h
    exact ⟨c.maximumCut, [], .refl _, rfl⟩
  | succ n ih =>
    rw [computeSteps] at h
    obtain ⟨⟨c₁, sent⟩, hfirst, h⟩ := Option.bind_eq_some_iff.mp h
    obtain ⟨⟨c₂, later⟩, hrest, h⟩ := Option.bind_eq_some_iff.mp h
    obtain ⟨mc₁, ps₁, hexplored₁, hcase⟩ := computeStep_eq_some hfirst
    rcases hcase with heq | ⟨hcomputing, -⟩
    · cases heq
      obtain ⟨mc₂, ps₂, hexplored₂, heq⟩ := ih (by exact hstate) hrest
      cases heq
      cases h
      exact ⟨mc₂, _, hexplored₁.trans hexplored₂, rfl⟩
    · exact absurd hcomputing hstate

theorem flatMap_sendMsg {net : Net} (hself : net.networkId ∉ net.clients) (msg : Message) :
    net.knownClients.flatMap (net.sendMsg msg) = net.broadcastMsg msg := by
  have hclients : ∀ clients : List NetworkId, (∀ k ∈ clients, k ∈ net.clients) →
      clients.flatMap (net.sendMsg msg) = clients.map fun client => ⟨client, msg⟩ := by
    intro clients
    induction clients with
    | nil => simp
    | cons k clients ih =>
      intro hsub
      rw [List.flatMap_cons, ih fun j hj => hsub j (List.mem_cons_of_mem k hj), Net.sendMsg,
        if_pos (hsub k List.mem_cons_self)]
      rfl
  have hnone : net.sendMsg msg net.networkId = [] := if_neg hself
  rw [Net.knownClients, List.flatMap_append, hclients _ fun _ h => h]
  simp [hnone, Net.broadcastMsg]

/-- The leader's first step searches a little and deals what is left to all clients. -/
theorem initLeaderStep_eq_some {c : Computation} {net : Net} {r : Computation × List Send}
    (hstate : c.state ≠ .computing) (hself : net.networkId ∉ net.clients)
    (hnodup : net.clients.Nodup) (h : c.initLeaderStep net = some r) :
    ∃ mc ps pars assign, MaximumCut.Explored c.maximumCut.populateStates mc ps ∧
      pars = getParallelStacks mc.states.data net.knownClients.length ∧
      net.knownClients.length = pars.length ∧
      (∀ k states, assign.find? k = some states ↔ (k, ⟨states⟩) ∈ net.knownClients.zip pars) ∧
      r = ({ c with maximumCut := mc }.onAssignment net assign,
        net.broadcastMsg (.stackAssignment assign false)) := by
  rw [initLeaderStep] at h
  obtain ⟨⟨c₁, sent⟩, hsteps, h⟩ := Option.bind_eq_some_iff.mp h
  obtain ⟨mc, ps, hexplored, heq⟩ := computeSteps_eq_some (by exact hstate) hsteps
  cases heq
  dsimp only at h
  split at h
  · cases h
  · rename_i hlen
    cases h
    have hlen := (not_not.mp hlen).symm
    have hknown : net.knownClients.Nodup := by
      rw [Net.knownClients, List.nodup_append]
      exact ⟨hnodup, List.nodup_singleton _, fun a ha b hb => by
        rintro rfl
        exact hself (List.mem_singleton.mp hb ▸ ha)⟩
    have hown := (isSome_find?_assignStacks hknown hlen net.networkId).mpr
      (Net.mem_knownClients.mpr (.inr rfl))
    refine ⟨mc, ps, _, _, hexplored, rfl, hlen, find?_assignStacks hknown hlen, ?_⟩
    rw [flatMap_sendMsg hself, List.nil_append, readAssignment,
      StackAssignment.touch_of_isSome hown, ite_self]

namespace ClientSets

variable {net : Net} {table : StackAssignment} {k : NetworkId}

theorem mem_known : k ∈ (settled net table).known ↔ k ∈ net.knownClients := by
  simp [settled, clearDisconnected, fill]

theorem mem_new : k ∈ (settled net table).new ↔ k ∈ net.knownClients ∧ k ∉ table.getClients := by
  simp [settled, clearDisconnected, fill]

theorem mem_cleared : k ∈ (fill net table).cleared table ↔
    k ∈ table.getClients ∧ k ∉ net.knownClients ∧ table.getAssignment k = [] := by
  simp [cleared, fill, OrdSet.mem_elems, and_assoc]

theorem mem_disconnected :
    k ∈ (settled net table).disconnected ↔ k ∉ net.knownClients ∧ table.getAssignment k ≠ [] := by
  have hentry : table.getAssignment k ≠ [] → k ∈ table.getClients :=
    fun h => not_not.mp fun hk => h (StackAssignment.getAssignment_of_not_mem hk)
  have hdisconnected : k ∈ (fill net table).disconnected ↔
      k ∈ table.getClients ∧ k ∉ net.knownClients := by
    simp [fill]
  rw [settled, clearDisconnected, OrdSet.mem_eraseAll, hdisconnected, mem_cleared]
  tauto

theorem mem_finished : k ∈ (settled net table).finished ↔
    k ∈ net.knownClients ∧ k ∈ table.getClients ∧ table.getAssignment k = [] := by
  have hfinished : k ∈ (fill net table).finished ↔
      k ∈ table.getClients ∧ table.getAssignment k = [] := by
    simp [fill]
  rw [settled, clearDisconnected, OrdSet.mem_eraseAll, hfinished, mem_cleared]
  tauto

theorem mem_needJob :
    k ∈ (settled net table).needJob ↔ k ∈ net.knownClients ∧ table.getAssignment k = [] := by
  rw [needJob, OrdSet.mem_insertAll, OrdSet.mem_elems, mem_new, mem_finished]
  by_cases hk : k ∈ table.getClients
  · simp [hk]
  · simp [hk, StackAssignment.getAssignment_of_not_mem hk]

theorem mem_working :
    k ∈ (settled net table).working ↔ k ∈ net.knownClients ∧ table.getAssignment k ≠ [] := by
  rw [working, OrdSet.mem_eraseAll, OrdSet.mem_elems, mem_needJob, mem_known]
  tauto

/-- The finished and the new clients are apart, and among the known ones. -/
theorem noJobsLeft_iff :
    (settled net table).noJobsLeft = true ↔ ∀ k, table.getAssignment k = [] := by
  have hsize := OrdSet.size_add_size_eq_iff (s := (settled net table).finished)
    (t := (settled net table).new) (u := (settled net table).known)
    (fun a ha => mem_known.mpr (mem_finished.mp ha).1)
    (fun a ha => mem_known.mpr (mem_new.mp ha).1)
    (fun a ha hn => (mem_new.mp hn).2 (mem_finished.mp ha).2.1)
  rw [noJobsLeft, decide_eq_true_eq, hsize, OrdSet.size_eq_zero]
  simp only [mem_known, mem_finished, mem_new, mem_disconnected]
  constructor
  · rintro ⟨hcover, hnone⟩ k
    by_contra hk
    cases hcover k (by have := hnone k; tauto) with
    | inl h => exact hk h.2.2
    | inr h => exact hk (StackAssignment.getAssignment_of_not_mem h.2)
  · intro hempty
    constructor
    · intro k hk
      by_cases hentry : k ∈ table.getClients
      · exact .inl ⟨hk, hentry, hempty k⟩
      · exact .inr ⟨hk, hentry⟩
    · intro k hk
      exact hk.2 (hempty k)

theorem getAssignment_of_noJobsLeft (h : (settled net table).noJobsLeft = true) (k : NetworkId) :
    table.getAssignment k = [] := noJobsLeft_iff.mp h k

theorem getAssignment_settledTable (k : NetworkId) :
    (settledTable net table).getAssignment k = table.getAssignment k := by
  rw [StackAssignment.getAssignment, settledTable, StackAssignment.find?_foldl_remove]
  split
  · rename_i hk
    exact (mem_cleared.mp hk).2.2.symm
  · rfl

theorem mem_getClients_settledTable (h : k ∈ (settledTable net table).getClients) :
    k ∈ table.getClients := by
  rw [StackAssignment.mem_getClients, settledTable, StackAssignment.find?_foldl_remove] at h
  split at h
  · cases h
  · exact StackAssignment.mem_getClients.mpr h

end ClientSets

open ClientSets

/-- A request to one working client, before those to the others. -/
theorem requests_cons (net : Net) (w id : NetworkId) {working needJob : List NetworkId}
    {sent : List Send} (hsent : ∀ q ∈ sent, q.destId ∈ working ∧ q.destId ∈ net.clients ∧
      ∃ j ∈ needJob, q.msg = .divideWith j) :
    ∀ q ∈ net.sendMsg (.divideWith id) w ++ sent, q.destId ∈ w :: working ∧
      q.destId ∈ net.clients ∧ ∃ j ∈ id :: needJob, q.msg = .divideWith j := by
  intro q hq
  cases List.mem_append.mp hq with
  | inl hq =>
    obtain ⟨hdest, rfl⟩ := Net.mem_sendMsg.mp hq
    exact ⟨List.mem_cons_self, hdest, id, List.mem_cons_self, rfl⟩
  | inr hq =>
    obtain ⟨hdest, hclient, j, hj, hmsg⟩ := hsent q hq
    exact ⟨List.mem_cons_of_mem w hdest, hclient, j, List.mem_cons_of_mem id hj, hmsg⟩

theorem divideJobs_of_not_mem {net : Net} {working : List NetworkId}
    (hself : net.networkId ∉ working) (needJob : List NetworkId) (c : Computation) :
    (divideJobs net working needJob c).1 = c ∧
      ∀ q ∈ (divideJobs net working needJob c).2,
        q.destId ∈ working ∧ q.destId ∈ net.clients ∧ ∃ id ∈ needJob, q.msg = .divideWith id := by
  induction working generalizing needJob with
  | nil => exact ⟨by simp [divideJobs], by simp [divideJobs]⟩
  | cons w working ih =>
    rw [List.mem_cons, not_or] at hself
    cases needJob with
    | nil => exact ⟨by simp [divideJobs], by simp [divideJobs]⟩
    | cons id needJob =>
      obtain ⟨hsame, hsent⟩ := ih hself.2 needJob
      simp only [divideJobs, if_pos (Ne.symm hself.1)]
      exact ⟨hsame, requests_cons net w id hsent⟩

/-- Requests to others, with at most one division of the node itself in between. -/
theorem divideJobs_spec (net : Net) {working : List NetworkId} (hnodup : working.Nodup)
    (needJob : List NetworkId) (c : Computation) :
    ∃ before own after, (divideJobs net working needJob c).2 = before ++ own ++ after ∧
      (∀ q ∈ before ++ after, q.destId ∈ working ∧ q.destId ∈ net.clients ∧
        ∃ id ∈ needJob, q.msg = .divideWith id) ∧
      (((divideJobs net working needJob c).1 = c ∧ own = []) ∨
        ∃ id ∈ needJob, net.networkId ∈ working ∧
          ((divideJobs net working needJob c).1, own) = c.onDivideWith net id) := by
  induction working generalizing needJob with
  | nil => exact ⟨[], [], [], by simp [divideJobs], by simp, .inl ⟨by simp [divideJobs], rfl⟩⟩
  | cons w working ih =>
    rw [List.nodup_cons] at hnodup
    cases needJob with
    | nil => exact ⟨[], [], [], by simp [divideJobs], by simp, .inl ⟨by simp [divideJobs], rfl⟩⟩
    | cons id needJob =>
      rcases eq_or_ne w net.networkId with rfl | hw
      · obtain ⟨hsame, hsent⟩ := divideJobs_of_not_mem hnodup.1 needJob (c.onDivideWith net id).1
        refine ⟨[], (c.onDivideWith net id).2,
          (divideJobs net working needJob (c.onDivideWith net id).1).2, ?_, ?_, .inr ?_⟩
        · simp [divideJobs]
        · intro q hq
          exact requests_cons net net.networkId id hsent q (List.mem_append_right _ hq)
        · refine ⟨id, List.mem_cons_self, List.mem_cons_self, ?_⟩
          simp only [divideJobs, ne_eq, not_true, if_false]
          rw [hsame]
      · obtain ⟨before, own, after, hsent, hrequests, hown⟩ := ih hnodup.2 needJob
        simp only [divideJobs, if_pos hw]
        refine ⟨net.sendMsg (.divideWith id) w ++ before, own, after, ?_, ?_, ?_⟩
        · rw [hsent]
          simp
        · intro q hq
          rw [List.append_assoc] at hq
          exact requests_cons net w id hrequests q hq
        · rcases hown with hidle | ⟨j, hj, hself, hdivide⟩
          · exact .inl hidle
          · exact .inr ⟨j, List.mem_cons_of_mem id hj, List.mem_cons_of_mem w hself, hdivide⟩

def Request (net : Net) (q : Send) : Prop :=
  q.destId ∈ net.clients ∧ ∃ id, q.msg = .divideWith id ∧ id ∈ net.knownClients ∧ id ≠ q.destId

/-- The leader repeats its table: to everybody, or to the new clients. -/
def Repeats (net : Net) (table : StackAssignment) (sync : Bool) : Prop :=
  sync = true ∨ (settled net table).new.size ≠ 0

instance (net : Net) (table : StackAssignment) (sync : Bool) : Decidable (Repeats net table sync) :=
  inferInstanceAs (Decidable (_ ∨ _))

/-- What the leader sends without changing its own job: its table, the end of the
computation, requests. -/
def Notice (net : Net) (table : StackAssignment) (sync : Bool) (q : Send) : Prop :=
  (q.destId ∈ net.clients ∧
    ((∃ repeated, q.msg = .stackAssignment repeated true ∧
        (∀ k v, repeated.find? k = some v → table.find? k = some v) ∧ Repeats net table sync) ∨
      (q.msg = .terminate ∧ (settled net table).noJobsLeft = true))) ∨
    Request net q

/-- The leader's table after its check has cleared it, and its state. -/
def checked (c : Computation) (net : Net) (table : StackAssignment) : Computation :=
  { c with
    currAssignment := some (settledTable net table)
    state := if (settled net table).noJobsLeft then .finished else c.state }

theorem checked_recorded {c : Computation} {table : StackAssignment}
    (htable : c.currAssignment = some table) (net : Net) (k : NetworkId) :
    (c.checked net table).recorded k = c.recorded k := by
  rw [recorded, checked, recorded, htable]
  exact getAssignment_settledTable k

theorem checked_listed {c : Computation} {table : StackAssignment}
    (htable : c.currAssignment = some table) {net : Net} {k : NetworkId}
    (h : (c.checked net table).Listed k) : c.Listed k := by
  rw [Listed, htable]
  exact mem_getClients_settledTable h

theorem checked_state (c : Computation) (net : Net) (table : StackAssignment) :
    (c.checked net table).state = c.state ∨
      (c.checked net table).state = .finished ∧ (settled net table).noJobsLeft = true := by
  rw [checked]
  dsimp only
  split
  · exact .inr ⟨rfl, ‹_›⟩
  · exact .inl rfl

/-- What a check sends before it gives jobs to anybody. -/
def firstSent (net : Net) (table : StackAssignment) (sync : Bool) : List Send :=
  let msg := .stackAssignment (settledTable net table) true
  let synced := if sync then net.broadcastMsg msg else []
  let informed := (settled net table).new.elems.flatMap (net.sendMsg msg)
  let ended := if (settled net table).noJobsLeft then net.broadcastMsg .terminate else []
  synced ++ informed ++ ended

theorem firstSent_notice {net : Net} {table : StackAssignment} (sync : Bool) :
    ∀ q ∈ firstSent net table sync, Notice net table sync q := by
  have hrepeat : ∀ q : Send, Repeats net table sync → q.destId ∈ net.clients →
      q.msg = .stackAssignment (settledTable net table) true → Notice net table sync q := by
    intro q hrepeats hdest hmsg
    refine .inl ⟨hdest, .inl ⟨_, hmsg, ?_, hrepeats⟩⟩
    intro k v hk
    rw [settledTable, StackAssignment.find?_foldl_remove] at hk
    split at hk
    · cases hk
    · exact hk
  intro q hq
  rcases List.mem_append.mp hq with hq | hq
  · rcases List.mem_append.mp hq with hq | hq
    · split at hq
      · rename_i hsync
        obtain ⟨hdest, hmsg⟩ := Net.mem_broadcastMsg.mp hq
        exact hrepeat q (.inl hsync) hdest hmsg
      · cases hq
    · obtain ⟨client, hnew, hq⟩ := List.mem_flatMap.mp hq
      obtain ⟨hdest, rfl⟩ := Net.mem_sendMsg.mp hq
      refine hrepeat _ (.inr ?_) hdest rfl
      exact List.length_pos_iff.mpr (List.ne_nil_of_mem hnew) |>.ne'
  · split at hq
    · rename_i hjobs
      obtain ⟨hdest, hmsg⟩ := Net.mem_broadcastMsg.mp hq
      exact .inl ⟨hdest, .inr ⟨hmsg, hjobs⟩⟩
    · cases hq

/-- A check goes on from the cleared table. -/
theorem checkTable_eq (c : Computation) (net : Net) (table : StackAssignment) (sync : Bool) :
    let sets := settled net table
    let gave := (c.checked net table).giveDisconnectedJobs net (settledTable net table) sets
    let asked := divideJobs net sets.working.elems
      (sets.needJob.elems.drop sets.disconnected.size) gave.1
    c.checkTable net table sync = (asked.1, firstSent net table sync ++ gave.2 ++ asked.2) := by
  have hchecked : (if (settled net table).noJobsLeft = true then
      { c with currAssignment := some (settledTable net table) }.onTerminate
      else { c with currAssignment := some (settledTable net table) }) = c.checked net table := by
    rw [checked]
    split <;> rfl
  simp only [checkTable, hchecked, firstSent]

/-- With no job of a lost client to give away, the check sends notices, and divides
the leader's own stack at most once, with a client that needs a job. -/
theorem checkTable_of_connected {c : Computation} {net : Net} {table : StackAssignment}
    (hconnected : ∀ k, table.getAssignment k ≠ [] → k ∈ net.knownClients) (sync : Bool) :
    ∃ before own after, (c.checkTable net table sync).2 = before ++ own ++ after ∧
      (∀ q ∈ before, Notice net table sync q) ∧ (∀ q ∈ after, Request net q) ∧
      (((c.checkTable net table sync).1 = c.checked net table ∧ own = []) ∨
        ∃ id ∈ net.knownClients, id ≠ net.networkId ∧ table.getAssignment id = [] ∧
          ((c.checkTable net table sync).1, own) = (c.checked net table).onDivideWith net id) := by
  have hnone : (settled net table).disconnected.size = 0 := by
    rw [OrdSet.size_eq_zero]
    intro k hk
    rw [mem_disconnected] at hk
    exact hk.1 (hconnected k hk.2)
  have hgave : ∀ (c : Computation) (table' : StackAssignment),
      c.giveDisconnectedJobs net table' (settled net table) = (c, []) := by
    intro c table'
    rw [giveDisconnectedJobs, hnone, Nat.zero_min, if_neg (lt_irrefl 0)]
  obtain ⟨before, own, after, hsent, hrequests, hown⟩ := divideJobs_spec net
    (settled net table).working.nodup (settled net table).needJob.elems (c.checked net table)
  have hrequest : ∀ q ∈ before ++ after, Request net q := by
    intro q hq
    obtain ⟨hdest, hclient, id, hid, hmsg⟩ := hrequests q hq
    obtain ⟨hknown, hempty⟩ := mem_needJob.mp hid
    refine ⟨hclient, id, hmsg, hknown, ?_⟩
    rintro rfl
    exact (mem_working.mp hdest).2 hempty
  have hcheck := c.checkTable_eq net table sync
  simp only [hgave, hnone, List.drop_zero, List.append_nil] at hcheck
  rw [hcheck]
  refine ⟨firstSent net table sync ++ before, own, after, ?_, ?_, ?_, ?_⟩
  · rw [hsent]
    simp
  · intro q hq
    cases List.mem_append.mp hq with
    | inl hq => exact firstSent_notice sync q hq
    | inr hq => exact .inr (hrequest q (List.mem_append_left _ hq))
  · exact fun q hq => hrequest q (List.mem_append_right _ hq)
  · rcases hown with hidle | ⟨id, hid, hself, hdivide⟩
    · exact .inl hidle
    · obtain ⟨hknown, hempty⟩ := mem_needJob.mp hid
      refine .inr ⟨id, hknown, ?_, hempty, hdivide⟩
      rintro rfl
      exact (mem_working.mp hself).2 hempty

theorem onDivideWith_recorded (c : Computation) {net : Net} {id k : NetworkId} (hid : k ≠ id)
    (hself : k ≠ net.networkId) : (c.onDivideWith net id).1.recorded k = c.recorded k := by
  cases eq_or_ne c.stack [] with
  | inl hnil => rw [onDivideWith_of_nil net id hnil]
  | inr hwork =>
    rw [onDivideWith_of_ne_nil net id hwork, onAssignment_recorded, find?_dividedAssignment,
      if_neg hid, if_neg hself]
    rfl

theorem divideJobs_recorded (net : Net) {k : NetworkId} (hself : k ≠ net.networkId)
    (working needJob : List NetworkId) (hk : k ∉ needJob) (c : Computation) :
    (divideJobs net working needJob c).1.recorded k = c.recorded k := by
  induction working generalizing needJob c with
  | nil => simp [divideJobs]
  | cons w working ih =>
    cases needJob with
    | nil => simp [divideJobs]
    | cons id needJob =>
      rw [List.mem_cons, not_or] at hk
      rw [divideJobs]
      split
      · exact ih needJob hk.2 c
      · exact (ih needJob hk.2 _).trans (onDivideWith_recorded c hk.1 hself)

theorem find?_giveJobs (table : StackAssignment) {k : NetworkId}
    (disconnected needJob : List NetworkId) (newAssignments : StackAssignment)
    (hfrom : k ∉ disconnected) (hto : k ∉ needJob) :
    (giveJobs table disconnected needJob newAssignments).find? k = newAssignments.find? k := by
  induction disconnected generalizing needJob newAssignments with
  | nil => simp [giveJobs]
  | cons givenJobFrom disconnected ih =>
    cases needJob with
    | nil => simp [giveJobs]
    | cons givenJobTo needJob =>
      rw [List.mem_cons, not_or] at hfrom hto
      rw [giveJobs, ih needJob _ hfrom.2 hto.2, StackAssignment.find?_setAssignment,
        if_neg hfrom.1, StackAssignment.find?_setAssignment, if_neg hto.1]

/-- The check neither gives the client a job nor gives its job away. -/
def LeavesJob (net : Net) (table : StackAssignment) (k : NetworkId) : Prop :=
  k ∉ (settled net table).needJob ∧
    (k ∈ (settled net table).disconnected → (settled net table).needJob.size = 0)

instance (net : Net) (table : StackAssignment) (k : NetworkId) :
    Decidable (LeavesJob net table k) := inferInstanceAs (Decidable (_ ∧ _))

/-- Of any other client but itself the leader leaves the record as it is. -/
theorem checkTable_recorded {c : Computation} {net : Net} {table : StackAssignment}
    (htable : c.currAssignment = some table) (sync : Bool) {k : NetworkId}
    (hself : k ≠ net.networkId) (hleft : LeavesJob net table k) :
    (c.checkTable net table sync).1.recorded k = c.recorded k := by
  obtain ⟨hneed, hgiven⟩ := hleft
  have hgave : ∀ c : Computation, ∀ table' : StackAssignment,
      (c.giveDisconnectedJobs net table' (settled net table)).1.recorded k = c.recorded k := by
    intro c table'
    rw [giveDisconnectedJobs]
    split
    · rename_i hpos
      have hfrom : k ∉ (settled net table).disconnected := by
        intro hk
        rw [hgiven hk, Nat.min_zero] at hpos
        exact absurd hpos (lt_irrefl 0)
      rw [onAssignment_recorded, find?_giveJobs table' _ _ _ hfrom hneed]
      rfl
    · rfl
  have hasked : k ∉ (settled net table).needJob.elems.drop
      (settled net table).disconnected.size := fun hk => hneed (List.mem_of_mem_drop hk)
  simp only [checkTable]
  rw [divideJobs_recorded net hself _ _ hasked, hgave]
  have hchecked := checked_recorded htable net k
  rw [checked] at hchecked
  rw [← hchecked]
  split <;> simp [*, recorded, onTerminate]

theorem divideJobs_sent (net : Net) (sets : ClientSets) (count : Nat) (c : Computation) :
    ∀ q ∈ (divideJobs net sets.working.elems (sets.needJob.elems.drop count) c).2,
      q.destId ∈ net.clients ∧ ∀ id, q.msg = .divideWith id → id ≠ q.destId := by
  obtain ⟨before, own, after, hsent, hrequests, hown⟩ :=
    divideJobs_spec net sets.working.nodup (sets.needJob.elems.drop count) c
  intro q hq
  have hcases : q ∈ before ++ after ∨ q ∈ own := by
    rw [hsent] at hq
    simp only [List.mem_append] at hq ⊢
    tauto
  rcases hcases with hq | hq
  · obtain ⟨hworking, hclient, id', hid', hmsg'⟩ := hrequests q hq
    refine ⟨hclient, ?_⟩
    rintro id hmsg rfl
    rw [hmsg] at hmsg'
    cases hmsg'
    rw [OrdSet.mem_elems, working, OrdSet.mem_eraseAll] at hworking
    exact hworking.2 (List.mem_of_mem_drop hid')
  · rcases hown with ⟨-, rfl⟩ | ⟨client, -, -, hdivide⟩
    · cases hq
    · have hown : own = (c.onDivideWith net client).2 := congrArg Prod.snd hdivide
      rw [hown] at hq
      obtain ⟨hclient, hmsg⟩ := onDivideWith_sent hq
      refine ⟨hclient, ?_⟩
      intro id hid
      rw [hmsg] at hid
      cases hid

theorem divideJobs_started (net : Net) {working : List NetworkId} (hnodup : working.Nodup)
    (needJob : List NetworkId) {c : Computation} (h : c.state ≠ .initial) :
    (divideJobs net working needJob c).1.state ≠ .initial := by
  obtain ⟨-, own, -, -, -, ⟨hsame, -⟩ | ⟨id, -, -, hdivide⟩⟩ :=
    divideJobs_spec net hnodup needJob c
  · rwa [hsame]
  · rw [congrArg Prod.fst hdivide]
    exact onDivideWith_started net id h

/-- Whoever is lost: what a check sends goes to clients, and asks nobody to divide with
itself. -/
theorem checkTable_sent (c : Computation) (net : Net) (table : StackAssignment) (sync : Bool) :
    ∀ q ∈ (c.checkTable net table sync).2,
      q.destId ∈ net.clients ∧ ∀ id, q.msg = .divideWith id → id ≠ q.destId := by
  intro q hq
  simp only [checkTable] at hq
  rcases List.mem_append.mp hq with hq | hq
  · rcases List.mem_append.mp hq with hq | hq
    · rcases firstSent_notice sync q hq with ⟨hdest, ⟨_, hmsg, -⟩ | ⟨hmsg, -⟩⟩ |
        ⟨hdest, id', hmsg, -, hne⟩
      · exact ⟨hdest, fun id hid => by rw [hmsg] at hid; cases hid⟩
      · exact ⟨hdest, fun id hid => by rw [hmsg] at hid; cases hid⟩
      · exact ⟨hdest, fun id hid => by rw [hmsg] at hid; cases hid; exact hne⟩
    · rw [giveDisconnectedJobs] at hq
      split at hq
      · obtain ⟨hdest, hmsg⟩ := Net.mem_broadcastMsg.mp hq
        exact ⟨hdest, fun id hid => by rw [hmsg] at hid; cases hid⟩
      · cases hq
  · exact divideJobs_sent net _ _ _ q hq

theorem checkTable_started {c : Computation} (net : Net) (table : StackAssignment) (sync : Bool)
    (h : c.state ≠ .initial) : (c.checkTable net table sync).1.state ≠ .initial := by
  have hgave : ∀ (c : Computation) (table' : StackAssignment), c.state ≠ .initial →
      (c.giveDisconnectedJobs net table' (settled net table)).1.state ≠ .initial := by
    intro c table' hc
    rw [giveDisconnectedJobs]
    split
    · exact onAssignment_started _ net _
    · exact hc
  refine divideJobs_started net (settled net table).working.nodup _ (hgave _ _ ?_)
  split
  · exact State.noConfusion
  · exact h

/-- What the first step of an iteration can be. -/
inductive FirstStep (c : Computation) (net : Net) (timeUp sync : Bool) :
    Computation × List Send → Prop
  | init {r : Computation × List Send} (hleader : net.leader = true) (hstate : c.state = .initial)
      (hr : { c with state := .waiting }.initLeaderStep net = some r) :
      FirstStep c net timeUp sync r
  | check {table : StackAssignment} (hleader : net.leader = true)
      (hstate : c.state = .computing ∨ c.state = .waiting)
      (htime : timeUp = true) (htable : c.currAssignment = some table) :
      FirstStep c net timeUp sync (c.checkTable net table sync)
  | idle {c' : Computation} (hcut : c'.maximumCut = c.maximumCut)
      (hbest : c'.bestFound = c.bestFound) (hannounced : c'.announced = c.announced)
      (hrecorded : ∀ k, c'.recorded k = c.recorded k)
      (hlisted : ∀ k, c'.Listed k → c.Listed k)
      (hstate : c'.state = c.state ∨
        net.leader = false ∧ c.state = .initial ∧ c'.state = .waiting) :
      FirstStep c net timeUp sync (c', [])

theorem clearDisconnected_spec (c : Computation) (net : Net) (timeUp : Bool) :
    ∃ table, c.clearDisconnected net timeUp = { c with currAssignment := table } ∧
      (∀ k, (c.clearDisconnected net timeUp).recorded k = c.recorded k) ∧
      ∀ k, (c.clearDisconnected net timeUp).Listed k → c.Listed k := by
  rw [clearDisconnected]
  split
  · cases htable : c.currAssignment with
    | none =>
      have hsame : c = { c with currAssignment := none } := by rw [← htable]
      exact ⟨none, hsame, fun _ => rfl, fun _ h => h⟩
    | some table =>
      refine ⟨some (settledTable net table), rfl, ?_, ?_⟩
      · intro k
        rw [recorded, recorded, htable]
        exact getAssignment_settledTable k
      · intro k hk
        rw [Listed, htable]
        exact mem_getClients_settledTable hk
  · exact ⟨c.currAssignment, rfl, fun _ => rfl, fun _ h => h⟩

theorem firstStep_cases {c : Computation} {net : Net} {timeUp sync : Bool}
    {r : Computation × List Send} (h : c.firstStep net timeUp sync = some r) :
    FirstStep c net timeUp sync r := by
  have hidle : FirstStep c net timeUp sync (c, []) :=
    .idle rfl rfl rfl (fun _ => rfl) (fun _ h => h) (.inl rfl)
  rw [firstStep] at h
  split at h
  · rename_i hleader
    have hcheck : c.state = .computing ∨ c.state = .waiting →
        c.checkAssignments net timeUp sync = some r → FirstStep c net timeUp sync r := by
      intro hstate h
      rw [checkAssignments] at h
      split at h
      · rename_i htime
        split at h
        · cases h
        · rename_i table htable
          cases h
          exact .check hleader hstate htime htable
      · cases h
        exact hidle
    rw [leaderStep] at h
    cases hstate : c.state with
    | initial =>
      rw [hstate] at h
      exact .init hleader hstate h
    | computing | waiting =>
      rw [hstate] at h
      exact hcheck (by simp [hstate]) h
    | terminating | finished =>
      rw [hstate] at h
      cases h
      exact hidle
  · rename_i hleader
    cases h
    rw [nonLeaderStep]
    split
    · rename_i hstate
      obtain ⟨table, heq, hrecorded, hlisted⟩ :=
        { c with state := .waiting }.clearDisconnected_spec net timeUp
      rw [heq] at hrecorded hlisted ⊢
      exact .idle rfl rfl rfl hrecorded hlisted (.inr ⟨by simpa using hleader, hstate, rfl⟩)
    · obtain ⟨table, heq, hrecorded, hlisted⟩ := c.clearDisconnected_spec net timeUp
      rw [heq] at hrecorded hlisted ⊢
      exact .idle rfl rfl rfl hrecorded hlisted (.inl rfl)

end Computation

end ParLib.Job
