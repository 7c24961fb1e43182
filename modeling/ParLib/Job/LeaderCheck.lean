import ParLib.Foundations.Handovers
import ParLib.Job.NodeRuns

/-!
# What one check of the leader does to the jobs

A check clears the empty entries of lost clients, hands the jobs of lost
clients over to connected ones without work, and asks connected clients with
work to divide with those that are still without. It ends the computation just
when the table records no work for anybody.
-/

namespace ParLib.Job

set_option autoImplicit false

open Foundations ParallelStack

namespace StackAssignment

theorem getClients_nodup (a : StackAssignment) : a.getClients.Nodup := a.assignments.keys_nodup

/-- Everything that the table records, for whomever. -/
def allStates (a : StackAssignment) : Multiset Path :=
  (a.getClients.map fun k => (a.getAssignment k : Multiset Path)).sum

theorem allStates_eq_sum (a : StackAssignment) (holders : Finset NetworkId)
    (h : ∀ k ∈ a.getClients, k ∈ holders) :
    a.allStates = ∑ k ∈ holders, (a.getAssignment k : Multiset Path) := by
  rw [allStates, ← List.sum_toFinset _ a.getClients_nodup]
  apply Finset.sum_subset
  · intro k hk
    exact h k (List.mem_toFinset.mp hk)
  · intro k _ hk
    rw [List.mem_toFinset] at hk
    rw [getAssignment_of_not_mem hk, Multiset.coe_nil]

end StackAssignment

namespace Message

def isTerminate : Message → Bool
  | .terminate => true
  | _ => false

def isDivideWith : Message → Bool
  | .divideWith _ => true
  | _ => false

end Message

namespace Net

theorem filter_broadcastMsg (net : Net) (p : Message → Bool) (msg : Message) :
    (net.broadcastMsg msg).filter (fun q => p q.msg) =
      if p msg then net.broadcastMsg msg else [] := by
  rw [broadcastMsg, List.filter_map]
  split
  · rename_i hp
    have hall : (fun q : Send => p q.msg) ∘ (fun client => ⟨client, msg⟩) =
      fun _ : NetworkId => true := funext fun _ => hp
    rw [hall, List.filter_true]
  · rename_i hp
    have hnone : (fun q : Send => p q.msg) ∘ (fun client => ⟨client, msg⟩) =
      fun _ : NetworkId => false := funext fun _ => Bool.not_eq_true _ ▸ hp
    rw [hnone, List.filter_false, List.map_nil]

theorem filter_sendMsg (net : Net) (p : Message → Bool) (msg : Message) (destId : NetworkId) :
    (net.sendMsg msg destId).filter (fun q => p q.msg) =
      if p msg then net.sendMsg msg destId else [] := by
  rw [sendMsg]
  split <;> cases hp : p msg <;> simp [hp]

end Net

namespace Computation

open ClientSets

/-- Nothing but empty entries of clients that are not connected has gone. -/
def ClearsOnlyEmpty (net : Net) (table cleared : StackAssignment) : Prop :=
  ∀ k, cleared.find? k = table.find? k ∨
    table.find? k = some [] ∧ k ∉ net.knownClients ∧ cleared.find? k = none

theorem clearsOnlyEmpty_settledTable (net : Net) (table : StackAssignment) :
    ClearsOnlyEmpty net table (settledTable net table) := by
  intro k
  rw [settledTable, StackAssignment.find?_foldl_remove]
  split
  · rename_i hk
    obtain ⟨hentry, hlost, hempty⟩ := mem_cleared.mp hk
    obtain ⟨states, hstates⟩ :=
      Option.isSome_iff_exists.mp (StackAssignment.mem_getClients.mp hentry)
    rw [StackAssignment.getAssignment, hstates, Option.getD_some] at hempty
    exact .inr ⟨by rw [hstates, hempty], hlost, rfl⟩
  · exact .inl rfl

theorem onDivideWith_filter (c : Computation) (net : Net) (id : NetworkId) {p : Message → Bool}
    (hp : ∀ assign resent, p (.stackAssignment assign resent) = false) :
    (c.onDivideWith net id).2.filter (fun q => p q.msg) = [] := by
  apply List.filter_eq_nil_iff.mpr
  intro q hq
  rw [(onDivideWith_sent hq).2, hp]
  exact Bool.false_ne_true

theorem giveDisconnectedJobs_filter (c : Computation) (net : Net) (table : StackAssignment)
    (sets : ClientSets) {p : Message → Bool}
    (hp : ∀ assign resent, p (.stackAssignment assign resent) = false) :
    (c.giveDisconnectedJobs net table sets).2.filter (fun q => p q.msg) = [] := by
  rw [giveDisconnectedJobs]
  split
  · rw [Net.filter_broadcastMsg, hp]
    rfl
  · rfl

theorem firstSent_filter (net : Net) (table : StackAssignment) (sync : Bool) {p : Message → Bool}
    (hp : ∀ assign resent, p (.stackAssignment assign resent) = false) :
    (firstSent net table sync).filter (fun q => p q.msg) =
      if (settled net table).noJobsLeft ∧ p .terminate then net.broadcastMsg .terminate
      else [] := by
  have hsynced : (if sync then
      net.broadcastMsg (.stackAssignment (settledTable net table) true) else []).filter
        (fun q => p q.msg) = [] := by
    split
    · rw [Net.filter_broadcastMsg, hp]
      rfl
    · rfl
  have hinformed : ((settled net table).new.elems.flatMap
      (net.sendMsg (.stackAssignment (settledTable net table) true))).filter
        (fun q => p q.msg) = [] := by
    apply List.filter_eq_nil_iff.mpr
    intro q hq
    obtain ⟨client, -, hq⟩ := List.mem_flatMap.mp hq
    rw [(Net.mem_sendMsg.mp hq).2, hp]
    exact Bool.false_ne_true
  simp only [firstSent, List.filter_append, hsynced, hinformed, List.nil_append]
  cases (settled net table).noJobsLeft with
  | true => simp [Net.filter_broadcastMsg]
  | false => simp

/-- The requests of the loop, of which the leader performs its own. -/
theorem divideJobs_requests (net : Net) (working needJob : List NetworkId) (c : Computation)
    (hconnected : ∀ w ∈ working, w ∈ net.knownClients) :
    (divideJobs net working needJob c).2.filter (fun q => q.msg.isDivideWith) =
      ((working.zip needJob).filter fun p => p.1 ≠ net.networkId).map
        fun p => ⟨p.1, .divideWith p.2⟩ := by
  induction working generalizing needJob c with
  | nil => simp [divideJobs]
  | cons w working ih =>
    have hworking : ∀ w ∈ working, w ∈ net.knownClients :=
      fun v hv => hconnected v (List.mem_cons_of_mem w hv)
    cases needJob with
    | nil => simp [divideJobs]
    | cons id needJob =>
      rw [divideJobs, List.zip_cons_cons]
      split
      · rename_i hw
        have hclient : w ∈ net.clients :=
          (Net.mem_knownClients.mp (hconnected w List.mem_cons_self)).resolve_right hw
        have hkept : decide (w ≠ net.networkId) = true := decide_eq_true hw
        rw [List.filter_append, ih needJob c hworking, Net.filter_sendMsg net Message.isDivideWith,
          List.filter_cons, if_pos hkept, List.map_cons, Net.sendMsg, if_pos hclient]
        rfl
      · rename_i hw
        have hleft : ¬ decide (w ≠ net.networkId) = true := by simpa using hw
        rw [List.filter_append, ih needJob _ hworking, List.filter_cons, if_neg hleft,
          onDivideWith_filter c net id (p := Message.isDivideWith) fun _ _ => rfl,
          List.nil_append]

theorem divideJobs_no_terminate (net : Net) (working needJob : List NetworkId) (c : Computation) :
    (divideJobs net working needJob c).2.filter (fun q => q.msg.isTerminate) = [] := by
  induction working generalizing needJob c with
  | nil => simp [divideJobs]
  | cons w working ih =>
    cases needJob with
    | nil => simp [divideJobs]
    | cons id needJob =>
      rw [divideJobs]
      split
      · rw [List.filter_append, ih, Net.filter_sendMsg net Message.isTerminate]
        rfl
      · rw [List.filter_append, ih,
          onDivideWith_filter c net id (p := Message.isTerminate) fun _ _ => rfl, List.append_nil]

theorem checkTable_terminates (c : Computation) (net : Net) (table : StackAssignment)
    (sync : Bool) :
    (c.checkTable net table sync).2.filter (fun q => q.msg.isTerminate) =
      if (settled net table).noJobsLeft then net.broadcastMsg .terminate else [] := by
  rw [checkTable_eq, List.filter_append, List.filter_append, divideJobs_no_terminate,
    firstSent_filter net table sync (p := Message.isTerminate) fun _ _ => rfl,
    giveDisconnectedJobs_filter (p := Message.isTerminate) _ _ _ _ fun _ _ => rfl]
  simp [Message.isTerminate]

theorem onDivideWith_not_finished {c : Computation} (net : Net) (id : NetworkId)
    (h : c.state ≠ .finished) : (c.onDivideWith net id).1.state ≠ .finished := by
  cases eq_or_ne c.stack [] with
  | inl hnil => rwa [onDivideWith_of_nil net id hnil]
  | inr hwork =>
    rw [onDivideWith_of_ne_nil net id hwork]
    exact onAssignment_not_finished _ net _

theorem checkTable_not_finished {c : Computation} {net : Net} {table : StackAssignment}
    (sync : Bool) (hstate : c.state ≠ .finished) (h : (settled net table).noJobsLeft = false) :
    (c.checkTable net table sync).1.state ≠ .finished := by
  apply checkTable_fst_induction (P := fun c => c.state ≠ .finished)
  · rw [checked, h]
    exact hstate
  · intro hchecked
    exact giveDisconnectedJobs_fst_induction (P := fun c => c.state ≠ .finished) hchecked
      fun assign => onAssignment_not_finished _ net assign
  · intro c id hc
    exact onDivideWith_not_finished net id hc

/-- A leader checks its table while it is computing or waiting, and ends the computation
in that very check if the table records no work. -/
theorem check_terminates_iff (c : Computation) (net : Net) (table : StackAssignment) (sync : Bool)
    (htable : c.currAssignment = some table) (hstate : c.state ≠ .finished) :
    ∃ r, c.checkAssignments net true sync = some r ∧
      ((r.2.filter (fun q => q.msg.isTerminate) =
          net.clients.map (fun client => ⟨client, .terminate⟩) ∧
          r.1.state = .finished) ↔ ∀ k ∈ table.getClients, table.getAssignment k = []) ∧
      ((∃ k ∈ table.getClients, table.getAssignment k ≠ []) →
        r.2.filter (fun q => q.msg.isTerminate) = [] ∧ r.1.state ≠ .finished) := by
  have hempty : (settled net table).noJobsLeft = true ↔
      ∀ k ∈ table.getClients, table.getAssignment k = [] := by
    rw [noJobsLeft_iff]
    constructor
    · exact fun h k _ => h k
    · intro h k
      by_cases hk : k ∈ table.getClients
      · exact h k hk
      · exact StackAssignment.getAssignment_of_not_mem hk
  refine ⟨c.checkTable net table sync, by simp [checkAssignments, htable], ?_⟩
  rw [checkTable_terminates, ← hempty]
  cases hjobs : (settled net table).noJobsLeft with
  | true =>
    have hfinished : (c.checkTable net table sync).1.state = .finished := by
      rw [checkTable_of_noJobsLeft c sync hjobs, checked, if_pos hjobs]
    refine ⟨by simp [hfinished, Net.broadcastMsg], ?_⟩
    rintro ⟨k, hk, hwork⟩
    exact absurd (hempty.mp hjobs k hk) hwork
  | false =>
    have hgoes := checkTable_not_finished (c := c) sync hstate hjobs
    exact ⟨by simp [hgoes], fun _ => ⟨by simp, hgoes⟩⟩

/-- The leader A has work, C is gone with a job, and B has just come. -/
def lostJobTable : StackAssignment :=
  (StackAssignment.empty.setAssignment idC [[1]]).setAssignment idA [[2], [3]]

def lostJobLeader : Computation :=
  { new fourClique with
    maximumCut := (MaximumCut.new fourClique).assignData [[2], [3]]
    currAssignment := some lostJobTable
    state := .computing }

/-- The leader goes on for the lost job, and would end the computation without any. -/
theorem check_terminates_iff_lost_job :
    (lostJobLeader.currAssignment = some lostJobTable ∧ lostJobLeader.state ≠ .finished) ∧
    let net : Net := ⟨idA, [idB], true⟩
    let ended := { lostJobLeader with currAssignment := some (.setAssignment .empty idA []) }
    (∃ r, lostJobLeader.checkAssignments net true false = some r ∧
      r.2.filter (fun q => q.msg.isTerminate) = [] ∧ r.1.state ≠ .finished) ∧
    ∃ r, ended.checkAssignments net true false = some r ∧
      r.2.filter (fun q => q.msg.isTerminate) = [⟨idB, .terminate⟩] ∧ r.1.state = .finished := by
  have hlive : lostJobLeader.state ≠ .finished := by decide
  obtain ⟨r, hr, -, hgoes⟩ := check_terminates_iff lostJobLeader ⟨idA, [idB], true⟩ lostJobTable
    false rfl hlive
  obtain ⟨r', hr', hends, -⟩ := check_terminates_iff
    { lostJobLeader with currAssignment := some (.setAssignment .empty idA []) }
    ⟨idA, [idB], true⟩ _ false rfl hlive
  exact ⟨⟨rfl, hlive⟩, ⟨r, hr, hgoes ⟨idC, by decide⟩⟩, r', hr', hends.mpr (by decide)⟩

/-- The clients that are gone and leave work behind. -/
def lost (net : Net) (table : StackAssignment) : Finset NetworkId :=
  table.getClients.toFinset.filter fun k => k ∉ net.knownClients ∧ table.getAssignment k ≠ []

/-- The connected clients without work, new or finished. -/
def idle (net : Net) (table : StackAssignment) : Finset NetworkId :=
  net.knownClients.toFinset.filter fun k => table.getAssignment k = []

def busy (net : Net) (table : StackAssignment) : Finset NetworkId :=
  net.knownClients.toFinset.filter fun k => table.getAssignment k ≠ []

section Counts

variable {net : Net} {table : StackAssignment} {k : NetworkId}

theorem mem_lost : k ∈ lost net table ↔ k ∉ net.knownClients ∧ table.getAssignment k ≠ [] := by
  rw [lost, Finset.mem_filter, List.mem_toFinset, and_iff_right_iff_imp]
  rintro ⟨-, hwork⟩
  exact not_not.mp fun hk => hwork (StackAssignment.getAssignment_of_not_mem hk)

theorem mem_idle : k ∈ idle net table ↔ k ∈ net.knownClients ∧ table.getAssignment k = [] := by
  rw [idle, Finset.mem_filter, List.mem_toFinset]

theorem mem_busy : k ∈ busy net table ↔ k ∈ net.knownClients ∧ table.getAssignment k ≠ [] := by
  rw [busy, Finset.mem_filter, List.mem_toFinset]

theorem size_disconnected : (settled net table).disconnected.size = (lost net table).card :=
  OrdSet.size_eq_card_of_mem_iff fun _ => mem_disconnected.trans mem_lost.symm

theorem size_needJob : (settled net table).needJob.size = (idle net table).card :=
  OrdSet.size_eq_card_of_mem_iff fun _ => mem_needJob.trans mem_idle.symm

theorem size_working : (settled net table).working.size = (busy net table).card :=
  OrdSet.size_eq_card_of_mem_iff fun _ => mem_working.trans mem_busy.symm

end Counts

/-- The loop hands each job over in the table that the node then reads. -/
theorem getD_find?_giveJobs (table : StackAssignment) (base : NetworkId → List Path)
    {disconnected needJob : List NetworkId} (h : TouchOnce (disconnected.zip needJob))
    (newAssignments : StackAssignment)
    (hbase : ∀ p ∈ disconnected.zip needJob,
      (newAssignments.find? p.1).getD (base p.1) = table.getAssignment p.1) (k : NetworkId) :
    ((giveJobs table disconnected needJob newAssignments).find? k).getD (base k) =
      (disconnected.zip needJob).foldl (handOver [])
        (fun k => (newAssignments.find? k).getD (base k)) k := by
  induction disconnected generalizing needJob newAssignments with
  | nil => simp [giveJobs]
  | cons givenJobFrom disconnected ih =>
    cases needJob with
    | nil => simp [giveJobs]
    | cons givenJobTo needJob =>
      have hfrom := hbase (givenJobFrom, givenJobTo) List.mem_cons_self
      have hstep : (fun k => ((((newAssignments.setAssignment givenJobTo
            (table.getAssignment givenJobFrom)).setAssignment givenJobFrom []).find? k).getD
              (base k))) =
          handOver [] (fun k => (newAssignments.find? k).getD (base k))
            (givenJobFrom, givenJobTo) := by
        funext k
        rw [handOver, StackAssignment.find?_setAssignment, StackAssignment.find?_setAssignment,
          hfrom]
        split_ifs <;> rfl
      rw [giveJobs, ih h.tail, hstep, List.zip_cons_cons, List.foldl_cons]
      intro p hp
      have hfst : p.1 ∈ (disconnected.zip needJob).map Prod.fst := List.mem_map_of_mem hp
      have hne : p.1 ≠ givenJobFrom := fun heq => h.head_not_mem.1.1 (heq ▸ hfst)
      have hne' : p.1 ≠ givenJobTo := fun heq => h.head_not_mem.2.1 (heq ▸ hfst)
      rw [StackAssignment.find?_setAssignment, if_neg hne, StackAssignment.find?_setAssignment,
        if_neg hne']
      exact hbase p (List.mem_cons_of_mem _ hp)

/-- Jobs of lost clients in the first places, idle clients in the second. -/
def handovers (net : Net) (table : StackAssignment) : List (NetworkId × NetworkId) :=
  (settled net table).disconnected.elems.zip (settled net table).needJob.elems

theorem touchOnce_handovers (net : Net) (table : StackAssignment) :
    TouchOnce (handovers net table) := by
  apply touchOnce_zip (settled net table).disconnected.nodup (settled net table).needJob.nodup
  intro k hk hk'
  exact (mem_disconnected.mp hk).1 (mem_needJob.mp hk').1

theorem mem_of_mem_handovers {net : Net} {table : StackAssignment} {p : NetworkId × NetworkId}
    (hp : p ∈ handovers net table) : p.1 ∈ lost net table ∧ p.2 ∈ idle net table := by
  obtain ⟨hfrom, hto⟩ := List.of_mem_zip hp
  exact ⟨mem_lost.mpr (mem_disconnected.mp hfrom), mem_idle.mpr (mem_needJob.mp hto)⟩

/-- The node once it has given away the jobs of lost clients. -/
def givenAway (c : Computation) (net : Net) (table : StackAssignment) : Computation :=
  ((c.checked net table).giveDisconnectedJobs net (settledTable net table) (settled net table)).1

theorem givenAway_recorded {c : Computation} {table : StackAssignment}
    (htable : c.currAssignment = some table) (net : Net) (k : NetworkId) :
    (c.givenAway net table).recorded k =
      (handovers net table).foldl (handOver []) table.getAssignment k := by
  have hrecorded : ∀ k, (c.checked net table).recorded k = table.getAssignment k := by
    intro k
    rw [checked_recorded htable, recorded, htable, Option.getD_some]
  rw [givenAway, giveDisconnectedJobs]
  split
  · rw [onAssignment_recorded, getD_find?_giveJobs _ _ (touchOnce_handovers net table)]
    · simp only [StackAssignment.find?_empty, Option.getD_none]
      rw [funext hrecorded]
      rfl
    · intro p _
      rw [StackAssignment.find?_empty, Option.getD_none, hrecorded, getAssignment_settledTable]
  · rename_i hnone
    have hnil : handovers net table = [] := by
      apply List.eq_nil_of_length_eq_zero
      rw [handovers, List.length_zip]
      exact Nat.eq_zero_of_not_pos hnone
    rw [hnil, List.foldl_nil, hrecorded]

theorem givenAway_currAssignment (c : Computation) (net : Net) (table : StackAssignment) :
    ∃ given, (c.givenAway net table).currAssignment = some given := by
  rw [givenAway]
  apply giveDisconnectedJobs_fst_induction (P := fun c => ∃ given, c.currAssignment = some given)
  · exact ⟨settledTable net table, rfl⟩
  · intro assign
    exact ⟨_, onAssignment_currAssignment _ net assign⟩

/-- Handing jobs over keeps everything that is recorded. -/
theorem givenAway_allStates {c : Computation} {table given : StackAssignment}
    (htable : c.currAssignment = some table) (net : Net)
    (hgiven : (c.givenAway net table).currAssignment = some given) :
    given.allStates = table.allStates := by
  let holders := given.getClients.toFinset ∪ table.getClients.toFinset ∪
    lost net table ∪ idle net table
  have hentry : ∀ k, given.getAssignment k =
      (handovers net table).foldl (handOver []) table.getAssignment k := by
    intro k
    rw [← givenAway_recorded htable, recorded, hgiven, Option.getD_some]
  rw [given.allStates_eq_sum holders, table.allStates_eq_sum holders]
  · simp only [hentry]
    apply sum_foldl_handOver Multiset.coe_nil (touchOnce_handovers net table)
    · intro p hp
      simp [holders, (mem_of_mem_handovers hp).1]
    · intro p hp
      simp [holders, (mem_of_mem_handovers hp).2]
    · intro p hp
      rw [(mem_idle.mp (mem_of_mem_handovers hp).2).2, Multiset.coe_nil]
  · intro k hk
    simp [holders, hk]
  · intro k hk
    simp [holders, hk]

/-- The jobs of as many lost clients as there are idle ones for have moved, and nothing else. -/
structure MovesJobs (net : Net) (table : StackAssignment) (moves : List (NetworkId × NetworkId))
    (mid : Computation) : Prop where
  count : moves.length = min (lost net table).card (idle net table).card
  once : TouchOnce moves
  fromLost : ∀ p ∈ moves, p.1 ∈ lost net table
  toIdle : ∀ p ∈ moves, p.2 ∈ idle net table
  given : ∀ p ∈ moves, mid.recorded p.2 = table.getAssignment p.1
  taken : ∀ p ∈ moves, mid.recorded p.1 = []
  others : ∀ k, k ∉ moves.map Prod.fst → k ∉ moves.map Prod.snd →
    mid.recorded k = table.getAssignment k
  states : ∃ given, mid.currAssignment = some given ∧ given.allStates = table.allStates

theorem movesJobs_givenAway {c : Computation} {table : StackAssignment}
    (htable : c.currAssignment = some table) (net : Net) :
    MovesJobs net table (handovers net table) (c.givenAway net table) where
  count := by
    rw [handovers, List.length_zip, ← size_disconnected, ← size_needJob]
    rfl
  once := touchOnce_handovers net table
  fromLost p hp := (mem_of_mem_handovers hp).1
  toIdle p hp := (mem_of_mem_handovers hp).2
  given p hp := by
    rw [givenAway_recorded htable, foldl_handOver_taker (touchOnce_handovers net table) _ hp]
  taken p hp := by
    rw [givenAway_recorded htable, foldl_handOver_giver (touchOnce_handovers net table) _ hp]
  others k hfrom hto := by
    rw [givenAway_recorded htable, foldl_handOver_of_not_mem _ hfrom hto]
  states := by
    obtain ⟨given, hgiven⟩ := c.givenAway_currAssignment net table
    exact ⟨given, hgiven, givenAway_allStates htable net hgiven⟩

/-- Busy clients in the first places, idle ones that have been given no job in the second. -/
def divisions (net : Net) (table : StackAssignment) : List (NetworkId × NetworkId) :=
  (settled net table).working.elems.zip
    ((settled net table).needJob.elems.drop (settled net table).disconnected.size)

/-- A different busy client each time is asked to divide with a different one that still
has no work; the leader divides its own work at once. -/
structure AsksToDivide (net : Net) (table : StackAssignment) (mid : Computation)
    (asked : List (NetworkId × NetworkId)) (r : Computation × List Send) : Prop where
  count : asked.length = min (busy net table).card
    ((idle net table).card - min (lost net table).card (idle net table).card)
  askedOnce : (asked.map Prod.fst).Nodup
  namedOnce : (asked.map Prod.snd).Nodup
  busy : ∀ p ∈ asked, p.1 ∈ busy net table
  idle : ∀ p ∈ asked, p.2 ∈ idle net table ∧ mid.recorded p.2 = []
  sent : r.2.filter (fun q => q.msg.isDivideWith) =
    (asked.filter fun p => p.1 ≠ net.networkId).map fun p => ⟨p.1, .divideWith p.2⟩
  own : ∀ p ∈ asked, p.1 = net.networkId →
    r.1 = (mid.onDivideWith net p.2).1 ∧ ∀ q ∈ (mid.onDivideWith net p.2).2, q ∈ r.2
  others : net.networkId ∉ asked.map Prod.fst → r.1 = mid

/-- A client that is given no job is not among those that a lost client hands over to. -/
theorem not_mem_handovers_of_mem_drop {net : Net} {table : StackAssignment} {k : NetworkId}
    (hk : k ∈ (settled net table).needJob.elems.drop (settled net table).disconnected.size) :
    k ∉ (handovers net table).map Prod.fst ∧ k ∉ (handovers net table).map Prod.snd := by
  constructor
  · intro hmem
    obtain ⟨p, hp, rfl⟩ := List.mem_map.mp hmem
    have hlost := (mem_lost.mp (mem_of_mem_handovers hp).1).1
    exact hlost (mem_needJob.mp (List.mem_of_mem_drop hk)).1
  · intro hmem
    have htake : (handovers net table).map Prod.snd <+:
        (settled net table).needJob.elems.take (settled net table).disconnected.size := by
      rw [List.prefix_take_iff, List.length_map, handovers, List.length_zip]
      exact ⟨snd_zip_isPrefix _ _, Nat.min_le_left _ _⟩
    exact List.disjoint_take_drop (settled net table).needJob.nodup le_rfl (htake.mem hmem) hk

theorem divideJobs_own {net : Net} {working : List NetworkId} (hnodup : working.Nodup)
    {needJob : List NetworkId} {id : NetworkId} (hown : (net.networkId, id) ∈ working.zip needJob)
    (c : Computation) :
    (divideJobs net working needJob c).1 = (c.onDivideWith net id).1 ∧
      ∀ q ∈ (c.onDivideWith net id).2, q ∈ (divideJobs net working needJob c).2 := by
  induction working generalizing needJob with
  | nil => cases hown
  | cons w working ih =>
    rw [List.nodup_cons] at hnodup
    cases needJob with
    | nil => cases hown
    | cons needsJob needJob =>
      rw [divideJobs]
      cases List.mem_cons.mp hown with
      | inl heq =>
        cases heq
        rw [if_neg (not_not.mpr rfl)]
        have hrest := (divideJobs_of_not_mem hnodup.1 needJob (c.onDivideWith net id).1).1
        exact ⟨hrest, fun q hq => List.mem_append_left _ hq⟩
      | inr hown =>
        have hw : w ≠ net.networkId := fun heq => hnodup.1 (heq ▸ (List.of_mem_zip hown).1)
        obtain ⟨hsame, hsent⟩ := ih hnodup.2 hown
        rw [if_pos hw]
        exact ⟨hsame, fun q hq => List.mem_append_right _ (hsent q hq)⟩

theorem divideJobs_others {net : Net} {working needJob : List NetworkId} (c : Computation)
    (hself : net.networkId ∉ (working.zip needJob).map Prod.fst) :
    (divideJobs net working needJob c).1 = c := by
  induction working generalizing needJob with
  | nil => simp [divideJobs]
  | cons w working ih =>
    cases needJob with
    | nil => simp [divideJobs]
    | cons id needJob =>
      rw [List.zip_cons_cons, List.map_cons, List.mem_cons, not_or] at hself
      rw [divideJobs, if_pos (Ne.symm hself.1)]
      exact ih hself.2

theorem asksToDivide_checkTable {c : Computation} {table : StackAssignment}
    (htable : c.currAssignment = some table) (net : Net) (sync : Bool) :
    AsksToDivide net table (c.givenAway net table) (divisions net table)
      (c.checkTable net table sync) := by
  have hcheck := c.checkTable_eq net table sync
  dsimp only at hcheck
  rw [hcheck]
  constructor
  · rw [divisions, List.length_zip, List.length_drop, ← size_working, ← size_needJob,
      ← size_disconnected]
    simp only [OrdSet.size]
    omega
  · exact (settled net table).working.nodup.sublist (fst_zip_isPrefix _ _).sublist
  · exact ((settled net table).needJob.nodup.sublist (List.drop_sublist _ _)).sublist
      (snd_zip_isPrefix _ _).sublist
  · intro p hp
    exact mem_busy.mpr (mem_working.mp (List.of_mem_zip hp).1)
  · intro p hp
    have hdrop := (List.of_mem_zip hp).2
    have hneed := mem_needJob.mp (List.mem_of_mem_drop hdrop)
    obtain ⟨hfrom, hto⟩ := not_mem_handovers_of_mem_drop hdrop
    refine ⟨mem_idle.mpr hneed, ?_⟩
    rw [(movesJobs_givenAway htable net).others p.2 hfrom hto, hneed.2]
  · rw [List.filter_append, List.filter_append,
      firstSent_filter net table sync (p := Message.isDivideWith) fun _ _ => rfl,
      giveDisconnectedJobs_filter (p := Message.isDivideWith) _ _ _ _ fun _ _ => rfl,
      divideJobs_requests]
    · simp [Message.isDivideWith, divisions]
    · exact fun w hw => (mem_working.mp hw).1
  · intro p hp hself
    have hown : (net.networkId, p.2) ∈ divisions net table := by rwa [← hself]
    obtain ⟨hsame, hsent⟩ := divideJobs_own (settled net table).working.nodup hown
      (c.givenAway net table)
    exact ⟨hsame, fun q hq => List.mem_append_right _ (hsent q hq)⟩
  · exact divideJobs_others _

/-- One check redistributes the jobs without losing or doubling any. -/
theorem check_redistributes (c : Computation) (net : Net) (table : StackAssignment) (sync : Bool)
    (htable : c.currAssignment = some table) :
    (∃ cleared, (c.clearDisconnected net true).currAssignment = some cleared ∧
      ClearsOnlyEmpty net table cleared) ∧
    ClearsOnlyEmpty net table (settledTable net table) ∧
    ∃ r, c.checkAssignments net true sync = some r ∧ ∃ moves asked,
      MovesJobs net table moves (c.givenAway net table) ∧
      AsksToDivide net table (c.givenAway net table) asked r := by
  have hclears := clearsOnlyEmpty_settledTable net table
  refine ⟨⟨_, by simp [clearDisconnected, htable], hclears⟩, hclears,
    c.checkTable net table sync, by simp [checkAssignments, htable], handovers net table,
    divisions net table, movesJobs_givenAway htable net, asksToDivide_checkTable htable net sync⟩

/-- Both the leader A and B have work, C is gone with a job, and three clients have just come. -/
def sharedTable : StackAssignment := lostJobTable.setAssignment idB [[4]]

def sharingLeader : Computation := { lostJobLeader with currAssignment := some sharedTable }

/-- One of the new clients gets the lost job, and each of the others half of a job, one of
which the leader has to divide itself. -/
theorem check_redistributes_lost_job :
    sharingLeader.currAssignment = some sharedTable ∧
    let net : Net := ⟨idA, [idB, [68], [69], [70]], true⟩
    (∃ cleared, (sharingLeader.clearDisconnected net true).currAssignment = some cleared ∧
      ClearsOnlyEmpty net sharedTable cleared) ∧
    ClearsOnlyEmpty net sharedTable (settledTable net sharedTable) ∧
    ∃ r, sharingLeader.checkAssignments net true true = some r ∧
      r.2.filter (fun q => q.msg.isDivideWith) = [⟨idB, .divideWith [70]⟩] ∧
      r.1.stack = [[2]] ∧ r.1.recorded [68] = [[1]] ∧ r.1.recorded [69] = [[3]] ∧
      ∃ moves asked, MovesJobs net sharedTable moves (sharingLeader.givenAway net sharedTable) ∧
        AsksToDivide net sharedTable (sharingLeader.givenAway net sharedTable) asked r := by
  obtain ⟨hcleared, hsettled, r, hr, hmoves⟩ := check_redistributes sharingLeader
    ⟨idA, [idB, [68], [69], [70]], true⟩ sharedTable true rfl
  obtain rfl : sharingLeader.checkTable ⟨idA, [idB, [68], [69], [70]], true⟩ sharedTable true = r :=
    Option.some.inj hr
  exact ⟨rfl, hcleared, hsettled, _, hr, rfl, by decide +kernel, by decide +kernel,
    by decide +kernel, hmoves⟩

end Computation

end ParLib.Job
