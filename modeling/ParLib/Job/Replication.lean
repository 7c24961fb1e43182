import ParLib.Foundations.Replicas
import ParLib.Job.Termination

/-!
# Convergence of the tables

Every entry of the assignment table is a register with a replica on each node.
A message that writes an entry is broadcast by the node that has written it.
As long as nobody writes or repeats an entry while a write of it is on its way
to him, and writes of an entry are read in sending order, the replicas agree.
-/

namespace ParLib.Job

set_option autoImplicit false

open Foundations

namespace Computation

open ClientSets

def finishes (c : Computation) : Bool :=
  c.state = .computing ∧ c.maximumCut.compute.any Prod.fst

theorem computeStep_of_not_finishes {c : Computation} {net : Net} {r : Computation × List Send}
    (h : c.computeStep net = some r) (hfinishes : c.finishes = false) :
    ∃ mc, r = ({ c with maximumCut := mc }, []) := by
  rw [computeStep] at h
  split at h
  · cases h
  · rename_i done mc hcompute
    rw [finishes, hcompute, Option.any_some, decide_eq_false_iff_not] at hfinishes
    dsimp only at h hfinishes
    rw [if_neg fun hdone => hfinishes hdone.symm] at h
    exact ⟨mc, (Option.some.inj h).symm⟩

/-- The entries that a check writes or repeats. -/
def checkedEntries (c : Computation) (net : Net) (table : StackAssignment) (sync : Bool) :
    List NetworkId :=
  (if Repeats net table sync then table.getClients else []) ++
    if c.stack = [] then []
    else (settled net table).needJob.elems.flatMap fun client => [net.networkId, client]

end Computation

namespace System

/-- The entries that the acting node writes or repeats to others. -/
def published (s : System) : Action → List NetworkId
  | .first id timeUp sync =>
    match (s.net id).leader, (s.comp id).state, timeUp, (s.comp id).currAssignment with
    | true, .initial, _, _ => (s.net id).knownClients
    | true, .computing, true, some table | true, .waiting, true, some table =>
      (s.comp id).checkedEntries (s.net id) table sync
    | _, _, _, _ => []
  | .compute id => if (s.comp id).finishes then [id] else []
  | .receive id src =>
    match s.packets.find? (Packet.onConnection src id) with
    | some ⟨_, _, .divideWith client⟩ => if s.stack id = [] then [] else [id, client]
    | _ => []
  | .endRead _ | .connect _ _ | .crash _ | .discard _ _ => []

/-- The message that is read next writes no entry that an earlier one, to the same node,
is still to write. -/
def ReadsInOrder (s : System) : Action → Prop
  | .receive id src => ∀ p ∈ s.packets.find? (Packet.onConnection src id),
    ∀ q ∈ s.packets.takeWhile (fun q => !q.onConnection src id), q.dst = id →
      ∀ k ∈ p.entries, k ∉ q.entries
  | _ => True

/-- A member acts; what it publishes is up to date, and so is what it reads. -/
def InOrder (members : Finset NetworkId) (s : System) (a : Action) : Prop :=
  a.node ∈ members ∧ a.Fixed ∧
    (∀ k ∈ s.published a, ∀ p ∈ s.packets, p.dst = a.node → k ∉ p.entries) ∧ s.ReadsInOrder a

instance (s : System) : DecidablePred s.ReadsInOrder
  | .receive _ _ => inferInstanceAs (Decidable (∀ p ∈ List.find? _ s.packets, _))
  | .first _ _ _ | .compute _ | .endRead _ | .connect _ _ | .crash _ | .discard _ _ =>
    inferInstanceAs (Decidable True)

instance (members : Finset NetworkId) (s : System) (a : Action) :
    Decidable (s.InOrder members a) := inferInstanceAs (Decidable (_ ∧ _ ∧ _ ∧ _))

/-- The members are connected to each other and to nobody else. -/
structure Mesh (members : Finset NetworkId) (leader : NetworkId) (s : System) : Prop
    extends s.Linked leader where
  clients : ∀ x y, y ∈ (s.net x).clients ↔ x ∈ members ∧ y ∈ members ∧ y ≠ x

/-- The invariant of the runs in which nothing gets out of order. -/
structure Converging (members : Finset NetworkId) (leader : NetworkId) (s : System) : Prop where
  mesh : s.Mesh members leader
  listed : ∀ x ∈ members, ∀ k, (s.comp x).Listed k → k ∈ members
  written : ∀ p ∈ s.packets, ∀ k ∈ p.entries, k ∈ members
  requests : ∀ p ∈ s.packets, ∀ id, p.msg = .divideWith id →
    p.dst ∈ members ∧ id ∈ members ∧ id ≠ p.dst
  agree : ∀ k, Agree (members : Set NetworkId) (fun x => s.recorded x k)
    fun x => s.pendingWrites x k

section Facts

variable {members : Finset NetworkId} {leader : NetworkId} {s t : System}

theorem Mesh.of_net (h : s.Mesh members leader) (hnet : t.net = s.net) :
    t.Mesh members leader where
  toLinked := h.toLinked.of_net hnet
  clients := by
    rw [hnet]
    exact h.clients

theorem Mesh.mem_knownClients (h : s.Mesh members leader) {x k : NetworkId} (hx : x ∈ members) :
    k ∈ (s.net x).knownClients ↔ k ∈ members := by
  rw [Net.mem_knownClients, h.clients, h.networkId]
  constructor
  · rintro (⟨-, hk, -⟩ | rfl)
    · exact hk
    · exact hx
  · intro hk
    rcases eq_or_ne k x with rfl | hne
    · exact .inr rfl
    · exact .inl ⟨hx, hk, hne⟩

variable {x : NetworkId} {phase : Phase} {r : Computation × List Send}

/-- What a step has to show that changes one member and sends. -/
theorem Converging.of_commit (h : s.Converging members leader) (hx : x ∈ members)
    (hdest : ∀ q ∈ r.2, q.destId ∈ (s.net x).clients)
    (hlisted : ∀ k, r.1.Listed k → k ∈ members)
    (hrequest : ∀ q ∈ r.2, ∀ id, q.msg = .divideWith id → id ∈ members ∧ id ≠ q.destId)
    (hwrites : ∀ q ∈ r.2, ∀ k v, (⟨x, q.destId, q.msg⟩ : Packet).write? k = some v →
      k ∈ members ∧ v = r.1.recorded k ∧ s.pendingWrites x k = [])
    (hchange : ∀ k, r.1.recorded k ≠ s.recorded x k → s.pendingWrites x k = [] ∧
      ∀ y ∈ (s.net x).clients, ∃ q ∈ r.2, q.destId = y ∧
        ((⟨x, y, q.msg⟩ : Packet).write? k).isSome = true) :
    (s.commit x phase r).Converging members leader := by
  generalize ht : s.commit x phase r = t
  have hself : t.comp x = r.1 := by rw [← ht, commit_comp_self]
  have hother : ∀ y, y ≠ x → t.comp y = s.comp y := by
    intro y hy
    rw [← ht, commit_comp_of_ne _ _ _ hy]
  have hpackets : ∀ p ∈ t.packets, p ∈ s.packets ∨ ∃ q ∈ r.2, p = ⟨x, q.destId, q.msg⟩ := by
    intro p hp
    rw [← ht] at hp
    exact mem_commit_packets.mp hp
  refine ⟨h.mesh.of_net (by rw [← ht, commit_net]), ?_, ?_, ?_, ?_⟩
  · intro y hy k hk
    rcases eq_or_ne y x with rfl | hne
    · rw [hself] at hk
      exact hlisted k hk
    · rw [hother y hne] at hk
      exact h.listed y hy k hk
  · intro p hp k hk
    rcases hpackets p hp with hp | ⟨q, hq, rfl⟩
    · exact h.written p hp k hk
    · obtain ⟨v, hv⟩ := Option.isSome_iff_exists.mp (Packet.mem_entries.mp hk)
      exact (hwrites q hq k v hv).1
  · intro p hp id hid
    rcases hpackets p hp with hp | ⟨q, hq, rfl⟩
    · exact h.requests p hp id hid
    · exact ⟨((h.mesh.clients x _).mp (hdest q hq)).2.1, hrequest q hq id hid⟩
  · intro k
    let sentTo : NetworkId → List (List Path) := fun y => r.2.filterMap fun q =>
      if q.destId = y then (⟨x, q.destId, q.msg⟩ : Packet).write? k else none
    have hpending : ∀ y, t.pendingWrites y k = s.pendingWrites y k ++ sentTo y := by
      intro y
      rw [← ht, pendingWrites_commit]
    have hvalue : ∀ y, ∀ v ∈ sentTo y, v = r.1.recorded k := by
      intro y v hv
      obtain ⟨q, hq, hv⟩ := List.mem_filterMap.mp hv
      obtain ⟨-, hv⟩ := Option.ite_none_right_eq_some.mp hv
      exact (hwrites q hq k v hv).2.1
    have hquiet : sentTo x = [] := by
      rw [List.filterMap_eq_nil_iff]
      intro q hq
      refine if_neg fun hdst => ?_
      exact h.mesh.irrefl x (hdst ▸ hdest q hq)
    by_cases hpublic : r.1.recorded k = s.recorded x k ∧ ∀ y, sentTo y = []
    · apply (h.agree k).of_final_eq
      intro y _
      rw [hpending, hpublic.2, List.append_nil]
      rcases eq_or_ne y x with rfl | hne
      · rw [recorded, hself, ← hpublic.1]
      · rw [recorded, hother y hne, recorded]
    · have hnone : s.pendingWrites x k = [] := by
        by_contra hsome
        refine hpublic ⟨not_not.mp fun hne => hsome (hchange k hne).1, ?_⟩
        intro y
        rw [List.filterMap_eq_nil_iff]
        intro q hq
        rw [ite_eq_right_iff]
        intro _
        by_contra hne
        obtain ⟨v, hv⟩ := Option.ne_none_iff_exists'.mp hne
        exact hsome (hwrites q hq k v hv).2.2
      refine (h.agree k).write hx hnone ?_ ?_
      · rw [hpending, hnone, hquiet, List.append_nil]
      · intro y hy hne
        rw [hpending, recorded, hother y hne, recorded, hself]
        by_cases hsent : sentTo y = []
        · right
          rw [hsent, List.append_nil]
          refine ⟨rfl, not_not.mp fun hdiff => ?_⟩
          obtain ⟨q, hq, rfl, hsome⟩ :=
            (hchange k hdiff).2 y ((h.mesh.clients x y).mpr ⟨hx, hy, hne⟩)
          obtain ⟨v, hv⟩ := Option.isSome_iff_exists.mp hsome
          rw [List.filterMap_eq_nil_iff] at hsent
          have hnot := hsent q hq
          rw [if_pos rfl, hv] at hnot
          cases hnot
        · exact .inl (finalValue_append hsent (hvalue y))

/-- A member that has caught up writes some entries and tells everybody. -/
theorem Converging.broadcast (h : s.Converging members leader) (hx : x ∈ members) {msg : Message}
    {c : Computation} (hlisted : ∀ k, c.Listed k → k ∈ members)
    (hmsg : ∀ id, msg ≠ .divideWith id)
    (hwritten : ∀ y k, (⟨x, y, msg⟩ : Packet).write? k ≠ none →
      k ∈ members ∧ s.pendingWrites x k = [])
    (hrecorded : ∀ y k, c.recorded k =
      ((⟨x, y, msg⟩ : Packet).write? k).getD (s.recorded x k)) :
    (s.commit x phase (c, (s.net x).broadcastMsg msg)).Converging members leader := by
  refine h.of_commit hx (fun q hq => (Net.mem_broadcastMsg.mp hq).1) hlisted ?_ ?_ ?_
  · intro q hq id hid
    exact absurd ((Net.mem_broadcastMsg.mp hq).2.symm.trans hid) (hmsg id)
  · intro q hq k v hv
    rw [(Net.mem_broadcastMsg.mp hq).2] at hv
    obtain ⟨hk, hnone⟩ := hwritten q.destId k (by simp [hv])
    refine ⟨hk, ?_, hnone⟩
    rw [hrecorded q.destId, hv, Option.getD_some]
  · intro k hne
    have hwrite : ∀ y, (⟨x, y, msg⟩ : Packet).write? k ≠ none := by
      intro y hnone
      rw [hrecorded y, hnone] at hne
      exact hne rfl
    refine ⟨(hwritten x k (hwrite x)).2, ?_⟩
    intro y hy
    exact ⟨⟨y, msg⟩, Net.mem_broadcastMsg.mpr ⟨hy, rfl⟩, rfl,
      Option.isSome_iff_ne_none.mpr (hwrite y)⟩

/-- A step that writes nothing may repeat entries that are up to date. -/
theorem Converging.of_same_records (h : s.Converging members leader) (hx : x ∈ members)
    (hdest : ∀ q ∈ r.2, q.destId ∈ (s.net x).clients)
    (hlisted : ∀ k, r.1.Listed k → (s.comp x).Listed k)
    (hrecorded : ∀ k, r.1.recorded k = s.recorded x k)
    (hrequest : ∀ q ∈ r.2, ∀ id, q.msg = .divideWith id → id ∈ members ∧ id ≠ q.destId)
    (hwrites : ∀ q ∈ r.2, ∀ k v, (⟨x, q.destId, q.msg⟩ : Packet).write? k = some v →
      k ∈ members ∧ v = s.recorded x k ∧ s.pendingWrites x k = []) :
    (s.commit x phase r).Converging members leader := by
  refine h.of_commit hx hdest (fun k hk => h.listed x hx k (hlisted k hk)) hrequest ?_ ?_
  · intro q hq k v hv
    rw [hrecorded]
    exact hwrites q hq k v hv
  · exact fun k hne => absurd (hrecorded k) hne

theorem Converging.divide (h : s.Converging members leader) (hx : x ∈ members)
    {client : NetworkId} (hclient : client ∈ members) (hne : client ≠ x)
    (hnone : s.stack x ≠ [] → s.pendingWrites x x = [] ∧ s.pendingWrites x client = []) :
    (s.commit x phase ((s.comp x).onDivideWith (s.net x) client)).Converging members leader := by
  by_cases hwork : s.stack x = []
  · rw [Computation.onDivideWith_of_nil _ _ hwork]
    exact h.of_same_records hx (by simp) (fun _ hk => hk) (fun _ => rfl) (by simp) (by simp)
  have hid : client ≠ (s.net x).networkId := by rwa [h.mesh.networkId]
  obtain ⟨c, heq, -, -, -, -, hrecorded, hlisted⟩ := Computation.onDivideWith_spec hid hwork
  have hentry : ∀ k, ((Computation.dividedAssignment (s.net x) client (s.comp x).stack).find? k) ≠
      none → k = client ∨ k = x := by
    intro k hk
    rw [Computation.find?_dividedAssignment, h.mesh.networkId] at hk
    split at hk
    · exact .inl ‹_›
    · split at hk
      · exact .inr ‹_›
      · exact absurd rfl hk
  rw [heq]
  refine h.broadcast hx ?_ (fun id => Message.noConfusion) ?_ fun y k => hrecorded k
  · intro k hk
    cases hlisted k hk with
    | inl hk =>
      rcases hentry k (Option.isSome_iff_ne_none.mp hk) with rfl | rfl
      · exact hclient
      · exact hx
    | inr hk => exact h.listed x hx k hk
  · intro y k hk
    rcases hentry k hk with rfl | rfl
    · exact ⟨hclient, (hnone hwork).2⟩
    · exact ⟨hx, (hnone hwork).1⟩

theorem Converging.of_read (h : s.Converging members leader) {pre post : List Packet} {p : Packet}
    {c : Computation} (hpackets : s.packets = pre ++ p :: post)
    (hfirst : ∀ q ∈ pre, q.dst = p.dst → ∀ k ∈ p.entries, k ∉ q.entries)
    (hlisted : ∀ k, c.Listed k → k ∈ members)
    (hrecorded : ∀ k, c.recorded k = (p.write? k).getD (s.recorded p.dst k)) :
    ({ s with packets := pre ++ post }.commit p.dst phase (c, [])).Converging members leader := by
  generalize ht : ({ s with packets := pre ++ post } : System).commit p.dst phase (c, []) = t
  have hself : t.comp p.dst = c := by rw [← ht, commit_comp_self]
  have hother : ∀ y, y ≠ p.dst → t.comp y = s.comp y := by
    intro y hy
    rw [← ht, commit_comp_of_ne _ _ _ hy]
  have hrest : t.packets = pre ++ post := by rw [← ht, commit_packets]; simp
  have hsub : ∀ q ∈ t.packets, q ∈ s.packets := by
    intro q hq
    rw [hrest] at hq
    exact mem_of_rest hpackets hq
  refine ⟨h.mesh.of_net (by rw [← ht, commit_net]), ?_, fun q hq => h.written q (hsub q hq),
    fun q hq => h.requests q (hsub q hq), ?_⟩
  · intro y hy k hk
    rcases eq_or_ne y p.dst with rfl | hne
    · rw [hself] at hk
      exact hlisted k hk
    · rw [hother y hne] at hk
      exact h.listed y hy k hk
  · intro k
    apply (h.agree k).of_final_eq
    intro y _
    rw [pendingWrites, hrest, pendingWrites, hpackets, List.filterMap_append, List.filterMap_append,
      List.filterMap_cons]
    rcases eq_or_ne y p.dst with rfl | hne
    · rw [recorded, hself, hrecorded, if_pos rfl]
      cases hwrite : p.write? k with
      | none => rfl
      | some v =>
        have hnone : pre.filterMap (fun q => if q.dst = p.dst then q.write? k else none) = [] := by
          rw [List.filterMap_eq_nil_iff]
          intro q hq
          rw [ite_eq_right_iff]
          intro hdst
          have hnot := hfirst q hq hdst k (Packet.mem_entries.mpr (by rw [hwrite]; rfl))
          rw [Packet.mem_entries, Option.not_isSome_iff_eq_none] at hnot
          exact hnot
        rw [hnone, List.nil_append, List.nil_append, finalValue_cons, Option.getD_some]
    · rw [recorded, hother y hne, if_neg (Ne.symm hne), recorded]

/-- The leader's first step gives every member its entry. -/
theorem Converging.init (h : s.Converging members leader) (hleader : leader ∈ members)
    (hnone : ∀ k ∈ members, s.pendingWrites leader k = [])
    (hr : { s.comp leader with state := .waiting }.initLeaderStep (s.net leader) = some r) :
    (s.commit leader phase r).Converging members leader := by
  obtain ⟨mc, -, pars, assign, -, -, -, hfind, rfl⟩ := h.mesh.dealt hr
  have hmember : ∀ k, assign.find? k ≠ none → k ∈ members := by
    intro k hk
    obtain ⟨states, hstates⟩ := Option.ne_none_iff_exists'.mp hk
    exact (h.mesh.mem_knownClients hleader).mp (List.of_mem_zip ((hfind k states).mp hstates)).1
  refine h.broadcast hleader ?_ (fun id => Message.noConfusion) ?_ ?_
  · intro k hk
    rcases Computation.onAssignment_listed _ _ _ hk with hk | hk | rfl
    · exact hmember k (Option.isSome_iff_ne_none.mp (StackAssignment.mem_getClients.mp hk))
    · exact h.listed leader hleader k hk
    · rwa [h.mesh.networkId]
  · exact fun y k hk => ⟨hmember k hk, hnone k (hmember k hk)⟩
  · intro y k
    rw [Computation.onAssignment_recorded]
    rfl

/-- The leader's check repeats entries and divides only where it has caught up. -/
theorem Converging.check (h : s.Converging members leader) (hleader : leader ∈ members)
    {table : StackAssignment} {sync : Bool}
    (htable : (s.comp leader).currAssignment = some table)
    (hnone : ∀ k ∈ (s.comp leader).checkedEntries (s.net leader) table sync,
      s.pendingWrites leader k = []) :
    (s.commit leader phase ((s.comp leader).checkTable (s.net leader) table sync)).Converging
      members leader := by
  have hid := h.mesh.networkId leader
  have hlisted : ∀ k, k ∈ table.getClients → k ∈ members := by
    intro k hk
    apply h.listed leader hleader
    rwa [Computation.Listed, htable]
  have hconnected : ∀ k, table.getAssignment k ≠ [] → k ∈ (s.net leader).knownClients := by
    intro k hk
    refine (h.mesh.mem_knownClients hleader).mpr (hlisted k ?_)
    exact not_not.mp fun hnot => hk (StackAssignment.getAssignment_of_not_mem hnot)
  have hrequest : ∀ q, Computation.Request (s.net leader) q → ∀ id, q.msg = .divideWith id →
      id ∈ members ∧ id ≠ q.destId := by
    rintro q ⟨-, id', hmsg, hknown, hne⟩ id hid
    rw [hmsg] at hid
    cases hid
    exact ⟨(h.mesh.mem_knownClients hleader).mp hknown, hne⟩
  refine (checkTable_induction
    (P := fun s' => s'.Converging members leader ∧
      ∀ k, s'.pendingWrites leader k = s.pendingWrites leader k) hid sync hconnected ?_ ?_ ?_).1
  · intro sent hsent
    have hdest : ∀ q ∈ sent, q.destId ∈ (s.net leader).clients := by
      intro q hq
      rcases hsent q hq with ⟨hdest, -⟩ | ⟨hdest, -⟩ <;> exact hdest
    refine ⟨h.of_same_records hleader hdest (fun k hk => Computation.checked_listed htable hk)
      (Computation.checked_recorded htable (s.net leader)) ?_ ?_, ?_⟩
    · intro q hq id hmsg'
      rcases hsent q hq with ⟨-, ⟨repeated, hmsg, -⟩ | ⟨hmsg, -⟩⟩ | hq
      · rw [hmsg] at hmsg'
        cases hmsg'
      · rw [hmsg] at hmsg'
        cases hmsg'
      · exact hrequest q hq id hmsg'
    · intro q hq k v hv
      rcases hsent q hq with ⟨-, ⟨repeated, hmsg, hrepeated, hrepeats⟩ | ⟨hmsg, -⟩⟩ |
        ⟨-, id, hmsg, -⟩
      · rw [Packet.write?, hmsg] at hv
        have hentry := hrepeated k v hv
        have hk : k ∈ table.getClients := by
          rw [StackAssignment.mem_getClients, hentry]
          rfl
        refine ⟨hlisted k hk, ?_, hnone k ?_⟩
        · rw [recorded_of_table htable, StackAssignment.getAssignment, hentry, Option.getD_some]
        · rw [Computation.checkedEntries, if_pos hrepeats]
          exact List.mem_append_left _ hk
      · rw [Packet.write?, hmsg] at hv
        cases hv
      · rw [Packet.write?, hmsg] at hv
        cases hv
    · intro k
      refine pendingWrites_commit_of_none fun q hq hdst => ?_
      exact absurd (hdst ▸ hdest q hq) (h.mesh.irrefl leader)
  · rintro s' client hnet ⟨h', hsame⟩ hcomp hclient hne hfree
    have hmember := (h.mesh.mem_knownClients hleader).mp hclient
    refine ⟨h'.divide hleader hmember hne ?_, ?_⟩
    · intro hwork
      rw [hsame, hsame]
      have hstack : (s.comp leader).stack ≠ [] := by
        rw [stack, hcomp] at hwork
        exact hwork
      have hneed : client ∈ (Computation.ClientSets.settled (s.net leader) table).needJob :=
        Computation.ClientSets.mem_needJob.mpr ⟨hclient, hfree⟩
      have hentries : ∀ k ∈ [leader, client],
          k ∈ (s.comp leader).checkedEntries (s.net leader) table sync := by
        intro k hk
        rw [Computation.checkedEntries, if_neg hstack, hid]
        exact List.mem_append_right _ (List.mem_flatMap.mpr ⟨client, hneed, hk⟩)
      exact ⟨hnone leader (hentries leader (by simp)), hnone client (hentries client (by simp))⟩
    · intro k
      rw [pendingWrites_commit_of_none, hsame]
      intro q hq hdst
      refine absurd ?_ (h'.mesh.irrefl leader)
      by_cases hwork : (s'.comp leader).stack = []
      · rw [Computation.onDivideWith_of_nil _ _ hwork] at hq
        cases hq
      · rw [Computation.onDivideWith_of_ne_nil _ _ hwork] at hq
        exact hdst ▸ (Net.mem_broadcastMsg.mp hq).1
  · rintro s' sent hnet ⟨h', hsame⟩ hsent
    have hdest : ∀ q ∈ sent, q.destId ∈ (s'.net leader).clients := by
      intro q hq
      rw [hnet]
      exact (hsent q hq).1
    have hwrite : ∀ q ∈ sent, ∀ k, (⟨leader, q.destId, q.msg⟩ : Packet).write? k = none := by
      intro q hq k
      obtain ⟨-, id, hmsg, -⟩ := hsent q hq
      rw [Packet.write?, hmsg]
    refine ⟨h'.of_same_records hleader hdest (fun _ hk => hk) (fun _ => rfl)
      (fun q hq => hrequest q (hsent q hq)) ?_, ?_⟩
    · intro q hq k v hv
      rw [hwrite q hq k] at hv
      cases hv
    · intro k
      rw [pendingWrites_commit_of_none fun q hq _ => hwrite q hq k, hsame]

theorem Converging.compute (h : s.Converging members leader) (hx : x ∈ members)
    (hr : (s.comp x).computeStep (s.net x) = some r)
    (hpublished : (s.comp x).finishes = true → s.pendingWrites x x = []) :
    (s.commit x phase r).Converging members leader := by
  cases hfinishes : (s.comp x).finishes with
  | false =>
    obtain ⟨mc, rfl⟩ := Computation.computeStep_of_not_finishes hr hfinishes
    exact h.of_same_records hx (by simp) (fun _ hk => hk) (fun _ => rfl) (by simp) (by simp)
  | true =>
    have hown : s.pendingWrites x x = [] := hpublished hfinishes
    obtain ⟨mc, ps, -, hcase⟩ := Computation.computeStep_eq_some hr
    rcases hcase with rfl | ⟨-, -, hsent, -, -, -, -, hrecorded, hlisted⟩
    · exact h.of_same_records hx (by simp) (fun _ hk => hk) (fun _ => rfl) (by simp) (by simp)
    · obtain ⟨c, sent⟩ := r
      dsimp only at hsent hrecorded hlisted
      subst hsent
      rw [h.mesh.networkId] at hrecorded hlisted
      refine h.broadcast hx ?_ (fun _ => Message.noConfusion) ?_ ?_
      · intro k hk
        rcases hlisted k hk with rfl | hk
        · exact hx
        · exact h.listed x hx k hk
      · intro y k hk
        simp only [Packet.write?] at hk
        split at hk
        · rename_i hkx
          subst hkx
          exact ⟨hx, hown⟩
        · exact absurd rfl hk
      · intro y k
        rw [hrecorded]
        simp only [Packet.write?]
        split <;> rfl

theorem converging_next {a : Action} (ha : s.InOrder members a) (hstep : s.next a = some t)
    (h : s.Converging members leader) : t.Converging members leader := by
  obtain ⟨hmember, hfixed, hpublished, hreads⟩ := ha
  have hnone : ∀ k ∈ s.published a, s.pendingWrites a.node k = [] := by
    intro k hk
    exact pendingWrites_eq_nil.mpr fun p hp hdst => hpublished k hk p hp hdst
  cases move_of_next hstep with
  | @first id timeUp sync r hlive hr =>
    change id ∈ members at hmember
    cases hr with
    | init hleads hstate hr =>
      obtain rfl := h.mesh.eq_of_leads hleads
      refine h.init hmember ?_ hr
      intro k hk
      apply hnone k
      simp only [published, hleads, hstate]
      exact (h.mesh.mem_knownClients hmember).mpr hk
    | @check table hleads hstate htime htable =>
      obtain rfl := h.mesh.eq_of_leads hleads
      refine h.check hmember htable fun k hk => hnone k ?_
      rcases hstate with hstate | hstate <;> simpa only [published, hleads, hstate, htime, htable]
    | idle _ _ _ hrecorded hlisted _ =>
      exact h.of_same_records hmember (by simp) hlisted hrecorded (by simp) (by simp)
  | @compute id r hr =>
    change id ∈ members at hmember
    exact h.compute hmember hr fun hfinishes => hnone id (by simp [published, hfinishes])
  | @receive id src pre post p r hpackets hfound herase hsrc hdst hr =>
    change id ∈ members at hmember
    obtain ⟨-, -, pre', post', hsplit, herase', htake⟩ := find?_onConnection hfound
    rw [← herase, herase']
    clear hpackets herase
    subst hsrc hdst
    have hp : p ∈ s.packets := by simp [hsplit]
    have hfirst : ∀ q ∈ pre', q.dst = p.dst → ∀ k ∈ p.entries, k ∉ q.entries := by
      intro q hq
      exact hreads p hfound q (by rwa [htake])
    cases hmsg : p.msg with
    | stackAssignment assign resent =>
      rw [hmsg] at hr
      cases hr
      refine h.of_read hsplit hfirst ?_ ?_
      · intro k hk
        rcases Computation.onAssignment_listed _ _ _ hk with hk | hk | rfl
        · apply h.written p hp k
          rwa [Packet.entries, hmsg]
        · exact h.listed p.dst hmember k hk
        · rwa [h.mesh.networkId]
      · intro k
        rw [Computation.onAssignment_recorded, Packet.write?, hmsg]
        rfl
    | assignmentFinished best =>
      rw [hmsg] at hr
      obtain ⟨c, hc, rfl⟩ := Option.map_eq_some_iff.mp hr
      obtain ⟨hrecorded, hlisted, -⟩ := Computation.onAssignmentFinished_eq_some hc
      refine h.of_read hsplit hfirst ?_ ?_
      · intro k hk
        rcases hlisted k hk with rfl | hk
        · apply h.written p hp p.src
          rw [Packet.entries, hmsg]
          exact List.mem_singleton_self _
        · exact h.listed p.dst hmember k hk
      · intro k
        rw [hrecorded, Packet.write?, hmsg]
        dsimp only
        split <;> rfl
    | terminate =>
      rw [hmsg] at hr
      cases hr
      refine h.of_read hsplit hfirst (h.listed p.dst hmember) fun k => ?_
      rw [Packet.write?, hmsg]
      rfl
    | divideWith client =>
      rw [hmsg] at hr
      cases hr
      obtain ⟨-, hclient, hne⟩ := h.requests p hp client hmsg
      have hdropped : ({ s with packets := pre' ++ post' } : System).Converging members leader := by
        rw [← commit_same ({ s with packets := pre' ++ post' } : System) p.dst]
        refine h.of_read hsplit hfirst (h.listed p.dst hmember) fun k => ?_
        rw [Packet.write?, hmsg]
        rfl
      apply hdropped.divide hmember hclient hne
      intro (hwork : s.stack p.dst ≠ [])
      have hentries : ∀ k ∈ [p.dst, client], k ∈ s.published (.receive p.dst p.src) := by
        intro k hk
        have hfound' : s.packets.find? (Packet.onConnection p.src p.dst) =
            some ⟨p.src, p.dst, .divideWith client⟩ := by rw [hfound, ← hmsg]
        simp only [published, hfound']
        rwa [if_neg hwork]
      have hdrop : ∀ k ∈ [p.dst, client],
          ({ s with packets := pre' ++ post' } : System).pendingWrites p.dst k = [] := by
        intro k hk
        have hnot := pendingWrites_eq_nil.mp (hnone k (hentries k hk))
        refine pendingWrites_eq_nil.mpr fun q hq => hnot q ?_
        rw [hsplit, List.mem_append, List.mem_cons]
        exact (List.mem_append.mp hq).imp_right .inr
      exact ⟨hdrop p.dst (by simp), hdrop client (by simp)⟩
  | @endRead id =>
    exact h.of_same_records hmember (by simp) (fun _ hk => hk) (fun _ => rfl) (by simp) (by simp)
  | connect => exact hfixed.elim
  | crash => exact hfixed.elim
  | discard => exact hfixed.elim

end Facts

section Runs

variable {members : Finset NetworkId} {leader : NetworkId} {s : System}

theorem converging_of_start {matrix : Matrix} (h : Start members leader matrix s) :
    s.Converging members leader where
  mesh := ⟨h.linked, h.clients⟩
  listed x _ k hk := by
    rw [h.comp] at hk
    cases hk
  written p hp := by
    rw [h.packets] at hp
    cases hp
  requests p hp := by
    rw [h.packets] at hp
    cases hp
  agree k := by
    intro x _ y _
    simp only [pendingWrites, h.packets, recorded, h.comp, List.filterMap_nil]

theorem tables_converge {matrix : Matrix} {start : System}
    (hstart : Start members leader matrix start) (hrun : Run next (InOrder members) start s)
    (hquiet : ∀ p ∈ s.packets, p.msg.writesTable = false) {x y : NetworkId} (hx : x ∈ members)
    (hy : y ∈ members) (k : NetworkId) : s.recorded x k = s.recorded y k := by
  have hinv : s.Converging members leader := hrun.invariant (converging_of_start hstart)
    fun t a u h ha hstep => converging_next ha hstep h
  refine (hinv.agree k).current_eq ?_ hx hy
  intro z
  refine pendingWrites_eq_nil.mpr fun p hp _ => ?_
  rw [Packet.entries_eq_nil (hquiet p hp)]
  exact List.not_mem_nil

/-- "A" has read the leader's deal and that the leader is done with its own share. -/
def dealtRun : List Action :=
  [.first idB false false, .compute idB, .first idA false false, .compute idA,
    .receive idA idB, .receive idA idB]

theorem tables_of_two_nodes_converge :
    ∃ s, Run next (InOrder [idA, idB].toFinset) (.initial [idA, idB] idB fourClique) s ∧
      s.recorded idB idA = [[0], [1, 3, 2]] ∧ s.recorded idB idB = [] ∧
      ∀ k, s.recorded idA k = s.recorded idB k := by
  have hstart : Start [idA, idB].toFinset idB fourClique _ :=
    start_initial (by decide) (by decide) fourClique
  obtain ⟨s, hs⟩ : ∃ s, runWhile next (InOrder [idA, idB].toFinset)
      (.initial [idA, idB] idB fourClique) dealtRun = some s :=
    Option.isSome_iff_exists.mp (by decide +kernel)
  have hchecked : ∀ t ∈ runWhile next (InOrder [idA, idB].toFinset)
      (.initial [idA, idB] idB fourClique) dealtRun,
      (∀ p ∈ t.packets, p.msg.writesTable = false) ∧
        t.recorded idB idA = [[0], [1, 3, 2]] ∧ t.recorded idB idB = [] := by
    decide +kernel
  obtain ⟨hquiet, hshare, hown⟩ := hchecked s hs
  exact ⟨s, .of_runWhile hs, hshare, hown,
    tables_converge hstart (.of_runWhile hs) hquiet (by simp) (by simp)⟩

/-- "B" divides with "A", and "C" hears that "A" is done before it hears of the division. -/
def overtakenRun : List Action :=
  [.first idC false false, .compute idC,
    .first idA false false, .compute idA, .receive idA idC, .receive idA idC, .endRead idA,
    .first idA false false, .compute idA,
    .first idB false false, .compute idB, .receive idB idC, .receive idB idC,
    .receive idB idA,
    .receive idC idA, .endRead idC, .first idC true false, .compute idC,
    .receive idB idC, .receive idA idB, .endRead idA, .first idA false false, .compute idA,
    .receive idC idA, .receive idC idB, .receive idB idA]

theorem overtaken_division_diverges :
    ¬ ∀ (matrix : Matrix) (members : Finset NetworkId) (leader : NetworkId) (start s : System),
      Start members leader matrix start → Run next (fun _ a => a.Fixed) start s →
      (∀ x ∈ members, (s.comp x).currAssignment.isSome) →
      (∀ p ∈ s.packets, p.msg.writesTable = false) →
      ∀ x ∈ members, ∀ y ∈ members, ∀ k, s.recorded x k = s.recorded y k := by
  intro h
  have hstart : Start [idA, idB, idC].toFinset idC fourClique _ :=
    start_initial (by decide) (by decide) fourClique
  obtain ⟨s, hs⟩ : ∃ s, runActions next (.initial [idA, idB, idC] idC fourClique)
      overtakenRun = some s := Option.isSome_iff_exists.mp (by decide +kernel)
  have hchecked : ∀ t ∈ runActions next (.initial [idA, idB, idC] idC fourClique)
      overtakenRun, (∀ x ∈ [idA, idB, idC], (t.comp x).currAssignment.isSome = true) ∧
        (∀ p ∈ t.packets, p.msg.writesTable = false) ∧
        t.recorded idC idA = [[1, 3, 4]] ∧ t.recorded idB idA = [] := by
    decide +kernel
  obtain ⟨htables, hquiet, hleader, hother⟩ := hchecked s hs
  have hsame := h fourClique _ idC _ s hstart
    (.of_runActions hs (by simp [overtakenRun, Action.Fixed]))
    (fun x hx => htables x (by simpa using hx))
    hquiet idC (by simp) idB (by simp) idA
  rw [hleader, hother] at hsame
  cases hsame

end Runs

end System

end ParLib.Job
