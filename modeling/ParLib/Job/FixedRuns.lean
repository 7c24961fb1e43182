import ParLib.Job.Replication
import ParLib.Job.NodeRuns

/-!
# Runs of fixed members

What holds of every run in which nobody joins and nobody fails, however late the
messages are read: only members work, the leader's table lists exactly the members,
the leader records a job of its own only while it computes, and the first thing that a
member reads is its first assignment.
-/

namespace ParLib.Job

set_option autoImplicit false

open Foundations ParallelStack

namespace Computation

variable {c : Computation} {net : Net} {assign : StackAssignment} {k : NetworkId}

theorem listed_onAssignment (h : k ∈ assign.getClients ∨ c.Listed k) :
    (c.onAssignment net assign).Listed k := by
  rw [Listed, onAssignment_currAssignment, Option.getD_some]
  cases htable : c.currAssignment with
  | some table =>
    rw [Listed, htable] at h
    exact StackAssignment.mem_getClients_update.mpr h
  | none =>
    have hassign : k ∈ assign.getClients := by
      refine h.resolve_right fun hlisted => ?_
      rw [Listed, htable] at hlisted
      cases hlisted
    change k ∈ (c.readAssignment net assign).getClients
    rw [readAssignment]
    split
    · rw [StackAssignment.touch]
      split
      · exact StackAssignment.mem_getClients_setAssignment.mpr (.inr hassign)
      · exact hassign
    · exact hassign

theorem listed_onDivideWith (id : NetworkId) (h : c.Listed k) :
    (c.onDivideWith net id).1.Listed k := by
  cases eq_or_ne c.stack [] with
  | inl hnil => rwa [onDivideWith_of_nil net id hnil]
  | inr hwork =>
    rw [onDivideWith_of_ne_nil net id hwork]
    exact listed_onAssignment (.inr h)

theorem listed_onAssignmentFinished {c' : Computation} {best : Int32} {clientId : NetworkId}
    (h : c.onAssignmentFinished best clientId = some c') (hk : c.Listed k) : c'.Listed k := by
  rw [onAssignmentFinished] at h
  split at h
  · cases h
  · rename_i table htable
    cases h
    rw [Listed, htable] at hk
    exact StackAssignment.mem_getClients_setAssignment.mpr (.inr hk)

theorem listed_computeStep {r : Computation × List Send} (h : c.computeStep net = some r)
    (hk : c.Listed k) : r.1.Listed k := by
  rw [computeStep] at h
  split at h
  · cases h
  · rename_i done mc hcompute
    dsimp only at h
    split at h
    · obtain ⟨c', hc', rfl⟩ := Option.map_eq_some_iff.mp h
      have hkept : c'.Listed k := listed_onAssignmentFinished hc' hk
      exact hkept
    · cases h
      exact hk

/-- A check unlists only clients that are not known. -/
theorem listed_checkTable {table : StackAssignment} (htable : c.currAssignment = some table)
    (sync : Bool) (hk : c.Listed k) (hknown : k ∈ net.knownClients) :
    (c.checkTable net table sync).1.Listed k := by
  refine checkTable_fst_induction (P := fun c => c.Listed k) sync ?_ ?_ ?_
  · rw [Listed, htable] at hk
    change k ∈ (ClientSets.settledTable net table).getClients
    rw [StackAssignment.mem_getClients, ClientSets.settledTable,
      StackAssignment.find?_foldl_remove,
      if_neg fun hcleared => (ClientSets.mem_cleared.mp hcleared).2.1 hknown]
    exact StackAssignment.mem_getClients.mp hk
  · intro hchecked
    exact giveDisconnectedJobs_fst_induction (P := fun c => c.Listed k) hchecked
      fun assign => listed_onAssignment (.inr hchecked)
  · exact fun c id hc => listed_onDivideWith id hc

theorem listed_leaderStep {timeUp sync : Bool} {r : Computation × List Send}
    (hstarted : c.state ≠ .initial) (h : c.leaderStep net timeUp sync = some r)
    (hk : c.Listed k) (hknown : k ∈ net.knownClients) : r.1.Listed k := by
  have hcheck : c.checkAssignments net timeUp sync = some r → r.1.Listed k := by
    intro h
    rw [checkAssignments] at h
    split at h
    · split at h
      · cases h
      · rename_i table htable
        cases h
        exact listed_checkTable htable sync hk hknown
    · cases h
      exact hk
  rw [leaderStep] at h
  cases hstate : c.state with
  | initial => exact absurd hstate hstarted
  | computing | waiting =>
    rw [hstate] at h
    exact hcheck h
  | terminating | finished =>
    rw [hstate] at h
    cases h
    exact hk

/-- What every step of a run of fixed members keeps of the node `x`. -/
structure Fit (members : Finset NetworkId) (leader x : NetworkId) (c : Computation) : Prop where
  works : c.WorksOnStack
  employed : c.state = .computing → x ∈ members ∧ c.currAssignment.isSome = true
  own : x = leader → c.recorded leader ≠ [] → c.state = .computing
  listed : ∀ k, c.Listed k → k ∈ members
  unhalted : c.state ≠ .terminating

variable {members : Finset NetworkId} {leader x : NetworkId}

theorem fit_new (members : Finset NetworkId) (leader x : NetworkId) (matrix : Matrix) :
    (new matrix).Fit members leader x where
  works hwork := absurd rfl hwork
  employed := by simp [new]
  own := by
    rintro - hrecorded
    exact absurd rfl hrecorded
  listed k hk := by cases hk
  unhalted := State.noConfusion

theorem fit_onAssignment (hown : x = leader → c.recorded leader ≠ [] → c.state = .computing)
    (hlisted : ∀ k, c.Listed k → k ∈ members) (hid : net.networkId = x) (hx : x ∈ members)
    (hassign : ∀ k ∈ assign.getClients, k ∈ members) :
    (c.onAssignment net assign).Fit members leader x where
  works := c.onAssignment_worksOnStack net assign
  employed _ := ⟨hx, onAssignment_isSome c net assign⟩
  own := by
    rintro rfl hrecorded
    by_cases hstate : c.state = .computing
    · exact (c.onAssignment_of_computing net assign hstate).2
    · rw [(c.onAssignment_of_not_computing net assign hstate).2, if_neg]
      have hnone : c.recorded x = [] := not_not.mp fun hne => hstate (hown rfl hne)
      rwa [onAssignment_recorded, hnone, ← StackAssignment.getAssignment, ← hid] at hrecorded
  listed k hk := by
    rcases onAssignment_listed _ _ _ hk with hk | hk | rfl
    · exact hassign k hk
    · exact hlisted k hk
    · rwa [hid]
  unhalted := by
    by_cases hstate : c.state = .computing
    · rw [(c.onAssignment_of_computing net assign hstate).2]
      exact State.noConfusion
    · rw [(c.onAssignment_of_not_computing net assign hstate).2]
      split <;> exact State.noConfusion

theorem within_dividedAssignment (hid : net.networkId ∈ members) {client : NetworkId}
    (hclient : client ∈ members) (data : List Path) :
    ∀ k ∈ (dividedAssignment net client data).getClients, k ∈ members := by
  intro k hk
  rw [StackAssignment.mem_getClients, find?_dividedAssignment] at hk
  split at hk
  · rename_i heq
    rwa [heq]
  · split at hk
    · rename_i heq
      rwa [heq]
    · cases hk

theorem Fit.onDivideWith (h : c.Fit members leader x) (hid : net.networkId = x)
    {client : NetworkId} (hx : x ∈ members) (hclient : client ∈ members) :
    (c.onDivideWith net client).1.Fit members leader x := by
  cases eq_or_ne c.stack [] with
  | inl hnil => rwa [onDivideWith_of_nil net client hnil]
  | inr hwork =>
    rw [onDivideWith_of_ne_nil net client hwork]
    have hkept : { c with maximumCut := c.maximumCut.assignData (newDataB c.stack) }.Fit members
        leader x := ⟨fun _ => h.works hwork, h.employed, h.own, h.listed, h.unhalted⟩
    apply fit_onAssignment hkept.own hkept.listed hid hx
    exact within_dividedAssignment (by rwa [hid]) hclient c.stack

theorem Fit.onAssignmentFinished (h : c.Fit members leader x) {c' : Computation} {best : Int32}
    {clientId : NetworkId} (hclient : clientId ∈ members)
    (hc' : c.onAssignmentFinished best clientId = some c') : c'.Fit members leader x := by
  obtain ⟨hrecorded, hlisted, hcut, hstate, -⟩ := onAssignmentFinished_eq_some hc'
  refine ⟨?_, ?_, ?_, ?_, hstate ▸ h.unhalted⟩
  · intro hwork
    rw [stack, hcut] at hwork
    rw [hstate]
    exact h.works hwork
  · rw [hstate]
    exact fun hcomputing => ⟨(h.employed hcomputing).1, onAssignmentFinished_isSome hc'⟩
  · rintro hleader hne
    rw [hrecorded] at hne
    rw [hstate]
    split at hne
    · exact absurd rfl hne
    · exact h.own hleader hne
  · intro k hk
    cases hlisted k hk with
    | inl heq => rwa [heq]
    | inr hk => exact h.listed k hk

theorem Fit.computeStep (h : c.Fit members leader x) (hid : net.networkId = x)
    {r : Computation × List Send} (hr : c.computeStep net = some r) :
    r.1.Fit members leader x := by
  have hworks := h.works.computeStep hr
  obtain ⟨mc, ps, -, hcase⟩ := computeStep_eq_some hr
  rcases hcase with rfl | ⟨hcomputing, -, -, -, hwaiting, -, -, hrecorded, hlisted⟩
  · exact ⟨hworks, h.employed, h.own, h.listed, h.unhalted⟩
  · obtain ⟨hx, htable⟩ := h.employed hcomputing
    refine ⟨hworks, ?_, ?_, ?_, by simp [hwaiting]⟩
    · rw [hwaiting]
      exact State.noConfusion
    · rintro rfl hne
      rw [hrecorded, if_pos hid.symm] at hne
      exact absurd rfl hne
    · intro k hk
      rcases hlisted k hk with rfl | hk
      · rwa [hid]
      · exact h.listed k hk

theorem Fit.checked (h : c.Fit members leader x) (hx : x ∈ members) {table : StackAssignment}
    (htable : c.currAssignment = some table) : (c.checked net table).Fit members leader x where
  works := h.works.checked net table
  employed _ := ⟨hx, rfl⟩
  own := by
    intro hleader hne
    rw [checked_recorded htable] at hne
    rcases c.checked_state net table with hstate | ⟨-, hjobs⟩
    · rw [hstate]
      exact h.own hleader hne
    · rw [recorded, htable, Option.getD_some, ClientSets.getAssignment_of_noJobsLeft hjobs] at hne
      exact absurd rfl hne
  listed k hk := h.listed k (checked_listed htable hk)
  unhalted := by
    rcases c.checked_state net table with hstate | ⟨hfinished, -⟩
    · rw [hstate]
      exact h.unhalted
    · simp [hfinished]

theorem Fit.checkTable (h : c.Fit members leader x) (hid : net.networkId = x) (hx : x ∈ members)
    (hknown : ∀ k, k ∈ net.knownClients ↔ k ∈ members) {table : StackAssignment}
    (htable : c.currAssignment = some table) (sync : Bool) :
    (c.checkTable net table sync).1.Fit members leader x := by
  have hchecked : (c.checked net table).Fit members leader x := h.checked hx htable
  have hconnected : ∀ k, table.getAssignment k ≠ [] → k ∈ net.knownClients := by
    intro k hk
    apply (hknown k).mpr
    apply h.listed k
    apply listed_of_recorded
    rwa [recorded, htable]
  obtain ⟨before, own, after, -, -, -, ⟨heq, -⟩ | ⟨id, hid', -, -, heq⟩⟩ :=
    checkTable_of_connected (c := c) hconnected sync
  · rwa [heq]
  · rw [congrArg Prod.fst heq]
    exact hchecked.onDivideWith hid hx ((hknown id).mp hid')

theorem Fit.idle (h : c.Fit members leader x) {c' : Computation}
    (hcut : c'.maximumCut = c.maximumCut)
    (hsome : c'.currAssignment.isSome = c.currAssignment.isSome)
    (hrecorded : ∀ k, c'.recorded k = c.recorded k) (hlisted : ∀ k, c'.Listed k → c.Listed k)
    (hstate : c'.state = c.state ∨ x ≠ leader ∧ c.state = .initial ∧ c'.state = .waiting) :
    c'.Fit members leader x := by
  refine ⟨?_, ?_, ?_, ?_, ?_⟩
  · intro hwork
    rw [stack, hcut] at hwork
    rcases hstate with hsame | ⟨-, hinitial, -⟩
    · rw [hsame]
      exact h.works hwork
    · rcases h.works hwork with hrunning | hrunning <;> simp [hinitial] at hrunning
  · intro hcomputing
    rw [hsome]
    rcases hstate with hsame | ⟨-, -, hwaiting⟩
    · exact h.employed (hsame.symm.trans hcomputing)
    · simp [hwaiting] at hcomputing
  · intro hleader hne
    rw [hrecorded] at hne
    rcases hstate with hsame | ⟨hother, -⟩
    · rw [hsame]
      exact h.own hleader hne
    · exact absurd hleader hother
  · exact fun k hk => h.listed k (hlisted k hk)
  · rcases hstate with hsame | ⟨-, -, hwaiting⟩
    · rw [hsame]
      exact h.unhalted
    · simp [hwaiting]

end Computation

/-- The message names members only. -/
def Message.Within (members : Finset NetworkId) : Message → Prop
  | .stackAssignment assign _ => ∀ k ∈ assign.getClients, k ∈ members
  | .divideWith id => id ∈ members
  | .assignmentFinished _ | .terminate => True

namespace System

variable {members : Finset NetworkId} {leader x : NetworkId} {s t : System}

def IsAssignment (p : Packet) : Prop := ∃ assign resent, p.msg = .stackAssignment assign resent

/-- The first message to the node that is still to be read. -/
def firstTo (packets : List Packet) (x : NetworkId) : Option Packet :=
  packets.find? fun p => p.dst = x

theorem firstTo_append {packets : List Packet} {p : Packet} (h : firstTo packets x = some p)
    (later : List Packet) : firstTo (packets ++ later) x = some p := by
  rw [firstTo, List.find?_append, ← firstTo, h]
  rfl

theorem firstTo_of_read {pre post : List Packet} {p q : Packet}
    (h : firstTo (pre ++ p :: post) x = some q) : firstTo (pre ++ post) x = some q ∨ q = p := by
  rw [firstTo, List.find?_append, List.find?_cons] at h
  rw [firstTo, List.find?_append]
  cases hpre : pre.find? fun p => p.dst = x with
  | some first =>
    rw [hpre] at h
    exact .inl h
  | none =>
    rw [hpre, Option.none_or] at h
    split at h
    · exact .inr (Option.some.inj h).symm
    · exact .inl h

/-- What the members and the packets amount to. -/
def total (members : Finset NetworkId) (node : Computation → Nat) (packet : Packet → Nat)
    (s : System) : Nat :=
  ∑ x ∈ members, node (s.comp x) + (s.packets.map packet).sum

theorem total_commit (s : System) (hx : x ∈ members) (node : Computation → Nat)
    (packet : Packet → Nat) (rest : List Packet) (phase : Phase) (c : Computation)
    (sent : List Send) :
    (({ s with packets := rest } : System).commit x phase (c, sent)).total members node packet +
        node (s.comp x) =
      ∑ y ∈ members, node (s.comp y) + node c +
        ((rest.map packet).sum + (sent.map fun q => packet ⟨x, q.destId, q.msg⟩).sum) := by
  generalize ht : ({ s with packets := rest } : System).commit x phase (c, sent) = t
  have hself : t.comp x = c := by rw [← ht, commit_comp_self]
  have hothers : ∀ y ∈ members.erase x, node (t.comp y) = node (s.comp y) := by
    intro y hy
    rw [← ht, commit_comp_of_ne _ _ _ (Finset.ne_of_mem_erase hy)]
  have hnodes : ∑ y ∈ members, node (t.comp y) + node (s.comp x) =
      ∑ y ∈ members, node (s.comp y) + node c := by
    rw [← Finset.add_sum_erase _ _ hx, ← Finset.add_sum_erase _ _ hx, hself,
      Finset.sum_congr rfl hothers]
    omega
  have hpackets : (t.packets.map packet).sum =
      (rest.map packet).sum + (sent.map fun q => packet ⟨x, q.destId, q.msg⟩).sum := by
    rw [← ht, commit_packets, List.map_append, List.sum_append, List.map_map]
    rfl
  rw [total, hpackets]
  omega

theorem total_send (s : System) (hx : x ∈ members) (node : Computation → Nat)
    (packet : Packet → Nat) (phase : Phase) (c : Computation) (sent : List Send) :
    (s.commit x phase (c, sent)).total members node packet + node (s.comp x) =
      s.total members node packet + node c +
        (sent.map fun q => packet ⟨x, q.destId, q.msg⟩).sum := by
  have hcommit : (s.commit x phase (c, sent)).total members node packet + node (s.comp x) = _ :=
    total_commit s hx node packet s.packets phase c sent
  rw [hcommit, total]
  omega

/-- What every step of a run of fixed members keeps. -/
structure Regular (members : Finset NetworkId) (leader : NetworkId) (s : System) : Prop where
  leader_mem : leader ∈ members
  mesh : s.Mesh members leader
  running : ∀ x, s.crashed x = false
  fit : ∀ x, (s.comp x).Fit members leader x
  fresh : (s.comp leader).state = .initial → s.packets = [] ∧ ∀ x, ¬ s.Computing x
  complete : (s.comp leader).state ≠ .initial → ∀ k ∈ members, (s.comp leader).Listed k
  dealt : (s.comp leader).state ≠ .initial → ∀ x ∈ members,
    (s.comp x).currAssignment.isSome = true ∨ ∃ p, firstTo s.packets x = some p ∧ IsAssignment p
  route : ∀ p ∈ s.packets, p.dst ∈ (s.net p.src).clients
  within : ∀ p ∈ s.packets, p.msg.Within members
  requests : ∀ p ∈ s.packets, ∀ id, p.msg = .divideWith id → id ≠ p.dst
  ends : ∀ p ∈ s.packets, p.msg = .terminate → p.src = leader

theorem Regular.mem_of_packet (h : s.Regular members leader) {p : Packet} (hp : p ∈ s.packets) :
    p.src ∈ members ∧ p.dst ∈ members ∧ p.dst ≠ p.src :=
  (h.mesh.clients p.src p.dst).mp (h.route p hp)

/-- Whoever the leader's table records a job for is connected. -/
theorem Regular.connected (h : s.Regular members leader) {table : StackAssignment} {k : NetworkId}
    (htable : (s.comp leader).currAssignment = some table) (hk : table.getAssignment k ≠ []) :
    k ∈ (s.net leader).knownClients := by
  apply (h.mesh.mem_knownClients h.leader_mem).mpr
  apply (h.fit leader).listed k
  apply Computation.listed_of_recorded
  rwa [Computation.recorded, htable]

theorem Regular.length_clients (h : s.Regular members leader) (hx : x ∈ members) :
    (s.net x).clients.length + 1 ≤ members.card := by
  have hsub : (s.net x).clients.toFinset ⊆ members.erase x := by
    intro y hy
    obtain ⟨-, hmember, hne⟩ := (h.mesh.clients x y).mp (List.mem_toFinset.mp hy)
    exact Finset.mem_erase.mpr ⟨hne, hmember⟩
  have hcard := Finset.card_le_card hsub
  rw [List.toFinset_card_of_nodup (h.mesh.nodup x), Finset.card_erase_of_mem hx] at hcard
  have hpos : 0 < members.card := Finset.card_pos.mpr ⟨x, hx⟩
  omega

theorem regular_of_start {matrix : Matrix} (h : Start members leader matrix s) :
    s.Regular members leader where
  leader_mem := h.leader_mem
  mesh := ⟨h.linked, h.clients⟩
  running := h.crashed
  fit x := by
    rw [h.comp]
    exact Computation.fit_new members leader x matrix
  fresh _ := ⟨h.packets, fun x hx => by
    rw [Computing, h.comp] at hx
    cases hx⟩
  complete hstarted := by
    rw [h.comp] at hstarted
    exact absurd rfl hstarted
  dealt hstarted := by
    rw [h.comp] at hstarted
    exact absurd rfl hstarted
  route := by simp [h.packets]
  within := by simp [h.packets]
  requests := by simp [h.packets]
  ends := by simp [h.packets]

section Steps

variable {phase : Phase} {rest : List Packet} {r : Computation × List Send}

/-- What a step has to show that changes one node, reads and sends, other than the first
step of the leader. -/
theorem Regular.of_commit (h : s.Regular members leader) (hsub : ∀ p ∈ rest, p ∈ s.packets)
    (hfirst : ∀ y p, firstTo s.packets y = some p → firstTo rest y = some p ∨
      y = x ∧ (IsAssignment p → r.1.currAssignment.isSome = true))
    (hfit : r.1.Fit members leader x)
    (hsome : (s.comp x).currAssignment.isSome = true → r.1.currAssignment.isSome = true)
    (hlisted : (s.comp leader).state ≠ .initial → x = leader →
      ∀ k ∈ members, (s.comp x).Listed k → r.1.Listed k)
    (hinitial : r.1.state = .initial → (s.comp x).state = .initial)
    (hbefore : (s.comp leader).state = .initial →
      r.2 = [] ∧ r.1.state ≠ .computing ∧ (x = leader → r.1.state = .initial))
    (hroute : ∀ q ∈ r.2, q.destId ∈ (s.net x).clients) (hwithin : ∀ q ∈ r.2, q.msg.Within members)
    (hrequests : ∀ q ∈ r.2, ∀ id, q.msg = .divideWith id → id ≠ q.destId)
    (hends : ∀ q ∈ r.2, q.msg = .terminate → x = leader) :
    ({ s with packets := rest }.commit x phase r).Regular members leader := by
  generalize ht : ({ s with packets := rest } : System).commit x phase r = t
  have hself : t.comp x = r.1 := by rw [← ht, commit_comp_self]
  have hother : ∀ y, y ≠ x → t.comp y = s.comp y := by
    intro y hy
    rw [← ht, commit_comp_of_ne _ _ _ hy]
  have hnet : t.net = s.net := by rw [← ht, commit_net]
  have hpackets : t.packets = rest ++ r.2.map fun q => ⟨x, q.destId, q.msg⟩ := by
    rw [← ht, commit_packets]
  have hmem : ∀ p ∈ t.packets, p ∈ s.packets ∨ ∃ q ∈ r.2, p = ⟨x, q.destId, q.msg⟩ := by
    intro p hp
    rw [← ht] at hp
    exact (mem_commit_packets.mp hp).imp_left (hsub p)
  have hstate : (t.comp leader).state = .initial ↔ (s.comp leader).state = .initial := by
    rcases eq_or_ne leader x with rfl | hne
    · rw [hself]
      exact ⟨hinitial, fun hi => (hbefore hi).2.2 rfl⟩
    · rw [hother leader hne]
  refine ⟨h.leader_mem, h.mesh.of_net hnet, ?_, ?_, ?_, ?_, ?_, ?_, ?_, ?_, ?_⟩
  · rw [← ht]
    exact h.running
  · intro y
    rcases eq_or_ne y x with rfl | hne
    · rwa [hself]
    · rw [hother y hne]
      exact h.fit y
  · intro hi
    obtain ⟨hempty, hnobody⟩ := h.fresh (hstate.mp hi)
    obtain ⟨hquiet, hidle, -⟩ := hbefore (hstate.mp hi)
    have hrest : rest = [] := by
      apply List.eq_nil_iff_forall_not_mem.mpr
      intro p hp
      have hp := hsub p hp
      rw [hempty] at hp
      cases hp
    constructor
    · rw [hpackets, hquiet, hrest]
      rfl
    · intro y
      rcases eq_or_ne y x with rfl | hne
      · rwa [Computing, hself]
      · rw [Computing, hother y hne]
        exact hnobody y
  · intro hstarted k hk
    have hstarted := hstate.not.mp hstarted
    have hlist := h.complete hstarted k hk
    rcases eq_or_ne leader x with rfl | hne
    · rw [hself]
      exact hlisted hstarted rfl k hk hlist
    · rwa [hother leader hne]
  · intro hstarted y hy
    rcases h.dealt (hstate.not.mp hstarted) y hy with htable | ⟨p, hp, hassign⟩
    · left
      rcases eq_or_ne y x with rfl | hne
      · rw [hself]
        exact hsome htable
      · rwa [hother y hne]
    · rcases hfirst y p hp with hp | ⟨rfl, htable⟩
      · right
        rw [hpackets]
        exact ⟨p, firstTo_append hp _, hassign⟩
      · left
        rw [hself]
        exact htable hassign
  · intro p hp
    rw [hnet]
    rcases hmem p hp with hp | ⟨q, hq, rfl⟩
    · exact h.route p hp
    · exact hroute q hq
  · intro p hp
    rcases hmem p hp with hp | ⟨q, hq, rfl⟩
    · exact h.within p hp
    · exact hwithin q hq
  · intro p hp id hid
    rcases hmem p hp with hp | ⟨q, hq, rfl⟩
    · exact h.requests p hp id hid
    · exact hrequests q hq id hid
  · intro p hp hend
    rcases hmem p hp with hp | ⟨q, hq, rfl⟩
    · exact h.ends p hp hend
    · exact hends q hq hend

/-- The leader's first step lists every member and sends everyone else his share. -/
theorem Regular.init (h : s.Regular members leader)
    (hstate : (s.comp leader).state = .initial)
    (hr : { s.comp leader with state := .waiting }.initLeaderStep (s.net leader) = some r) :
    (s.commit leader phase r).Regular members leader := by
  have hleader := h.leader_mem
  obtain ⟨hempty, hnobody⟩ := h.fresh hstate
  obtain ⟨mc, ps, pars, assign, -, -, hlen, hfind, rfl⟩ := h.mesh.dealt hr
  have hid := h.mesh.networkId leader
  have hclients : ∀ k, k ∈ assign.getClients ↔ k ∈ members := by
    intro k
    rw [← h.mesh.mem_knownClients hleader, StackAssignment.mem_getClients,
      Option.isSome_iff_exists]
    simp only [hfind]
    constructor
    · rintro ⟨states, hk⟩
      exact (List.of_mem_zip hk).1
    · intro hk
      rw [← List.map_fst_zip hlen.le, List.mem_map] at hk
      obtain ⟨⟨_, par⟩, hpar, rfl⟩ := hk
      exact ⟨par.data, hpar⟩
  generalize hc₀ : ({ s.comp leader with state := .waiting, maximumCut := mc } : Computation) = c₀
  generalize ht : s.commit leader phase (c₀.onAssignment (s.net leader) assign,
    (s.net leader).broadcastMsg (.stackAssignment assign false)) = t
  have hself : t.comp leader = c₀.onAssignment (s.net leader) assign := by
    rw [← ht, commit_comp_self]
  have hother : ∀ y, y ≠ leader → t.comp y = s.comp y := by
    intro y hy
    rw [← ht, commit_comp_of_ne _ _ _ hy]
  have hnet : t.net = s.net := by rw [← ht, commit_net]
  have hpackets : t.packets = (s.net leader).clients.map fun client =>
      ⟨leader, client, .stackAssignment assign false⟩ := by
    rw [← ht, commit_packets, hempty, List.nil_append, Net.broadcastMsg, List.map_map]
    rfl
  have hsent : ∀ p ∈ t.packets, p.src = leader ∧ p.dst ∈ (s.net leader).clients ∧
      p.msg = .stackAssignment assign false := by
    intro p hp
    rw [hpackets, List.mem_map] at hp
    obtain ⟨client, hclient, rfl⟩ := hp
    exact ⟨rfl, hclient, rfl⟩
  have hstarted : (t.comp leader).state ≠ .initial := by
    rw [hself]
    exact c₀.onAssignment_started (s.net leader) assign
  refine ⟨h.leader_mem, h.mesh.of_net hnet, ?_, ?_, fun hi => absurd hi hstarted, ?_, ?_, ?_, ?_,
    ?_, ?_⟩
  · rw [← ht]
    exact h.running
  · intro y
    rcases eq_or_ne y leader with rfl | hne
    · rw [hself]
      apply Computation.fit_onAssignment _ _ hid hleader fun k hk => (hclients k).mp hk
      · rw [← hc₀]
        intro _ hne
        exact absurd ((h.fit y).own rfl hne) (hnobody y)
      · rw [← hc₀]
        exact (h.fit y).listed
    · rw [hother y hne]
      exact h.fit y
  · intro _ k hk
    rw [hself]
    exact Computation.listed_onAssignment (.inl ((hclients k).mpr hk))
  · intro _ y hy
    rcases eq_or_ne y leader with rfl | hne
    · left
      rw [hself]
      exact Computation.onAssignment_isSome _ _ _
    · right
      have hclient : y ∈ (s.net leader).clients := (h.mesh.clients leader y).mpr ⟨hleader, hy, hne⟩
      cases hfirst : firstTo t.packets y with
      | some p =>
        exact ⟨p, rfl, assign, false, (hsent p (List.mem_of_find?_eq_some hfirst)).2.2⟩
      | none =>
        have hnone := List.find?_eq_none.mp hfirst ⟨leader, y, .stackAssignment assign false⟩ (by
          rw [hpackets]
          exact List.mem_map_of_mem hclient)
        simp at hnone
  · intro p hp
    obtain ⟨hsrc, hdst, -⟩ := hsent p hp
    rw [hsrc, hnet]
    exact hdst
  · intro p hp
    rw [(hsent p hp).2.2]
    exact fun k hk => (hclients k).mp hk
  · intro p hp id hid
    rw [(hsent p hp).2.2] at hid
    cases hid
  · intro p hp hend
    rw [(hsent p hp).2.2] at hend
    cases hend

theorem Regular.check (h : s.Regular members leader)
    {table : StackAssignment} (htable : (s.comp leader).currAssignment = some table)
    (hstarted : (s.comp leader).state ≠ .initial) (sync : Bool) :
    (s.commit leader phase ((s.comp leader).checkTable (s.net leader) table sync)).Regular members
      leader := by
  have hleader := h.leader_mem
  have hid := h.mesh.networkId leader
  have hknown : ∀ k, k ∈ (s.net leader).knownClients ↔ k ∈ members :=
    fun k => h.mesh.mem_knownClients hleader
  have hlist : ∀ k, (s.comp leader).Listed k ↔ k ∈ table.getClients := by
    intro k
    rw [Computation.Listed, htable]
    rfl
  have hconnected : ∀ k, table.getAssignment k ≠ [] → k ∈ (s.net leader).knownClients :=
    fun k => h.connected htable
  have hwithin : ∀ q ∈ ((s.comp leader).checkTable (s.net leader) table sync).2,
      q.msg.Within members := by
    intro q hq
    obtain ⟨before, own, after, hsent, hbefore, hafter, hown⟩ :=
      Computation.checkTable_of_connected (c := s.comp leader) hconnected sync
    rw [hsent] at hq
    have hrequest : ∀ q, Computation.Request (s.net leader) q → q.msg.Within members := by
      rintro q ⟨-, id, hmsg, hid', -⟩
      rw [hmsg]
      exact (hknown id).mp hid'
    rcases List.mem_append.mp hq with hq | hq
    · rcases List.mem_append.mp hq with hq | hq
      · rcases hbefore q hq with ⟨-, ⟨repeated, hmsg, hsame, -⟩ | ⟨hmsg, -⟩⟩ | hreq
        · rw [hmsg]
          intro k hk
          obtain ⟨v, hv⟩ := Option.isSome_iff_exists.mp (StackAssignment.mem_getClients.mp hk)
          apply (h.fit leader).listed k
          rw [hlist, StackAssignment.mem_getClients, hsame k v hv]
          rfl
        · rw [hmsg]
          trivial
        · exact hrequest q hreq
      · rcases hown with ⟨-, rfl⟩ | ⟨id, hid', -, -, heq⟩
        · cases hq
        · obtain rfl : own = _ := congrArg Prod.snd heq
          rw [(Computation.onDivideWith_sent hq).2]
          exact Computation.within_dividedAssignment (by rwa [hid]) ((hknown id).mp hid') _
    · exact hrequest q (hafter q hq)
  refine h.of_commit (fun p hp => hp) (fun y p hp => .inl hp) ?_ ?_ ?_ ?_ ?_ ?_ hwithin ?_ ?_
  · exact (h.fit leader).checkTable hid hleader hknown htable sync
  · exact fun _ => Computation.checkTable_isSome _ _ _ _
  · exact fun _ _ k hk hlisted =>
      Computation.listed_checkTable htable sync hlisted ((hknown k).mpr hk)
  · exact fun hi => absurd hi (Computation.checkTable_started _ _ sync hstarted)
  · exact fun hi => absurd hi hstarted
  · exact fun q hq => (Computation.checkTable_sent _ _ _ _ q hq).1
  · exact fun q hq => (Computation.checkTable_sent _ _ _ _ q hq).2
  · exact fun _ _ _ => rfl

/-- A step that sends nothing, and leaves the packets. -/
theorem Regular.of_quiet (h : s.Regular members leader) {c : Computation}
    (hfit : c.Fit members leader x)
    (hsome : (s.comp x).currAssignment.isSome = true → c.currAssignment.isSome = true)
    (hlisted : (s.comp leader).state ≠ .initial → x = leader →
      ∀ k ∈ members, (s.comp x).Listed k → c.Listed k)
    (hinitial : c.state = .initial → (s.comp x).state = .initial)
    (hbefore : (s.comp leader).state = .initial →
      c.state ≠ .computing ∧ (x = leader → c.state = .initial)) :
    (s.commit x phase (c, [])).Regular members leader :=
  h.of_commit (fun p hp => hp) (fun y p hp => .inl hp) hfit hsome hlisted hinitial
    (fun hi => ⟨rfl, hbefore hi⟩) (by simp) (by simp) (by simp) (by simp)

/-- A first step other than those in which the leader deals or checks. -/
theorem Regular.idle (h : s.Regular members leader) {timeUp sync : Bool} {c : Computation}
    (hfirst : (s.comp x).firstStep (s.net x) timeUp sync = some (c, []))
    (hdealt : x = leader → (s.comp x).state ≠ .initial)
    (hcut : c.maximumCut = (s.comp x).maximumCut)
    (hrecorded : ∀ k, c.recorded k = (s.comp x).recorded k)
    (hlisted : ∀ k, c.Listed k → (s.comp x).Listed k)
    (hstate : c.state = (s.comp x).state ∨
      (s.net x).leader = false ∧ (s.comp x).state = .initial ∧ c.state = .waiting) :
    (s.commit x phase (c, [])).Regular members leader := by
  have hsome : c.currAssignment.isSome = (s.comp x).currAssignment.isSome := by
    have heq := Computation.firstStep_isSome hfirst
    rw [heq, h.mesh.leads]
    rcases eq_or_ne x leader with rfl | hne
    · simp [hdealt rfl]
    · simp [hne]
  have hkept : c.state = (s.comp x).state ∨
      x ≠ leader ∧ (s.comp x).state = .initial ∧ c.state = .waiting := by
    refine hstate.imp_right fun ⟨hfollows, hrest⟩ => ⟨?_, hrest⟩
    rwa [h.mesh.leads, decide_eq_false_iff_not] at hfollows
  refine h.of_quiet ?_ ?_ ?_ ?_ ?_
  · exact (h.fit x).idle hcut hsome hrecorded hlisted hkept
  · rw [hsome]
    exact fun htable => htable
  · rintro hstarted rfl k hk hlist
    rw [Computation.firstStep, h.mesh.leads, decide_eq_true rfl, if_pos rfl] at hfirst
    exact Computation.listed_leaderStep hstarted hfirst hlist
      ((h.mesh.mem_knownClients h.leader_mem).mpr hk)
  · intro hinitial
    rcases hkept with hsame | ⟨-, -, hwaiting⟩
    · exact hsame.symm.trans hinitial
    · simp [hwaiting] at hinitial
  · intro hbefore
    constructor
    · rcases hkept with hsame | ⟨-, -, hwaiting⟩
      · rw [hsame]
        exact (h.fresh hbefore).2 x
      · simp [hwaiting]
    · rintro rfl
      exact absurd hbefore (hdealt rfl)

theorem Regular.compute (h : s.Regular members leader)
    (hr : (s.comp x).computeStep (s.net x) = some r) :
    (s.commit x phase r).Regular members leader := by
  have hfit := (h.fit x).computeStep (h.mesh.networkId x) hr
  have hlisted : (s.comp leader).state ≠ .initial → x = leader →
      ∀ k ∈ members, (s.comp x).Listed k → r.1.Listed k :=
    fun _ _ k _ hk => Computation.listed_computeStep hr hk
  obtain ⟨mc, ps, -, hcase⟩ := Computation.computeStep_eq_some hr
  have hsome := fun htable => Computation.computeStep_isSome htable hr
  rcases hcase with rfl | ⟨hcomputing, -, hsent, -, hwaiting, -⟩
  · exact h.of_quiet hfit hsome hlisted (fun hi => hi)
      fun hi => ⟨(h.fresh hi).2 x, fun heq => heq ▸ hi⟩
  · have hannounced : ∀ q ∈ r.2, q.destId ∈ (s.net x).clients ∧
        q.msg = .assignmentFinished mc.getBestMax := by
      rw [hsent]
      exact fun q hq => Net.mem_broadcastMsg.mp hq
    refine h.of_commit (fun p hp => hp) (fun y p hp => .inl hp) hfit hsome hlisted ?_ ?_ ?_ ?_ ?_ ?_
    · rw [hwaiting]
      exact State.noConfusion
    · exact fun hi => absurd hcomputing ((h.fresh hi).2 x)
    · exact fun q hq => (hannounced q hq).1
    · intro q hq
      rw [(hannounced q hq).2]
      trivial
    · intro q hq id hid
      rw [(hannounced q hq).2] at hid
      cases hid
    · intro q hq hend
      rw [(hannounced q hq).2] at hend
      cases hend

/-- Reading a message turns the one that is read first into a table. -/
theorem Regular.read (h : s.Regular members leader) {pre post : List Packet} {p : Packet}
    (hpackets : s.packets = pre ++ p :: post)
    (hr : (s.comp p.dst).onMessage (s.net p.dst) p.src p.msg = some r) :
    (({ s with packets := pre ++ post } : System).commit p.dst phase r).Regular members leader := by
  have hp := mem_of_read hpackets
  obtain ⟨hsrc, hdst, hne⟩ := h.mem_of_packet hp
  have hid := h.mesh.networkId p.dst
  have hstarted : (s.comp leader).state ≠ .initial := by
    intro hinitial
    rw [(h.fresh hinitial).1] at hp
    cases hp
  have hfit := h.fit p.dst
  have hfirst : ∀ y q, firstTo s.packets y = some q → firstTo (pre ++ post) y = some q ∨
      y = p.dst ∧ q = p := by
    intro y q hq
    rw [hpackets] at hq
    refine (firstTo_of_read hq).imp_right ?_
    rintro rfl
    exact ⟨(by simpa using List.find?_some hq : q.dst = y).symm, rfl⟩
  have hkeep : ∀ {c : Computation} {sent : List Send}, c.Fit members leader p.dst →
      ((s.comp p.dst).currAssignment.isSome = true → c.currAssignment.isSome = true) →
      (IsAssignment p → c.currAssignment.isSome = true) →
      (∀ k, (s.comp p.dst).Listed k → c.Listed k) →
      (c.state = .initial → (s.comp p.dst).state = .initial) →
      (∀ q ∈ sent, q.destId ∈ (s.net p.dst).clients ∧ q.msg.Within members ∧
        ∃ assign resent, q.msg = .stackAssignment assign resent) →
      (({ s with packets := pre ++ post } : System).commit p.dst phase (c, sent)).Regular members
        leader := by
    intro c sent hfit hsome hread hlisted hinitial hsent
    refine h.of_commit (fun q hq => mem_of_rest hpackets hq) ?_ hfit hsome
      (fun _ _ k _ hk => hlisted k hk) hinitial (fun hi => absurd hi hstarted)
      (fun q hq => (hsent q hq).1) (fun q hq => (hsent q hq).2.1) ?_ ?_
    · intro y q hq
      refine (hfirst y q hq).imp_right ?_
      rintro ⟨hy, rfl⟩
      exact ⟨hy, hread⟩
    · intro q hq id hmsg
      obtain ⟨-, -, assign, resent, hassign⟩ := hsent q hq
      rw [hassign] at hmsg
      cases hmsg
    · intro q hq hmsg
      obtain ⟨-, -, assign, resent, hassign⟩ := hsent q hq
      rw [hassign] at hmsg
      cases hmsg
  have hwithin := h.within p hp
  cases hmsg : p.msg with
  | stackAssignment assign resent =>
    rw [hmsg] at hr hwithin
    cases hr
    refine hkeep (Computation.fit_onAssignment hfit.own hfit.listed hid hdst hwithin) ?_ ?_ ?_ ?_
      (by simp)
    · exact fun _ => Computation.onAssignment_isSome _ _ _
    · exact fun _ => Computation.onAssignment_isSome _ _ _
    · exact fun k hk => Computation.listed_onAssignment (.inr hk)
    · exact fun hi => absurd hi (Computation.onAssignment_started _ _ _)
  | assignmentFinished best =>
    rw [hmsg] at hr
    obtain ⟨c, hc, rfl⟩ := Option.map_eq_some_iff.mp hr
    have htable := Computation.onAssignmentFinished_isSome hc
    refine hkeep (hfit.onAssignmentFinished hsrc hc) (fun _ => htable) (fun _ => htable) ?_ ?_
      (by simp)
    · exact fun k hk => Computation.listed_onAssignmentFinished hc hk
    · intro hi
      rwa [(Computation.onAssignmentFinished_eq_some hc).2.2.2.1] at hi
  | terminate =>
    rw [hmsg] at hr
    cases hr
    have hother : p.dst ≠ leader := by
      rw [← h.ends p hp hmsg]
      exact hne
    have hended : (s.comp p.dst).onTerminate.Fit members leader p.dst :=
      ⟨fun _ => .inr rfl, State.noConfusion, fun heq => absurd heq hother, hfit.listed,
        State.noConfusion⟩
    refine hkeep hended (fun htable => htable) ?_ (fun k hk => hk) State.noConfusion (by simp)
    rintro ⟨assign, resent, hassign⟩
    rw [hmsg] at hassign
    cases hassign
  | divideWith client =>
    rw [hmsg] at hr hwithin
    cases hr
    refine hkeep (hfit.onDivideWith hid hdst hwithin) ?_ ?_ ?_ ?_ ?_
    · exact fun htable => Computation.onDivideWith_isSome _ _ htable
    · rintro ⟨assign, resent, hassign⟩
      rw [hmsg] at hassign
      cases hassign
    · exact fun k hk => Computation.listed_onDivideWith client hk
    · intro hi
      by_contra hstate
      exact Computation.onDivideWith_started _ client hstate hi
    · intro q hq
      obtain ⟨hdest, hassign⟩ := Computation.onDivideWith_sent hq
      refine ⟨hdest, ?_, _, _, hassign⟩
      rw [hassign]
      exact Computation.within_dividedAssignment (by rwa [hid]) hwithin _

end Steps

theorem regular_next {a : Action} (ha : a.Fixed) (hstep : s.next a = some t)
    (h : s.Regular members leader) : t.Regular members leader := by
  cases move_of_next hstep with
  | @first id timeUp sync r hlive hr =>
    obtain ⟨-, hnext⟩ := Option.ite_none_right_eq_some.mp hstep
    obtain ⟨r', hfirst, hcommit⟩ := Option.map_eq_some_iff.mp hnext
    rw [← hcommit]
    cases Computation.firstStep_cases hfirst with
    | init hleads hstate hr =>
      obtain rfl := h.mesh.eq_of_leads hleads
      exact h.init hstate hr
    | check hleads hstate _ htable =>
      obtain rfl := h.mesh.eq_of_leads hleads
      exact h.check htable (by rcases hstate with hstate | hstate <;> simp [hstate]) sync
    | idle hcut _ _ hrecorded hlisted hstate =>
      refine h.idle hfirst ?_ hcut hrecorded hlisted hstate
      rintro rfl hinitial
      rcases hstate with hsame | ⟨hfollows, -⟩
      · exact Computation.firstStep_started hfirst (hsame.trans hinitial)
      · simp [h.mesh.leads] at hfollows
  | compute hr => exact h.compute hr
  | @receive id src pre post p r hpackets hfound herase hsrc hdst hr =>
    subst hsrc hdst
    exact h.read hpackets hr
  | @endRead id =>
    exact h.of_quiet (h.fit id) (fun htable => htable) (fun _ _ _ _ hk => hk) (fun hi => hi)
      fun hi => ⟨(h.fresh hi).2 id, fun heq => heq ▸ hi⟩
  | connect | crash | discard => exact ha.elim

theorem regular_of_run {matrix : Matrix} {start : System}
    (hstart : Start members leader matrix start) (hrun : Run next (fun _ a => a.Fixed) start s) :
    s.Regular members leader :=
  hrun.invariant (regular_of_start hstart) fun _ _ _ h ha hstep => regular_next ha hstep h

end System

end ParLib.Job
