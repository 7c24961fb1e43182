import ParLib.Election.System

/-!
# Elections in a stable mesh

Every node is connected to all the others and stays so. An election message
then either climbs towards larger ids, or carries the greatest id and sits at
the greatest node or at the one right below it, so that only the greatest
node ever sees its own id come back.
-/

namespace ParLib.Election

set_option autoImplicit false

open Foundations

/-- Nobody knows a leader, and every node is connected to exactly the others. -/
structure MeshStart (members : Finset NetworkId) (s : System) : Prop where
  networkId : ∀ x ∈ members, (s.nodes x).networkId = x
  connected : ∀ x ∈ members, ∀ y, y ∈ (s.nodes x).clientConnections ↔ y ∈ members ∧ y ≠ x
  lostLeader : ∀ x ∈ members, (s.nodes x).lostLeader = false
  leaderId : ∀ x ∈ members, (s.nodes x).leaderId = []
  leader : ∀ x ∈ members, (s.nodes x).leader = false
  packets : s.packets = []

/-- The actions of a stable mesh: timers, discovery, deliveries. -/
def MeshAction (members : Finset NetworkId) (_ : System) : Action → Prop
  | .discover id _ | .step id _ _ => id ∈ members
  | .deliver _ => True
  | _ => False

structure MeshNode (members : Finset NetworkId) (greatest x : NetworkId) (m : NetworkManager) :
    Prop where
  networkId : m.networkId = x
  connected : ∀ y, y ∈ m.clientConnections ↔ y ∈ members ∧ y ≠ x
  lostLeader : m.lostLeader = false
  leaderId : m.leaderId = [] ∨ m.leaderId = greatest
  leader : m.leader = true ↔ m.leaderId = x

def MeshElection (members : Finset NetworkId) (greatest electId dst : NetworkId) : Prop :=
  electId < dst ∨ electId = greatest ∧ (dst = greatest ∨ ∀ y ∈ members, y ≠ greatest → y ≤ dst)

def MeshMessage (members : Finset NetworkId) (greatest dst : NetworkId) : Message → Prop
  | .election electId => MeshElection members greatest electId dst
  | .elected electId | .knownLeader electId => electId = greatest

def MeshMember (members : Finset NetworkId) (greatest x : NetworkId) (m : NetworkManager) : Prop :=
  x ∈ members → MeshNode members greatest x m

def MeshPacket (members : Finset NetworkId) (greatest : NetworkId) (p : Packet) : Prop :=
  p.dst ∈ members ∧ MeshMessage members greatest p.dst p.msg

section Mesh

variable {members : Finset NetworkId} {greatest : NetworkId}
  (hcard : 2 ≤ members.card) (hne : [] ∉ members)
  (hgreatest : IsGreatest (members : Set NetworkId) greatest)

include hne in
theorem MeshNode.nil_not_mem {x : NetworkId} {m : NetworkManager}
    (hm : MeshNode members greatest x m) : [] ∉ m.clientConnections :=
  fun h => hne ((hm.connected []).mp h).1

include hne hgreatest in
/-- Below the greatest node the election message climbs. -/
theorem MeshNode.next_larger {x : NetworkId} {m : NetworkManager}
    (hm : MeshNode members greatest x m) (hx : x ∈ members) (hxg : x ≠ greatest) :
    m.getNextId x ∈ members ∧ x < m.getNextId x := by
  have hlt : x < greatest := lt_of_le_of_ne (hgreatest.2 hx) hxg
  have hmem : greatest ∈ m.clientConnections :=
    (hm.connected greatest).mpr ⟨hgreatest.1, hxg.symm⟩
  rcases m.getNextId_spec x (hm.nil_not_mem hne) with ⟨hnext, hgt, -⟩ | ⟨hnone, -⟩
  · exact ⟨((hm.connected _).mp hnext).1, hgt⟩
  · exact absurd hlt (hnone greatest hmem)

include hcard hne hgreatest in
/-- The greatest node sends to the node right below it. -/
theorem MeshNode.next_greatest {m : NetworkManager} (hm : MeshNode members greatest greatest m) :
    m.getNextId greatest ∈ members ∧ ∀ y ∈ members, y ≠ greatest → y ≤ m.getNextId greatest := by
  have hbelow : ∀ y ∈ members, y ≠ greatest → y ∈ m.clientConnections ∧ y < greatest :=
    fun y hy hyg => ⟨(hm.connected y).mpr ⟨hy, hyg⟩, lt_of_le_of_ne (hgreatest.2 hy) hyg⟩
  obtain ⟨z, hz, hzg⟩ := Finset.exists_mem_ne (show 1 < members.card by omega) greatest
  rcases m.getNextId_spec greatest (hm.nil_not_mem hne) with ⟨hnext, hgt, -⟩ | ⟨-, hsmaller⟩
  · exact absurd hgt (not_lt.mpr (hgreatest.2 ((hm.connected _).mp hnext).1))
  · rcases hsmaller with ⟨-, hnone⟩ | ⟨hnext, -, hmax⟩
    · exact absurd (hbelow z hz hzg).2 (hnone z (hbelow z hz hzg).1)
    · exact ⟨((hm.connected _).mp hnext).1,
        fun y hy hyg => hmax y (hbelow y hy hyg).1 (hbelow y hy hyg).2⟩

include hcard hne hgreatest in
theorem MeshNode.own_election {x : NetworkId} {m : NetworkManager}
    (hm : MeshNode members greatest x m) (hx : x ∈ members) :
    m.getNextId x ∈ members ∧ MeshElection members greatest x (m.getNextId x) := by
  by_cases hxg : x = greatest
  · subst hxg
    obtain ⟨hnext, hmax⟩ := hm.next_greatest hcard hne hgreatest
    exact ⟨hnext, .inr ⟨rfl, .inr hmax⟩⟩
  · obtain ⟨hnext, hlt⟩ := hm.next_larger hne hgreatest hx hxg
    exact ⟨hnext, .inl hlt⟩

include hne hgreatest in
/-- A larger id than the receiver's is the greatest one, on its last hop home. -/
theorem MeshNode.forward_election {x electId : NetworkId} {m : NetworkManager}
    (hm : MeshNode members greatest x m) (hx : x ∈ members) (hlt : x < electId)
    (he : MeshElection members greatest electId x) :
    m.getNextId x ∈ members ∧ MeshElection members greatest electId (m.getNextId x) := by
  rcases he with h | ⟨rfl, h⟩
  · exact absurd (h.trans hlt) (lt_irrefl _)
  · have hxg : x ≠ electId := hlt.ne
    obtain ⟨hnext, hgt⟩ := hm.next_larger hne hgreatest hx hxg
    refine ⟨hnext, .inr ⟨rfl, .inl ?_⟩⟩
    by_contra hng
    cases h with
    | inl h => exact hxg h
    | inr h => exact absurd hgt (not_lt.mpr (h _ hnext hng))

/-- Only the greatest node gets its own id back. -/
theorem MeshElection.eq_greatest {x : NetworkId} (he : MeshElection members greatest x x) :
    x = greatest := by
  rcases he with h | ⟨h, -⟩
  · exact absurd h (lt_irrefl x)
  · exact h

theorem MeshNode.adoptLeader {x electId : NetworkId} {m : NetworkManager}
    (hm : MeshNode members greatest x m) (he : electId = greatest) :
    MeshNode members greatest x (m.adoptLeader electId) := by
  rw [NetworkManager.adoptLeader]
  split
  · exact hm
  · rename_i hown
    rw [hm.networkId] at hown
    exact ⟨hm.networkId, hm.connected, hm.lostLeader, .inr he, by simpa using hown⟩

include hcard hne hgreatest in
theorem MeshNode.onElectionMessage {x electId : NetworkId} {m : NetworkManager}
    (hm : MeshNode members greatest x m) (hx : x ∈ members) (senderId : NetworkId)
    (he : MeshElection members greatest electId x) :
    MeshNode members greatest x (m.onElectionMessage senderId electId).1 ∧
      ∀ q ∈ (m.onElectionMessage senderId electId).2,
        MeshPacket members greatest ⟨x, q.destId, q.msg⟩ := by
  rw [NetworkManager.onElectionMessage, hm.networkId]
  split_ifs with hknown hlarger hsmaller hown
  · refine ⟨hm, ?_⟩
    intro q hq
    obtain ⟨hdest, rfl⟩ := NetworkManager.mem_sendMsg.mp hq
    exact ⟨((hm.connected _).mp hdest).1, hm.leaderId.resolve_left hknown⟩
  · refine ⟨hm, ?_⟩
    intro q hq
    obtain ⟨-, rfl⟩ := NetworkManager.mem_sendMsg.mp hq
    exact hm.forward_election hne hgreatest hx hlarger he
  · refine ⟨hm, ?_⟩
    intro q hq
    obtain ⟨-, rfl⟩ := NetworkManager.mem_sendMsg.mp hq
    exact hm.own_election hcard hne hgreatest hx
  · subst hown
    have hg := he.eq_greatest
    refine ⟨⟨rfl, hm.connected, hm.lostLeader, .inr hg, by simp⟩, ?_⟩
    intro q hq
    obtain ⟨-, rfl⟩ := NetworkManager.mem_sendMsg.mp hq
    exact ⟨(hm.own_election hcard hne hgreatest hx).1, hg⟩
  · exact ⟨hm, by simp⟩

include hcard hne hgreatest in
theorem MeshNode.next_connected {x : NetworkId} {m : NetworkManager}
    (hm : MeshNode members greatest x m) (hx : x ∈ members) :
    m.getNextId x ∈ m.clientConnections := by
  obtain ⟨hnext, -⟩ := hm.own_election hcard hne hgreatest hx
  rcases m.getNextId_spec x (hm.nil_not_mem hne) with ⟨hmem, -⟩ | ⟨-, ⟨hnil, -⟩ | ⟨hmem, -⟩⟩
  · exact hmem
  · exact absurd (hnil ▸ hnext) hne
  · exact hmem

include hcard hne hgreatest in
/-- A step of the timer sends the node's own election message, or nothing. -/
theorem MeshNode.step_eq {x : NetworkId} {m : NetworkManager} (hm : MeshNode members greatest x m)
    (hx : x ∈ members) (electionTimeOut tenSeconds : Bool) :
    m.step electionTimeOut tenSeconds =
      (m, if m.discovered && m.leaderId.isEmpty && electionTimeOut then
        [⟨m.getNextId x, .election x⟩] else []) := by
  have hnext := hm.next_connected hcard hne hgreatest hx
  have hdest : m.getNextId x ≠ [] := fun h => hm.nil_not_mem hne (h ▸ hnext)
  have hfirst : m.stepElection electionTimeOut tenSeconds =
      (m, if m.discovered && m.leaderId.isEmpty && electionTimeOut then
        [⟨m.getNextId x, .election x⟩] else []) := by
    rw [NetworkManager.stepElection, hm.networkId]
    dsimp only
    rw [if_neg hdest, NetworkManager.sendMsg_of_mem _ hnext]
    simp only [Bool.and_eq_true, List.isEmpty_iff, and_assoc]
    split <;> rfl
  rw [NetworkManager.step, hfirst, NetworkManager.stepLostLeader_of_not_lost hm.lostLeader]

include hcard hne hgreatest in
theorem MeshNode.step {x : NetworkId} {m : NetworkManager} (hm : MeshNode members greatest x m)
    (hx : x ∈ members) (electionTimeOut tenSeconds : Bool) :
    MeshNode members greatest x (m.step electionTimeOut tenSeconds).1 ∧
      ∀ q ∈ (m.step electionTimeOut tenSeconds).2,
        MeshPacket members greatest ⟨x, q.destId, q.msg⟩ := by
  rw [hm.step_eq hcard hne hgreatest hx]
  refine ⟨hm, ?_⟩
  intro q hq
  dsimp only at hq
  split at hq
  · rw [List.mem_singleton.mp hq]
    exact hm.own_election hcard hne hgreatest hx
  · cases hq

include hcard hne hgreatest in
theorem mesh_next {s t : System} {a : Action} (ha : MeshAction members s a)
    (h : s.next a = some t)
    (hinv : (∀ x, MeshMember members greatest x (s.nodes x)) ∧
      ∀ p ∈ s.packets, MeshPacket members greatest p) :
    (∀ x, MeshMember members greatest x (t.nodes x)) ∧
      ∀ p ∈ t.packets, MeshPacket members greatest p := by
  obtain ⟨hnodes, hpackets⟩ := hinv
  cases System.move_of_next h with
  | crash => exact ha.elim
  | lose => exact ha.elim
  | @node _ id rest r hup hrest hr =>
    cases hr with
    | discover _ discovered =>
      refine System.commit_local _ _ (fun x _ => hnodes x) hpackets hrest ?_ (by simp)
      intro hid
      obtain ⟨h1, h2, h3, h4, h5⟩ := hnodes id hid
      exact ⟨h1, h2, h3, h4, h5⟩
    | connect => exact ha.elim
    | discard => exact ha.elim
    | step _ electionTimeOut tenSeconds =>
      have hid : id ∈ members := ha
      obtain ⟨hnode, hsent⟩ :=
        (hnodes id hid).step hcard hne hgreatest hid electionTimeOut tenSeconds
      exact System.commit_local _ _ (fun x _ => hnodes x) hpackets hrest (fun _ => hnode) hsent
    | deliver index p hp =>
      obtain ⟨hdst, hmsg⟩ := hpackets p (List.mem_of_getElem? hp)
      obtain ⟨src, dst, msg⟩ := p
      cases msg with
      | election electId =>
        obtain ⟨hnode, hsent⟩ := (hnodes dst hdst).onElectionMessage hcard hne hgreatest
          hdst src hmsg
        exact System.commit_local _ _ (fun x _ => hnodes x) hpackets hrest (fun _ => hnode) hsent
      | elected electId | knownLeader electId =>
        exact System.commit_local _ _ (fun x _ => hnodes x) hpackets hrest
          (fun _ => (hnodes dst hdst).adoptLeader hmsg) (by simp [NetworkManager.onMessage])

include hne in
/-- At first nobody leads, and nothing is under way. -/
theorem MeshStart.members_packets {s : System} (h : MeshStart members s) :
    (∀ x, MeshMember members greatest x (s.nodes x)) ∧
      ∀ p ∈ s.packets, MeshPacket members greatest p := by
  refine ⟨?_, by simp [h.packets]⟩
  intro x hx
  refine ⟨h.networkId x hx, h.connected x hx, h.lostLeader x hx, .inl (h.leaderId x hx), ?_⟩
  rw [h.leader x hx, h.leaderId x hx]
  have hxne : [] ≠ x := fun hnil => hne (hnil ▸ hx)
  simpa using hxne

theorem election_safety_in_a_stable_mesh (members : Finset NetworkId) (greatest : NetworkId)
    (hcard : 2 ≤ members.card) (hne : [] ∉ members)
    (hgreatest : IsGreatest (members : Set NetworkId) greatest) (start s : System)
    (hstart : MeshStart members start)
    (hrun : Run System.next (MeshAction members) start s) :
    ∀ x ∈ members, ((s.nodes x).leaderId ≠ [] → (s.nodes x).leaderId = greatest) ∧
      ((s.nodes x).leader = true → x = greatest) ∧
      ((s.nodes x).leader = true ↔ (s.nodes x).leaderId = (s.nodes x).networkId) := by
  have hinv := hrun.invariant (hstart.members_packets hne) fun t a u hI ha hst =>
    mesh_next hcard hne hgreatest ha hst hI
  intro x hx
  have hnode := hinv.1 x hx
  have hxne : x ≠ [] := fun h => hne (h ▸ hx)
  refine ⟨hnode.leaderId.resolve_left, ?_, by rw [hnode.networkId]; exact hnode.leader⟩
  intro hlead
  have hid := hnode.leader.mp hlead
  exact hid.symm.trans (hnode.leaderId.resolve_left fun h => hxne (hid.symm.trans h))

end Mesh

def pairMesh : System where
  nodes x := { NetworkManager.new x with
    clientConnections := if x = idA then AList.singleton idB 0 else AList.singleton idA 0
    discovered := true }
  packets := []
  crashed := fun _ => false

theorem pairMesh_start : MeshStart {idA, idB} pairMesh where
  networkId _ _ := rfl
  connected x hx y := by
    have hne : idA ≠ idB := by decide
    have hmem : ∀ k : NetworkId, y ∈ (AList.singleton k 0 : AList fun _ => Nat) ↔ y = k := by
      intro k
      rw [AList.mem_keys, AList.keys_singleton, List.mem_singleton]
    rcases Finset.mem_insert.mp hx with rfl | hx
    · simp only [pairMesh, if_true, hmem]
      grind
    · obtain rfl := Finset.mem_singleton.mp hx
      simp only [pairMesh, if_neg hne.symm, hmem]
      grind
  lostLeader _ _ := rfl
  leaderId _ _ := rfl
  leader _ _ := rfl
  packets := rfl

theorem election_safety_in_a_pair :
    ∃ s, Run System.next (MeshAction {idA, idB}) pairMesh s ∧ (s.nodes idA).leaderId = idB ∧
      ∀ x ∈ ({idA, idB} : Finset NetworkId),
        ((s.nodes x).leaderId ≠ [] → (s.nodes x).leaderId = idB) ∧
        ((s.nodes x).leader = true → x = idB) ∧
        ((s.nodes x).leader = true ↔ (s.nodes x).leaderId = (s.nodes x).networkId) := by
  let actions : List Action := [.step idB true false, .deliver 0, .deliver 0, .deliver 0]
  obtain ⟨s, hs⟩ : ∃ s, runActions System.next pairMesh actions = some s := ⟨_, rfl⟩
  have hrun : Run System.next (MeshAction {idA, idB}) pairMesh s :=
    .of_runActions hs (by simp [actions, MeshAction])
  refine ⟨s, hrun, ?_, election_safety_in_a_stable_mesh {idA, idB} idB (by decide) (by decide)
    (by simp [IsGreatest, upperBounds]; decide) pairMesh s pairMesh_start hrun⟩
  cases hs
  decide +kernel

end ParLib.Election
