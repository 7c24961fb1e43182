import ParLib.Election.System

/-!
# Agreement when groups meet

Nodes come up, connect and time out in any order and nobody crashes. As long
as no node makes itself leader while another one is known, all known leaders
are the same node and it knows that it leads. Two groups that each have a
leader before they meet only swap them.
-/

namespace ParLib.Election

set_option autoImplicit false

open Foundations

def MeetingAction : Action → Prop
  | .discover _ _ | .connect _ _ _ _ | .step _ _ _ | .deliver _ => True
  | _ => False

/-- The action makes `id` its own leader: alone for ten seconds, or its election came back. -/
def BecomesLeader (s : System) (id : NetworkId) : Action → Prop
  | .step x electionTimeOut tenSeconds =>
    x = id ∧ (s.nodes x).selectsItself electionTimeOut tenSeconds = true
  | .deliver index =>
    (∃ src, s.packets[index]? = some ⟨src, id, .election id⟩) ∧ (s.nodes id).leaderId = []
  | _ => False

/-- Nobody becomes leader while somebody names another one. -/
def SoleLeader (s : System) (a : Action) : Prop :=
  MeetingAction a ∧ ∀ id, BecomesLeader s id a →
    ∀ x, (s.nodes x).leaderId = [] ∨ (s.nodes x).leaderId = id

structure AgreesOn (known x : NetworkId) (m : NetworkManager) : Prop where
  networkId : m.networkId = x
  lostLeader : m.lostLeader = false
  leaderId : m.leaderId = [] ∨ m.leaderId = known
  leader : x = known → known ≠ [] → m.leader = true ∧ m.leaderId = known

def Message.Names (known : NetworkId) : Message → Prop
  | .election _ => True
  | .elected electId | .knownLeader electId => electId = known ∧ known ≠ []

/-- `known` is the only leader anybody knows; it is empty until there is one. -/
def System.AgreesOn (known : NetworkId) (s : System) : Prop :=
  (∀ x, Election.AgreesOn known x (s.nodes x)) ∧ ∀ p ∈ s.packets, p.msg.Names known

namespace AgreesOn

variable {known x : NetworkId} {m : NetworkManager}

/-- The known leader never doubts itself. -/
theorem known_eq_nil (hm : AgreesOn known x m) (hx : x = known) (hnone : m.leaderId = []) :
    known = [] := by
  by_contra hknown
  exact hknown ((hm.leader hx hknown).2.symm.trans hnone)

theorem of_nil (hm : AgreesOn [] x m) {first : NetworkId} (hx : x ≠ first) :
    AgreesOn first x m where
  networkId := hm.networkId
  lostLeader := hm.lostLeader
  leaderId := .inl (hm.leaderId.elim id id)
  leader h := absurd h hx

theorem self (hm : AgreesOn known x m) (participant : Bool) :
    AgreesOn x x { m with
      leaderId := m.networkId, leader := true, electionParticipant := participant } where
  networkId := hm.networkId
  lostLeader := hm.lostLeader
  leaderId := .inr hm.networkId
  leader _ _ := ⟨rfl, hm.networkId⟩

theorem receiverLoopStart (hm : AgreesOn known x m) (peer : NetworkId) (conn : Nat)
    (isClient : Bool) :
    AgreesOn known x (m.receiverLoopStart peer conn isClient).1 ∧
      ∀ q ∈ (m.receiverLoopStart peer conn isClient).2, q.msg.Names known := by
  obtain ⟨table, htable, -, hsent⟩ := m.receiverLoopStart_spec peer conn isClient
  rw [htable]
  refine ⟨⟨hm.networkId, hm.lostLeader, hm.leaderId, hm.leader⟩, ?_⟩
  intro q hq
  obtain ⟨hmsg, hknown⟩ := hsent q hq
  have hleader : m.leaderId = known := hm.leaderId.resolve_left hknown
  rw [hmsg, hleader]
  exact ⟨rfl, hleader ▸ hknown⟩

theorem adoptLeader (hm : AgreesOn known x m) (electId : NetworkId)
    (he : electId = known) : AgreesOn known x (m.adoptLeader electId) := by
  rw [NetworkManager.adoptLeader]
  split
  · exact hm
  · rename_i hother
    rw [hm.networkId] at hother
    exact ⟨hm.networkId, hm.lostLeader, .inr he,
      fun hx => absurd (he.trans hx.symm) hother⟩

end AgreesOn

/-- A node that becomes leader is the first one, and everybody agrees on it from then on. -/
theorem System.AgreesOn.first_leader {s : System} {known id : NetworkId} {rest : List Packet}
    {r : NetworkManager × List Send} (hinv : s.AgreesOn known)
    (hrest : ∀ p ∈ rest, p ∈ s.packets) (hnone : (s.nodes id).leaderId = [])
    (hsole : ∀ x, (s.nodes x).leaderId = [] ∨ (s.nodes x).leaderId = id)
    (hnode : Election.AgreesOn id id r.1) (hsent : ∀ q ∈ r.2, q.msg.Names id) :
    (({ s with packets := rest }).commit id r).AgreesOn id := by
  obtain ⟨hnodes, hpackets⟩ := hinv
  have hknown : known = [] := by
    by_contra hne
    have hleads := ((hnodes known).leader rfl hne).2
    cases hsole known with
    | inl h => exact hne (hleads.symm.trans h)
    | inr h => exact hne ((hnodes id).known_eq_nil (h.symm.trans hleads) hnone)
  subst hknown
  refine System.commit_local _ (fun p => p.msg.Names id) (fun x hx => (hnodes x).of_nil hx)
    ?_ hrest hnode hsent
  intro p hp
  have hp' := hpackets p hp
  cases hmsg : p.msg with
  | election electId => trivial
  | elected electId | knownLeader electId =>
    rw [hmsg] at hp'
    exact absurd rfl hp'.2

theorem agreesOn_next {s t : System} {a : Action} (ha : SoleLeader s a) (h : s.next a = some t)
    (hinv : ∃ known, s.AgreesOn known) : ∃ known, t.AgreesOn known := by
  obtain ⟨known, hinv⟩ := hinv
  obtain ⟨hmeet, hsole⟩ := ha
  obtain ⟨hnodes, hpackets⟩ := id hinv
  cases System.move_of_next h with
  | crash => exact hmeet.elim
  | lose => exact hmeet.elim
  | @node _ id rest r hup hrest hr =>
    have hlocal := System.commit_local (fun x m => AgreesOn known x m) (fun p => p.msg.Names known)
      (r := r) (fun x (_ : x ≠ id) => hnodes x) hpackets hrest
    cases hr with
    | discover _ discovered =>
      obtain ⟨h1, h2, h3, h4⟩ := hnodes id
      exact ⟨known, hlocal ⟨h1, h2, h3, h4⟩ (by simp)⟩
    | connect _ peer conn isClient hpeer =>
      obtain ⟨hnode, hsent⟩ := (hnodes id).receiverLoopStart peer conn isClient
      exact ⟨known, hlocal hnode hsent⟩
    | discard => exact hmeet.elim
    | step _ electionTimeOut tenSeconds =>
      cases hself : (s.nodes id).selectsItself electionTimeOut tenSeconds with
      | true =>
        obtain ⟨hnone, helect⟩ := NetworkManager.stepElection_of_selectsItself hself
        refine ⟨id, hinv.first_leader hrest hnone (hsole id ⟨rfl, hself⟩) ?_ ?_⟩
        · have hagrees := (hnodes id).self (s.nodes id).electionParticipant
          rw [NetworkManager.step, helect, NetworkManager.stepLostLeader_of_not_lost]
          · exact hagrees
          · exact hagrees.lostLeader
        · simp [NetworkManager.step, helect]
      | false =>
        obtain ⟨hsame, hsent⟩ := NetworkManager.stepElection_of_not_selectsItself hself
        refine ⟨known, hlocal ?_ ?_⟩
        · rw [NetworkManager.step, hsame,
            NetworkManager.stepLostLeader_of_not_lost (hnodes id).lostLeader]
          exact hnodes id
        · intro q hq
          rw [hsent q hq]
          trivial
    | deliver index p hp =>
      have hmsg := hpackets p (List.mem_of_getElem? hp)
      obtain ⟨src, dst, msg⟩ := p
      cases msg with
      | election electId =>
        have hdst : (s.nodes dst).networkId = dst := (hnodes dst).networkId
        rcases (s.nodes dst).onElectionMessage_cases src electId with
          ⟨hknown, hsame, hsent⟩ | ⟨-, -, hsame, hsent⟩ | ⟨hnone, hown, hnew, hsent⟩
        · have hleader := (hnodes dst).leaderId.resolve_left hknown
          refine ⟨known, hlocal (by rw [NetworkManager.onMessage, hsame]; exact hnodes dst) ?_⟩
          intro q hq
          rw [hsent q hq, hleader]
          exact ⟨rfl, hleader ▸ hknown⟩
        · refine ⟨known, hlocal (by rw [NetworkManager.onMessage, hsame]; exact hnodes dst) ?_⟩
          intro q hq
          obtain ⟨e, he⟩ := hsent q hq
          rw [he]
          trivial
        · rw [hdst] at hown
          subst hown
          refine ⟨electId, hinv.first_leader hrest hnone
            (hsole electId ⟨⟨src, hp⟩, hnone⟩) ?_ ?_⟩
          · rw [NetworkManager.onMessage, hnew]
            exact (hnodes electId).self false
          · intro q hq
            rw [hsent q hq, hdst]
            exact ⟨rfl, by rintro rfl; simp [System.isUp] at hup⟩
      | elected electId | knownLeader electId =>
        exact ⟨known, hlocal ((hnodes dst).adoptLeader electId hmsg.1)
          (by simp [NetworkManager.onMessage])⟩

theorem agreesOn_initial : System.initial.AgreesOn [] :=
  ⟨fun _ => ⟨rfl, rfl, .inl rfl, fun _ h => absurd rfl h⟩, fun _ hp => by cases hp⟩

theorem known_leaders_agree (s : System) (hrun : Run System.next SoleLeader System.initial s) :
    ∀ x y, (s.nodes x).leaderId ≠ [] → (s.nodes y).leaderId ≠ [] →
      (s.nodes x).leaderId = (s.nodes y).leaderId ∧
        (s.nodes (s.nodes x).leaderId).leader = true := by
  obtain ⟨known, hnodes, -⟩ := hrun.invariant ⟨[], agreesOn_initial⟩
    fun t a u hI ha hst => agreesOn_next ha hst hI
  intro x y hx hy
  have hxk := (hnodes x).leaderId.resolve_left hx
  have hyk := (hnodes y).leaderId.resolve_left hy
  refine ⟨hxk.trans hyk.symm, ?_⟩
  rw [hxk]
  exact ((hnodes known).leader rfl (hxk ▸ hx)).1

theorem known_leaders_agree_after_meeting :
    ∃ s, Run System.next SoleLeader System.initial s ∧ (s.nodes idB).leaderId = idA ∧
      ∀ x y, (s.nodes x).leaderId ≠ [] → (s.nodes y).leaderId ≠ [] →
        (s.nodes x).leaderId = (s.nodes y).leaderId ∧
          (s.nodes (s.nodes x).leaderId).leader = true := by
  let before : List Action := [.discover idA true]
  let meet : List Action := [.connect idA idB 0 true, .connect idB idA 1 false]
  obtain ⟨s, hs⟩ : ∃ s, runActions System.next System.initial before = some s := ⟨_, rfl⟩
  obtain ⟨t, ht⟩ : ∃ t, s.next (.step idA true true) = some t := by
    cases hs
    exact ⟨_, rfl⟩
  obtain ⟨u, hu⟩ : ∃ u, runActions System.next t meet = some u := by
    cases hs
    cases ht
    exact ⟨_, rfl⟩
  obtain ⟨v, hv⟩ : ∃ v, u.next (.deliver 0) = some v := by
    cases hs
    cases ht
    cases hu
    exact ⟨_, rfl⟩
  have hunled : ∀ a ∈ before ++ meet, ∀ s, SoleLeader s a := by
    simp [before, meet, SoleLeader, MeetingAction, BecomesLeader]
  have hfirst : SoleLeader s (.step idA true true) := by
    refine ⟨trivial, ?_⟩
    rintro _ ⟨rfl, -⟩ x
    cases hs
    exact .inl (by rcases eq_or_ne x idA with rfl | hx <;> simp [System.commit, System.initial,
      NetworkManager.new, *])
  have hlast : SoleLeader u (.deliver 0) := by
    refine ⟨trivial, ?_⟩
    rintro id ⟨⟨src, hp⟩, -⟩
    cases hs
    cases ht
    cases hu
    cases hp
  have hrun : Run System.next SoleLeader System.initial v :=
    (((Run.of_runActions hs fun s a ha => hunled a (by simp [ha]) s).tail hfirst ht).trans
      (.of_runActions hu fun s a ha => hunled a (by simp [ha]) s)).tail hlast hv
  refine ⟨v, hrun, ?_, known_leaders_agree v hrun⟩
  cases hs
  cases ht
  cases hu
  cases hv
  decide +kernel

/-- Two nodes that each lead alone swap their leaders when they meet. -/
def crossingRun : List Action :=
  [.discover idA true, .discover idB true, .step idA true true, .step idB true true,
    .connect idA idB 0 true, .connect idB idA 0 false, .deliver 0, .deliver 0]

theorem crossing_leaders_disagree :
    ¬ ∀ (members : Finset NetworkId) (s : System), [] ∉ members →
      Run System.next (fun _ a => MeetingAction a ∧ a.Within members) System.initial s →
      (∀ x ∈ members, ∀ y ∈ members, x ≠ y → y ∈ (s.nodes x).clientConnections) →
      s.packets = [] →
      ∀ x ∈ members, ∀ y ∈ members, (s.nodes x).leaderId ≠ [] → (s.nodes y).leaderId ≠ [] →
        (s.nodes x).leaderId = (s.nodes y).leaderId ∧
          (s.nodes (s.nodes x).leaderId).leader = true := by
  intro h
  obtain ⟨s, hs⟩ : ∃ s, runActions System.next System.initial crossingRun = some s := ⟨_, rfl⟩
  have hrun : Run System.next (fun _ a => MeetingAction a ∧ a.Within {idA, idB})
      System.initial s :=
    .of_runActions hs (by simp [crossingRun, MeetingAction, Action.Within])
  have hfail := h {idA, idB} s (by decide) hrun
  cases hs
  revert hfail
  decide +kernel

end ParLib.Election
