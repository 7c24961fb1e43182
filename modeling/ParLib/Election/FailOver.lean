import ParLib.Election.Progress
import ParLib.Election.DeadLeader
import ParLib.Election.SimultaneousOpen

/-!
# The election after the leader has died

When the leader of a stable mesh dies, each survivor notices for itself, lets
the dead connection go and forgets its leader; meanwhile others may already
elect. Seen with the dead node forgotten everywhere, all this is an election
among the survivors: noticing is invisible, and every other step is one of the
election. A survivor that has not noticed must not be asked for its leader, for
it would name the dead one.
-/

namespace ParLib.Election

set_option autoImplicit false

open Foundations

namespace NetworkManager

/-- The node as it is when it has let go of the dead leader. -/
def forget (dead : NetworkId) (m : NetworkManager) : NetworkManager :=
  { m with
    clientConnections := m.clientConnections.erase dead
    lostLeader := false
    leaderId := if m.leaderId = dead then [] else m.leaderId }

variable {m : NetworkManager} {dead : NetworkId}

theorem mem_forget {y : NetworkId} :
    y ∈ (m.forget dead).clientConnections ↔ y ≠ dead ∧ y ∈ m.clientConnections :=
  AList.mem_erase

theorem erase_of_notMem (h : dead ∉ m.clientConnections) :
    m.clientConnections.erase dead = m.clientConnections :=
  AList.ext (List.kerase_of_notMem_keys h)

theorem forget_of_let_go (hmem : dead ∉ m.clientConnections) (hlost : m.lostLeader = false)
    (hleader : m.leaderId ≠ dead) : m.forget dead = m := by
  rw [forget, erase_of_notMem hmem, if_neg hleader, ← hlost]

theorem forget_leaderId_of_ne (h : m.leaderId ≠ dead) : (m.forget dead).leaderId = m.leaderId :=
  if_neg h

theorem sendMsg_forget {destId : NetworkId} (h : destId ≠ dead) (msg : Message) :
    (m.forget dead).sendMsg msg destId = m.sendMsg msg destId := by
  have hfind : (m.forget dead).findClient destId = m.findClient destId := AList.lookup_erase_ne h
  rw [sendMsg, sendMsg, hfind]

theorem adoptLeader_forget {electId : NetworkId} (h : electId ≠ dead) :
    (m.forget dead).adoptLeader electId = (m.adoptLeader electId).forget dead := by
  rw [adoptLeader, adoptLeader]
  change (if electId = m.networkId then _ else _) = _
  split
  · rfl
  · simp [forget, h]

/-- To discard a connection with the dead node is part of letting it go. -/
theorem discardClient_forget (conn : Nat) :
    (m.discardClient dead conn).forget dead = m.forget dead := by
  have herase : (m.clientConnections.erase dead).erase dead = m.clientConnections.erase dead := by
    apply AList.ext
    exact List.kerase_of_notMem_keys fun h => (AList.mem_erase.mp h).1 rfl
  rw [discardClient]
  cases m.findClient dead with
  | none => rfl
  | some registered =>
    dsimp only
    split <;> split <;> simp [forget, herase]

end NetworkManager

/-- Where a survivor is in letting go of the dead leader. -/
structure LetsGo (dead x : NetworkId) (m : NetworkManager) : Prop where
  noticed : m.leaderId = [] → dead ∉ m.clientConnections ∧ m.lostLeader = false
  heeds : m.leaderId = dead → m.Heeds dead
  own : m.leaderId = x → m.lostLeader = false

/-- The survivors take steps, discard connections with the dead node, and receive messages; none
is asked for a leader while it would name the dead one. -/
def FailOver (survivors : Finset NetworkId) (dead : NetworkId) (s : System) : Action → Prop
  | .step id _ _ => id ∈ survivors
  | .discard id peer _ => id ∈ survivors ∧ peer = dead
  | .deliver index => ∀ p ∈ s.packets[index]?,
      (∃ electId, p.msg = .election electId) → (s.nodes p.dst).leaderId ≠ dead
  | _ => False

def System.forget (dead : NetworkId) (s : System) : System :=
  { s with nodes := fun x => (s.nodes x).forget dead }

theorem System.forget_commit (dead : NetworkId) (s : System) (id : NetworkId)
    (r : NetworkManager × List Send) :
    (s.commit id r).forget dead = (s.forget dead).commit id (r.1.forget dead, r.2) := by
  have hnodes : (fun x => (Function.update s.nodes id r.1 x).forget dead) =
      Function.update (fun x => (s.nodes x).forget dead) id (r.1.forget dead) := by
    funext x
    rw [Function.update_apply, Function.update_apply]
    split <;> rfl
  rw [System.forget, System.commit, System.commit]
  dsimp only
  rw [hnodes]
  rfl

/-- With the dead node forgotten, the survivors are electing. -/
structure FailingOver (survivors : Finset NetworkId) (second dead : NetworkId) (s : System) :
    Prop where
  electing : Electing survivors second (s.forget dead)
  letsGo : ∀ x ∈ survivors, LetsGo dead x (s.nodes x)
  senders : ∀ p ∈ s.packets, p.src ≠ dead

section Handlers

variable {survivors : Finset NetworkId} {second dead x : NetworkId} {m : NetworkManager}
  (hcard : 2 ≤ survivors.card) (hne : [] ∉ survivors)
  (hsecond : IsGreatest (survivors : Set NetworkId) second) (hdead : dead ∉ survivors)
  (hnobody : dead ≠ [])

include hnobody in
theorem LetsGo.forget_eq (hm : LetsGo dead x m) (h : m.leaderId = []) : m.forget dead = m := by
  obtain ⟨hmem, hlost⟩ := hm.noticed h
  exact NetworkManager.forget_of_let_go hmem hlost (by rw [h]; exact hnobody.symm)

theorem stepElection_of_known {electionTimeOut tenSeconds : Bool} (h : m.leaderId ≠ []) :
    m.stepElection electionTimeOut tenSeconds = (m, []) := by
  rw [NetworkManager.stepElection, if_neg]
  exact fun htimer => h htimer.2.1

include hne hnobody in
/-- A survivor with the dead leader waits for the connection to go, and then forgets. -/
theorem LetsGo.step_stale (hm : LetsGo dead x m) (hx : x ∈ survivors)
    (hmesh : MeshNode survivors second x (m.forget dead)) (h : m.leaderId = dead)
    (electionTimeOut tenSeconds : Bool) :
    ∃ m', m.step electionTimeOut tenSeconds = (m', []) ∧ m'.forget dead = m.forget dead ∧
      LetsGo dead x m' ∧ (m.Heeds dead → dead ∉ m.clientConnections → m'.leaderId = []) := by
  have hleader : m.leader = false := by
    have hiff := hmesh.leader
    rw [NetworkManager.forget, if_pos h] at hiff
    rw [← Bool.not_eq_true, hiff]
    exact fun hnil => hne ((show [] = x from hnil) ▸ hx)
  have hstep : m.step electionTimeOut tenSeconds = (m.stepLostLeader, []) := by
    rw [NetworkManager.step, stepElection_of_known (h ▸ hnobody)]
  refine ⟨m.stepLostLeader, hstep, ?_⟩
  rw [NetworkManager.stepLostLeader, h]
  split
  · cases hfind : m.findClient dead with
    | some conn =>
      refine ⟨rfl, hm, fun _ hmem => ?_⟩
      have hin : dead ∈ m.clientConnections := AList.lookup_isSome.mp (by
        rw [← NetworkManager.findClient, hfind]
        rfl)
      exact absurd hin hmem
    | none =>
      have hmem : dead ∉ m.clientConnections := AList.lookup_eq_none.mp hfind
      refine ⟨?_, ⟨fun _ => ⟨hmem, rfl⟩, fun hnil => absurd hnil hnobody.symm, fun _ => rfl⟩,
        fun _ _ => rfl⟩
      simp [NetworkManager.forget, h, hleader]
  · rename_i hlost
    exact ⟨rfl, hm, fun hheeds hmem => absurd (hheeds.resolve_left hmem) hlost⟩

include hcard hne hsecond hnobody in
/-- A survivor without the dead leader steps as if it had never known it. -/
theorem LetsGo.step_fresh (hm : LetsGo dead x m) (hx : x ∈ survivors)
    (hmesh : MeshNode survivors second x (m.forget dead)) (h : m.leaderId ≠ dead)
    (electionTimeOut tenSeconds : Bool) :
    ∃ sent, m.step electionTimeOut tenSeconds = (m, sent) ∧
      (m.forget dead).step electionTimeOut tenSeconds = (m.forget dead, sent) := by
  have heq := hmesh.step_eq hcard hne hsecond hx electionTimeOut tenSeconds
  by_cases hnil : m.leaderId = []
  · rw [hm.forget_eq hnobody hnil] at heq ⊢
    exact ⟨_, heq, heq⟩
  · refine ⟨[], ?_, ?_⟩
    · rw [NetworkManager.step, stepElection_of_known hnil]
      congr 1
      rw [NetworkManager.stepLostLeader]
      split
      · rename_i hlost
        have hleader : m.leaderId = second := by
          have hcases := hmesh.leaderId
          rw [NetworkManager.forget_leaderId_of_ne h] at hcases
          exact hcases.resolve_left hnil
        have hother : m.leaderId ≠ x := fun hown => by
          rw [hm.own hown] at hlost
          cases hlost
        have hmem : m.leaderId ∈ m.clientConnections := by
          refine (NetworkManager.mem_forget.mp ((hmesh.connected _).mpr ⟨?_, hother⟩)).2
          rw [hleader]
          exact hsecond.1
        obtain ⟨conn, hconn⟩ := Option.isSome_iff_exists.mp (AList.lookup_isSome.mpr hmem)
        rw [NetworkManager.findClient, hconn]
      · rfl
    · rw [heq, NetworkManager.forget_leaderId_of_ne h]
      simp [hnil]

theorem LetsGo.discardClient (hm : LetsGo dead x m) (hx : x ≠ dead) (conn : Nat) :
    LetsGo dead x (m.discardClient dead conn) := by
  obtain ⟨-, hleader, hheeds⟩ := m.discardClient_spec dead conn
  refine ⟨?_, ?_, ?_⟩
  · intro hnil
    obtain ⟨hmem, hlost⟩ := hm.noticed (hleader ▸ hnil)
    have hfind : m.findClient dead = none := AList.lookup_eq_none.mpr hmem
    rw [NetworkManager.discardClient, hfind]
    exact ⟨hmem, hlost⟩
  · intro hdead
    rw [hleader] at hdead
    exact hdead ▸ hheeds (hdead.symm ▸ hm.heeds hdead)
  · intro hown
    rw [hleader] at hown
    have hlost := hm.own hown
    rw [NetworkManager.discardClient]
    cases m.findClient dead with
    | none => exact hlost
    | some registered =>
      dsimp only
      rw [if_neg (hown ▸ hx.symm)]
      split
      · exact hlost
      · exact hlost

include hne hdead hnobody hsecond in
/-- A message is handled as if the dead node had never been there, and does not bring it back. -/
theorem LetsGo.onMessage (hm : LetsGo dead x m) (hx : x ∈ survivors)
    (hmesh : MeshNode survivors second x (m.forget dead)) {senderId : NetworkId}
    (hsender : senderId ≠ dead) {msg : Message} (hmsg : MeshMessage survivors second x msg)
    (hasked : (∃ electId, msg = .election electId) → m.leaderId ≠ dead) :
    (m.forget dead).onMessage senderId msg =
      ((m.onMessage senderId msg).1.forget dead, (m.onMessage senderId msg).2) ∧
    LetsGo dead x (m.onMessage senderId msg).1 ∧
      (m.leaderId ≠ dead → (m.onMessage senderId msg).1.leaderId ≠ dead) := by
  have hid : m.networkId = x := hmesh.networkId
  have hxd : x ≠ dead := fun hxd => hdead (hxd ▸ hx)
  cases msg with
  | election electId =>
    have hfresh := hasked ⟨electId, rfl⟩
    by_cases hnil : m.leaderId = []
    · rw [hm.forget_eq hnobody hnil]
      obtain ⟨hmem, hlost⟩ := hm.noticed hnil
      obtain ⟨hknown, -⟩ | ⟨-, -, hsame, -⟩ | ⟨-, -, hnew, -⟩ :=
        m.onElectionMessage_cases senderId electId
      · exact absurd hnil hknown
      · have hsame' : (m.onMessage senderId (.election electId)).1 = m := hsame
        rw [hsame', hm.forget_eq hnobody hnil]
        exact ⟨Prod.ext hsame' rfl, hm, id⟩
      · have hnew' : (m.onMessage senderId (.election electId)).1 = _ := hnew
        have hleader : (m.onMessage senderId (.election electId)).1.leaderId = x := by
          rw [hnew']
          exact hid
        have hkept : (m.onMessage senderId (.election electId)).1.lostLeader = false ∧
            dead ∉ (m.onMessage senderId (.election electId)).1.clientConnections := by
          rw [hnew']
          exact ⟨hlost, hmem⟩
        refine ⟨?_, ⟨fun _ => ⟨hkept.2, hkept.1⟩, ?_, fun _ => hkept.1⟩, fun _ => hleader ▸ hxd⟩
        · rw [NetworkManager.forget_of_let_go hkept.2 hkept.1 (hleader ▸ hxd)]
        · exact fun hback => absurd (hleader.symm.trans hback) hxd
    · have hreply : m.onElectionMessage senderId electId =
          (m, m.sendMsg (.knownLeader m.leaderId) senderId) := if_pos hnil
      have hleader := NetworkManager.forget_leaderId_of_ne hfresh
      have hreply' : (m.forget dead).onElectionMessage senderId electId =
          (m.forget dead, m.sendMsg (.knownLeader m.leaderId) senderId) := by
        rw [NetworkManager.onElectionMessage, hleader, if_pos hnil,
          NetworkManager.sendMsg_forget hsender]
      rw [NetworkManager.onMessage, NetworkManager.onMessage, hreply, hreply']
      exact ⟨rfl, hm, id⟩
  | elected electId | knownLeader electId =>
    have hmem : electId ∈ survivors := (show electId = second from hmsg) ▸ hsecond.1
    have he : electId ≠ dead := fun he => hdead (he ▸ hmem)
    refine ⟨Prod.ext (NetworkManager.adoptLeader_forget he) rfl, ?_⟩
    change LetsGo dead x (m.adoptLeader electId) ∧ (_ → (m.adoptLeader electId).leaderId ≠ dead)
    rw [NetworkManager.adoptLeader]
    split
    · exact ⟨hm, id⟩
    · rename_i hother
      rw [hid] at hother
      exact ⟨⟨fun hnil => absurd (hnil ▸ hmem) hne, fun hback => absurd hback he,
        fun hown => absurd hown hother⟩, fun _ => he⟩

end Handlers

section Run

variable {survivors : Finset NetworkId} {second dead : NetworkId} {s t : System}
  (hcard : 2 ≤ survivors.card) (hne : [] ∉ survivors)
  (hsecond : IsGreatest (survivors : Set NetworkId) second) (hdead : dead ∉ survivors)
  (hnobody : dead ≠ [])

/-- Nobody names the dead node any more. -/
def Forgotten (survivors : Finset NetworkId) (dead : NetworkId) (s : System) : Prop :=
  ∀ x ∈ survivors, (s.nodes x).leaderId ≠ dead

/-- A handler of a survivor that is one of the election, or is not seen in it. -/
theorem FailingOver.commit (h : FailingOver survivors second dead s) {id : NetworkId}
    {rest : List Packet} {r : NetworkManager × List Send} (hid : id ∈ survivors)
    (hrest : ∀ p ∈ rest, p ∈ s.packets) (hdead : dead ∉ survivors)
    (helecting : Electing survivors second
      ((({ s with packets := rest }).forget dead).commit id (r.1.forget dead, r.2)))
    (hletsGo : LetsGo dead id r.1) :
    FailingOver survivors second dead (({ s with packets := rest }).commit id r) := by
  refine ⟨?_, ?_, ?_⟩
  · rw [System.forget_commit]
    exact helecting
  · intro x hx
    rcases eq_or_ne x id with rfl | hxid
    · rwa [System.commit_nodes_self]
    · rw [System.commit_nodes_of_ne _ _ hxid]
      exact h.letsGo x hx
  · intro p hp
    rcases System.mem_commit_packets.mp hp with hp | ⟨q, -, rfl⟩
    · exact h.senders p (hrest p hp)
    · exact fun hback => hdead (hback ▸ hid)

theorem System.commit_same (s : System) (id : NetworkId) : s.commit id (s.nodes id, []) = s := by
  rw [System.commit]
  simp

theorem Forgotten.commit (h : Forgotten survivors dead s) {id : NetworkId} {rest : List Packet}
    {r : NetworkManager × List Send}
    (hr : (s.nodes id).leaderId ≠ dead → r.1.leaderId ≠ dead) :
    Forgotten survivors dead (({ s with packets := rest }).commit id r) := by
  intro x hx
  rcases eq_or_ne x id with rfl | hxid
  · rw [System.commit_nodes_self]
    exact hr (h x hx)
  · rw [System.commit_nodes_of_ne _ _ hxid]
    exact h x hx

include hcard hne hsecond hdead hnobody in
/-- The step of a survivor that knows no dead leader is one of the election. -/
theorem FailingOver.step_fresh (h : FailingOver survivors second dead s) {id : NetworkId}
    (hid : id ∈ survivors) (hfresh : (s.nodes id).leaderId ≠ dead)
    {electionTimeOut tenSeconds : Bool}
    (hstep : s.next (.step id electionTimeOut tenSeconds) = some t) :
    FailingOver survivors second dead t ∧
      (Forgotten survivors dead s → Forgotten survivors dead t) ∧
      (s.forget dead).next (.step id electionTimeOut tenSeconds) = some (t.forget dead) := by
  obtain ⟨hup, ⟨⟩⟩ := Option.ite_none_right_eq_some.mp hstep
  obtain ⟨sent, heq, hforget⟩ := (h.letsGo id hid).step_fresh hcard hne hsecond hnobody hid
    (h.electing.nodes id hid) hfresh electionTimeOut tenSeconds
  have hnext : (s.forget dead).next (.step id electionTimeOut tenSeconds) =
      some ((s.forget dead).commit id (((s.nodes id).forget dead), sent)) := by
    rw [← hforget]
    exact if_pos hup
  have helecting := h.electing.next hcard hne hsecond
    (show ElectionAction survivors _ (.step id electionTimeOut tenSeconds) from hid) hnext
  rw [heq]
  refine ⟨?_, fun hforgotten => hforgotten.commit fun _ => hfresh, ?_⟩
  · exact h.commit hid (fun _ hp => hp) hdead helecting (h.letsGo id hid)
  · rw [hnext, System.forget_commit]

include hcard hne hsecond hdead hnobody in
theorem FailingOver.deliver (h : FailingOver survivors second dead s) {index : Nat}
    (ha : FailOver survivors dead s (.deliver index)) (hstep : s.next (.deliver index) = some t) :
    FailingOver survivors second dead t ∧
      (Forgotten survivors dead s → Forgotten survivors dead t) ∧
      (s.forget dead).next (.deliver index) = some (t.forget dead) := by
  rw [System.next] at hstep
  split at hstep
  · cases hstep
  · rename_i p hp
    obtain ⟨hup, ⟨⟩⟩ := Option.ite_none_right_eq_some.mp hstep
    have hmem := List.mem_of_getElem? hp
    obtain ⟨hdst, hmsg⟩ := h.electing.packets p hmem
    obtain ⟨hforget, hletsGo, hfresh⟩ :=
      (h.letsGo p.dst hdst).onMessage hne hsecond hdead hnobody hdst
      (h.electing.nodes p.dst hdst) (h.senders p hmem) hmsg (ha p hp)
    have hforgotten : (s.forget dead).next (.deliver index) =
        some (({ s with packets := s.packets.eraseIdx index }.forget dead).commit p.dst
          (((s.nodes p.dst).onMessage p.src p.msg).1.forget dead,
            ((s.nodes p.dst).onMessage p.src p.msg).2)) := by
      have hp' : (s.forget dead).packets[index]? = some p := hp
      have hup' : (s.forget dead).isUp p.dst = true := hup
      rw [System.next, hp']
      dsimp only
      rw [if_pos hup', ← hforget]
      rfl
    have helecting := h.electing.next hcard hne hsecond
      (show ElectionAction survivors _ (.deliver index) from trivial) hforgotten
    refine ⟨?_, fun hall => hall.commit hfresh, ?_⟩
    · exact h.commit hdst (fun _ hq => List.mem_of_mem_eraseIdx hq) hdead helecting hletsGo
    · rw [hforgotten, System.forget_commit]

include hne hdead hnobody in
/-- What a survivor does to let the dead leader go is not seen in the election. -/
theorem FailingOver.step_stale (h : FailingOver survivors second dead s) {id : NetworkId}
    (hid : id ∈ survivors) (hstale : (s.nodes id).leaderId = dead)
    (electionTimeOut tenSeconds : Bool) :
    ∃ m', s.commit id ((s.nodes id).step electionTimeOut tenSeconds) = s.commit id (m', []) ∧
      FailingOver survivors second dead (s.commit id (m', [])) ∧
      (dead ∉ (s.nodes id).clientConnections → m'.leaderId = []) := by
  have hm := h.letsGo id hid
  obtain ⟨m', heq, hforget, hletsGo, hdone⟩ := hm.step_stale hne hnobody hid
    (h.electing.nodes id hid) hstale electionTimeOut tenSeconds
  refine ⟨m', by rw [heq], ?_, hdone (hm.heeds hstale)⟩
  apply h.commit hid (fun _ hp => hp) hdead _ hletsGo
  rw [hforget]
  exact ((s.forget dead).commit_same id).symm ▸ h.electing

include hdead in
theorem FailingOver.discard (h : FailingOver survivors second dead s) {id : NetworkId}
    (hid : id ∈ survivors) (conn : Nat) :
    FailingOver survivors second dead
      (s.commit id ((s.nodes id).discardClient dead conn, [])) := by
  have hid' : id ≠ dead := fun heq => hdead (heq ▸ hid)
  apply h.commit hid (fun _ hp => hp) hdead _
    ((h.letsGo id hid).discardClient hid' conn)
  rw [NetworkManager.discardClient_forget]
  exact ((s.forget dead).commit_same id).symm ▸ h.electing

include hcard hne hsecond hdead hnobody in
theorem FailingOver.next {a : Action} (h : FailingOver survivors second dead s)
    (ha : FailOver survivors dead s a) (hstep : s.next a = some t) :
    FailingOver survivors second dead t := by
  cases a with
  | step id electionTimeOut tenSeconds =>
    by_cases hstale : (s.nodes id).leaderId = dead
    · obtain ⟨-, ⟨⟩⟩ := Option.ite_none_right_eq_some.mp hstep
      obtain ⟨m', heq, hnext, -⟩ :=
        h.step_stale hne hdead hnobody ha hstale electionTimeOut tenSeconds
      rw [heq]
      exact hnext
    · exact (h.step_fresh hcard hne hsecond hdead hnobody ha hstale hstep).1
  | deliver index => exact (h.deliver hcard hne hsecond hdead hnobody ha hstep).1
  | discard id peer conn =>
    obtain ⟨-, ⟨⟩⟩ := Option.ite_none_right_eq_some.mp hstep
    obtain ⟨hid, rfl⟩ := ha
    exact h.discard hdead hid conn
  | discover | connect | crash | lose => exact ha.elim

include hcard hne hsecond hdead hnobody in
theorem FailingOver.run (h : FailingOver survivors second dead s)
    (hrun : Run System.next (FailOver survivors dead) s t) :
    FailingOver survivors second dead t :=
  hrun.invariant h fun _ _ _ hu ha hstep => hu.next hcard hne hsecond hdead hnobody ha hstep

section Continuation

include hne in
theorem FailingOver.isUp (h : FailingOver survivors second dead s) {x : NetworkId}
    (hx : x ∈ survivors) : s.isUp x = true :=
  h.electing.isUp hne hx

end Continuation

end Run

end ParLib.Election
