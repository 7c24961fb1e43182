import ParLib.Election.System

/-!
# Dead leaders

`DiscardClient` raises `_lostLeader` only on a node that is connected to its
leader. A node that learns of a leader it is not connected to, dead or about
to die, is never told.
-/

namespace ParLib.Election

set_option autoImplicit false

open Foundations

namespace NetworkManager

/-- The node still has to notice the loss of the peer, or already has. -/
def Heeds (m : NetworkManager) (peer : NetworkId) : Prop :=
  peer ∈ m.clientConnections ∨ m.lostLeader = true

theorem stepLostLeader_cases (m : NetworkManager) :
    m.stepLostLeader.leaderId = [] ∨ m.stepLostLeader = m := by
  rw [stepLostLeader]
  split
  · cases m.findClient m.leaderId with
    | none => exact .inl rfl
    | some _ => exact .inr rfl
  · exact .inr rfl

@[simp]
theorem stepLostLeader_networkId (m : NetworkManager) :
    m.stepLostLeader.networkId = m.networkId := by
  rw [stepLostLeader]
  split
  · cases m.findClient m.leaderId <;> rfl
  · rfl

theorem discardClient_spec (m : NetworkManager) (peer : NetworkId) (conn : Nat) :
    (m.discardClient peer conn).networkId = m.networkId ∧
      (m.discardClient peer conn).leaderId = m.leaderId ∧
      (m.Heeds m.leaderId → (m.discardClient peer conn).Heeds m.leaderId) := by
  rw [discardClient, findClient]
  cases hfound : m.clientConnections.lookup peer with
  | none => exact ⟨rfl, rfl, id⟩
  | some registered =>
    cases eq_or_ne peer m.leaderId with
    | inl hpeer =>
      subst hpeer
      simp only [if_true]
      split <;> exact ⟨rfl, rfl, fun _ => .inr rfl⟩
    | inr hpeer =>
      simp only [if_neg hpeer]
      split
      · refine ⟨rfl, rfl, ?_⟩
        rintro (hmem | hlost)
        · exact .inl (AList.mem_erase.mpr ⟨hpeer.symm, hmem⟩)
        · exact .inr hlost
      · exact ⟨rfl, rfl, id⟩

end NetworkManager

/-- A dead leader is adopted, and a leader dies, only where the loss will be noticed. -/
def HeedsCrashes (s : System) : Action → Prop
  | .deliver index => ∀ src dst electId,
    (s.packets[index]? = some ⟨src, dst, .elected electId⟩ ∨
      s.packets[index]? = some ⟨src, dst, .knownLeader electId⟩) →
    s.crashed electId = true → (s.nodes dst).Heeds electId
  | .crash id => ∀ x, x ≠ id → s.crashed x = false → (s.nodes x).leaderId = id →
    (s.nodes x).Heeds id
  | _ => True

structure NoticesLoss (crashed : NetworkId → Bool) (x : NetworkId) (m : NetworkManager) : Prop where
  networkId : m.networkId = x
  heeds : crashed x = false → crashed m.leaderId = true → m.Heeds m.leaderId

namespace NoticesLoss

variable {crashed : NetworkId → Bool} {x : NetworkId} {m : NetworkManager}

theorem self (hm : NoticesLoss crashed x m) {m' : NetworkManager}
    (hid : m'.networkId = m.networkId) (hleader : m'.leaderId = m.networkId) :
    NoticesLoss crashed x m' where
  networkId := hid.trans hm.networkId
  heeds hx hdead := by
    rw [hleader, hm.networkId, hx] at hdead
    cases hdead

theorem stepLostLeader (hm : NoticesLoss crashed x m) (hnobody : crashed [] = false) :
    NoticesLoss crashed x m.stepLostLeader := by
  cases m.stepLostLeader_cases with
  | inl h =>
    refine ⟨by rw [NetworkManager.stepLostLeader_networkId, hm.networkId], ?_⟩
    intro _ hdead
    rw [h, hnobody] at hdead
    cases hdead
  | inr h =>
    rw [h]
    exact hm

theorem step (hm : NoticesLoss crashed x m) (hnobody : crashed [] = false)
    (electionTimeOut tenSeconds : Bool) :
    NoticesLoss crashed x (m.step electionTimeOut tenSeconds).1 := by
  refine NoticesLoss.stepLostLeader ?_ hnobody
  cases hself : m.selectsItself electionTimeOut tenSeconds with
  | true =>
    obtain ⟨-, helect⟩ := NetworkManager.stepElection_of_selectsItself hself
    rw [helect]
    exact hm.self rfl rfl
  | false =>
    rw [(NetworkManager.stepElection_of_not_selectsItself hself).1]
    exact hm

theorem onElectionMessage (hm : NoticesLoss crashed x m) (senderId electId : NetworkId) :
    NoticesLoss crashed x (m.onElectionMessage senderId electId).1 := by
  rcases m.onElectionMessage_cases senderId electId with
    ⟨-, hsame, -⟩ | ⟨-, -, hsame, -⟩ | ⟨-, -, hnew, -⟩
  · rw [hsame]
    exact hm
  · rw [hsame]
    exact hm
  · rw [hnew]
    exact hm.self rfl rfl

theorem adoptLeader (hm : NoticesLoss crashed x m) {electId : NetworkId}
    (hheeds : crashed electId = true → m.Heeds electId) :
    NoticesLoss crashed x (m.adoptLeader electId) := by
  rw [NetworkManager.adoptLeader]
  split
  · exact hm
  · exact ⟨hm.networkId, fun _ hdead => hheeds hdead⟩

end NoticesLoss

def System.NoticesLosses (s : System) : Prop :=
  s.crashed [] = false ∧ ∀ x, NoticesLoss s.crashed x (s.nodes x)

theorem noticesLosses_next {s t : System} {a : Action} (ha : HeedsCrashes s a)
    (h : s.next a = some t) (hinv : s.NoticesLosses) : t.NoticesLosses := by
  obtain ⟨hnobody, hnodes⟩ := hinv
  cases System.move_of_next h with
  | @crash id hup =>
    have hid : id ≠ [] := by
      rintro rfl
      simp [System.isUp] at hup
    refine ⟨(Function.update_of_ne hid.symm ..).trans hnobody, ?_⟩
    intro x
    refine ⟨(hnodes x).networkId, ?_⟩
    intro hx hdead
    have hxid : x ≠ id := by
      rintro rfl
      simp at hx
    have hxup : s.crashed x = false := by simpa [hxid] using hx
    cases eq_or_ne (s.nodes x).leaderId id with
    | inl hleader => exact hleader.symm ▸ ha x hxid hxup hleader
    | inr hleader => exact (hnodes x).heeds hxup (by simpa [hleader] using hdead)
  | lose => exact ⟨hnobody, hnodes⟩
  | @node _ id rest r hup hrest hr =>
    have hlocal := System.commit_local (NoticesLoss s.crashed) (fun _ => True) (r := r)
      (fun x (_ : x ≠ id) => hnodes x) (fun _ _ => trivial) hrest
    suffices hnode : NoticesLoss s.crashed id r.1 from
      ⟨hnobody, (hlocal hnode fun _ _ => trivial).1⟩
    cases hr with
    | discover _ discovered => exact ⟨(hnodes id).networkId, (hnodes id).heeds⟩
    | connect _ peer conn isClient hpeer =>
      obtain ⟨table, htable, hgrows, -⟩ :=
        (s.nodes id).receiverLoopStart_spec peer conn isClient
      rw [htable]
      exact ⟨(hnodes id).networkId,
        fun hx hdead => ((hnodes id).heeds hx hdead).imp_left (hgrows _)⟩
    | discard _ peer conn =>
      obtain ⟨hid, hleader, hheeds⟩ := (s.nodes id).discardClient_spec peer conn
      refine ⟨hid.trans (hnodes id).networkId, ?_⟩
      rw [hleader]
      exact fun hx hdead => hheeds ((hnodes id).heeds hx hdead)
    | step _ electionTimeOut tenSeconds =>
      exact (hnodes id).step hnobody electionTimeOut tenSeconds
    | deliver index p hp =>
      obtain ⟨src, dst, msg⟩ := p
      cases msg with
      | election electId => exact (hnodes dst).onElectionMessage src electId
      | elected electId =>
        exact (hnodes dst).adoptLeader fun hdead => ha src dst electId (.inl hp) hdead
      | knownLeader electId =>
        exact (hnodes dst).adoptLeader fun hdead => ha src dst electId (.inr hp) hdead

theorem no_survivor_stuck_with_a_dead_leader (s : System)
    (hrun : Run System.next HeedsCrashes System.initial s)
    (hdiscarded : ∀ x e, s.isUp x = true → s.crashed e = true →
      e ∉ (s.nodes x).clientConnections) :
    ∀ x, s.isUp x = true → s.crashed (s.nodes x).leaderId = true →
      (s.nodes x).lostLeader = true := by
  have hinv : s.NoticesLosses := hrun.invariant ⟨rfl, fun x => ⟨rfl, fun _ h => by cases h⟩⟩
    fun t a u hI ha hst => noticesLosses_next ha hst hI
  intro x hup hdead
  have hlive : s.crashed x = false := by
    simp only [System.isUp, Bool.and_eq_true, Bool.not_eq_true'] at hup
    exact hup.2
  exact ((hinv.2 x).heeds hlive hdead).resolve_left (hdiscarded x _ hup hdead)

/-- "A" leads and dies; "B" is connected to it, and notices. -/
theorem no_survivor_stuck_in_a_pair :
    ∃ s, Run System.next HeedsCrashes System.initial s ∧ s.crashed (s.nodes idB).leaderId = true ∧
      ∀ x, s.isUp x = true → s.crashed (s.nodes x).leaderId = true →
        (s.nodes x).lostLeader = true := by
  let before : List Action := [.discover idA true, .step idA true true,
    .connect idA idB 0 true, .connect idB idA 0 false]
  obtain ⟨s, hs⟩ : ∃ s, runActions System.next System.initial before = some s := ⟨_, rfl⟩
  obtain ⟨t, ht⟩ : ∃ t, s.next (.deliver 0) = some t := by
    cases hs
    exact ⟨_, rfl⟩
  obtain ⟨u, hu⟩ : ∃ u, t.next (.crash idA) = some u := by
    cases hs
    cases ht
    exact ⟨_, rfl⟩
  obtain ⟨v, hv⟩ : ∃ v, u.next (.discard idB idA 0) = some v := by
    cases hs
    cases ht
    cases hu
    exact ⟨_, rfl⟩
  have hdeliver : HeedsCrashes s (.deliver 0) := by
    intro src dst electId _ hdead
    cases hs
    cases hdead
  have hcrash : HeedsCrashes t (.crash idA) := by
    intro x hx _ hleader
    cases hs
    cases ht
    rcases eq_or_ne x idB with rfl | hother
    · exact .inl (by decide +kernel)
    · simp [System.commit, System.initial, NetworkManager.new, hx, hother] at hleader
      cases hleader
  have hrun : Run System.next HeedsCrashes System.initial v :=
    ((((Run.of_runActions hs (by simp [before, HeedsCrashes])).tail hdeliver ht).tail
      hcrash hu).tail
      (show HeedsCrashes u (.discard idB idA 0) from trivial) hv)
  have hdiscarded : ∀ x e, v.isUp x = true → v.crashed e = true →
      e ∉ (v.nodes x).clientConnections := by
    intro x e hx he
    cases hs
    cases ht
    cases hu
    cases hv
    obtain rfl : e = idA := by
      by_contra hne
      simp [System.commit, System.initial, hne] at he
    rcases eq_or_ne x idB with rfl | hother
    · decide +kernel
    · have hlive : x ≠ idA := by
        rintro rfl
        simp [System.isUp, System.commit] at hx
      simp [System.commit, System.initial, NetworkManager.new, hlive, hother]
  refine ⟨v, hrun, ?_, no_survivor_stuck_with_a_dead_leader v hrun hdiscarded⟩
  cases hs
  cases ht
  cases hu
  cases hv
  decide +kernel

/-- "A" forgets the dead leader "C" and is told of it again by "B", which has not noticed. -/
def staleReplyRun : List Action :=
  [.discover idA true, .discover idC true, .step idC true true,
    .connect idA idB 0 true, .connect idB idA 0 false,
    .connect idC idA 0 true, .connect idA idC 1 false,
    .connect idC idB 1 true, .connect idB idC 1 false, .deliver 0, .deliver 0,
    .crash idC, .discard idA idC 1, .step idA false false, .step idA true false,
    .deliver 0, .discard idB idC 1, .deliver 0]

theorem stale_reply_names_a_dead_leader :
    ¬ ∀ (members : Finset NetworkId) (s : System), [] ∉ members →
      Run System.next (fun _ a => a.Within members) System.initial s → s.packets = [] →
      (∀ x ∈ members, ∀ e ∈ members, s.crashed x = false → s.crashed e = true →
        e ∉ (s.nodes x).clientConnections) →
      ∀ x ∈ members, s.crashed x = false → s.crashed (s.nodes x).leaderId = true →
        (s.nodes x).lostLeader = true := by
  intro h
  obtain ⟨s, hs⟩ : ∃ s, runActions System.next System.initial staleReplyRun = some s := ⟨_, rfl⟩
  have hrun : Run System.next (fun _ a => a.Within {idA, idB, idC}) System.initial s :=
    .of_runActions hs (by simp [staleReplyRun, Action.Within])
  have hfail := h {idA, idB, idC} s (by decide) hrun
  cases hs
  revert hfail
  decide +kernel

end ParLib.Election
