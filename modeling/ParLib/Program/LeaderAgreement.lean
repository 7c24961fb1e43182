import ParLib.Election.Agreement
import ParLib.Foundations.Simulation
import ParLib.Program.ElectionView

/-!
# Agreement on a leader over the connections

The agreement of the election is one of the whole program: as long as nobody
leaves and no node makes itself leader while another one is known, all nodes
name the same leader, whatever is cut in parts on the connections.
-/

namespace ParLib.Program

set_option autoImplicit false

open Foundations

def Action.Lasting : Action → Prop
  | .crash _ | .discard _ => False
  | .turn _ _ | .connect _ _ | .register _ | .lock _ _ | .send _ _ | .sendFails _ | .recv _ _
  | .recvFails _ | .leaveLoop _ => True

instance : DecidablePred Action.Lasting
  | .crash _ | .discard _ => inferInstanceAs (Decidable False)
  | .turn _ _ | .connect _ _ | .register _ | .lock _ _ | .send _ _ | .sendFails _ | .recv _ _
  | .recvFails _ | .leaveLoop _ => inferInstanceAs (Decidable True)

/-- The node that makes itself leader: alone for ten seconds, or its election came back. -/
def System.newLeader (s : System) : Action → Option NetworkId
  | .turn id (.step electionTimeOut tenSeconds) =>
    if (s.nodes id).manager.selectsItself electionTimeOut tenSeconds then some id else none
  | .recv conn count => do
    let l ← s.lines[conn]?
    let t ← s.next (.recv conn count)
    if (s.nodes l.dst).manager.leaderId = [] ∧ (t.nodes l.dst).manager.leaderId = l.dst then
      some l.dst
    else none
  | _ => none

/-- Nobody becomes leader while somebody names another one. -/
structure System.SoleLeader (s : System) (a : Action) : Prop where
  sound : s.Sound a
  lasting : a.Lasting
  sole : ∀ id ∈ s.newLeader a, ∀ x,
    (s.nodes x).manager.leaderId = [] ∨ (s.nodes x).manager.leaderId = id

section Steps

variable {s t : System} {e f : Election.System}

theorem recv_nodes {conn count : Nat} (h : s.next (.recv conn count) = some t) :
    ∃ l, s.lines[conn]? = some l ∧ ∀ x, x ≠ l.dst → t.nodes x = s.nodes x := by
  rw [System.next] at h
  split at h
  · cases h
  · rename_i l hl
    obtain ⟨-, h⟩ := Option.ite_none_right_eq_some.mp h
    obtain ⟨link, -, rfl⟩ := Option.map_eq_some_iff.mp h
    refine ⟨l, hl, fun x hx => ?_⟩
    dsimp only
    split
    · rfl
    · exact commit_node_of_ne _ hx

theorem own_election_next (hid : ∀ id, (e.nodes id).networkId = id) {index : Nat}
    {src id : NetworkId} (hp : e.packets[index]? = some ⟨src, id, .election id⟩)
    (hnone : (e.nodes id).leaderId = []) (hnext : e.next (.deliver index) = some f) :
    id ≠ [] ∧ (f.nodes id).leaderId = id := by
  rw [Election.System.next, hp] at hnext
  obtain ⟨hup, ⟨⟩⟩ := Option.ite_none_right_eq_some.mp hnext
  constructor
  · rintro rfl
    simp [Election.System.isUp] at hup
  · rw [Election.System.commit_nodes_self]
    obtain ⟨hknown, -⟩ | ⟨-, hother, -⟩ | ⟨-, -, hnew, -⟩ :=
      (e.nodes id).onElectionMessage_cases src id
    · exact absurd hnone hknown
    · exact absurd (hid id).symm hother
    · change ((e.nodes id).onElectionMessage src id).1.leaderId = id
      rw [hnew]
      exact hid id

theorem Counterpart.soleLeader {a : Action} {b : Election.Action} (hab : Counterpart a b)
    (hs : WellFormed s) (h : Follows s e) (ha : s.SoleLeader a) (hnext : s.next a = some t)
    (hf : e.next b = some f) (h' : Follows t f) : Election.SoleLeader e b := by
  have hmeets : Election.MeetingAction b := by
    have hlasting := ha.lasting
    cases hab with
    | discard | crash => exact hlasting.elim
    | discover | step | register | deliver => trivial
  refine ⟨hmeets, fun id hbecomes => ?_⟩
  rw [h.nodes]
  apply ha.sole id
  cases hab with
  | discover | register | discard | crash => exact hbecomes.elim
  | step x electionTimeOut tenSeconds =>
    obtain ⟨rfl, hself⟩ := hbecomes
    rw [h.nodes] at hself
    exact if_pos hself
  | deliver conn count index =>
    obtain ⟨⟨src, hp⟩, hnone⟩ := hbecomes
    have hid : ∀ id, (e.nodes id).networkId = id := by
      rw [h.nodes]
      exact hs.networkId
    obtain ⟨hne, hleads⟩ := own_election_next hid hp hnone hf
    rw [h.nodes] at hnone
    rw [h'.nodes] at hleads
    obtain ⟨l, hl, hothers⟩ := recv_nodes hnext
    have hdst : id = l.dst := by
      by_contra hother
      dsimp only at hleads hnone
      rw [hothers id hother, hnone] at hleads
      exact hne hleads.symm
    subst hdst
    change (do
      let l ← s.lines[conn]?
      let t ← s.next (.recv conn count)
      if (s.nodes l.dst).manager.leaderId = [] ∧ (t.nodes l.dst).manager.leaderId = l.dst then
        some l.dst
      else none) = some l.dst
    rw [hl, hnext]
    exact if_pos ⟨hnone, hleads⟩

end Steps

theorem simulates_sole_leader : Simulates System.next (fun s a => s.SoleLeader a ∧ WellFormed s)
    Election.System.next Election.SoleLeader Follows := by
  rintro s a t e h ⟨ha, hs⟩ hstep
  obtain h' | ⟨b, f, hab, hf, h'⟩ := h.move hs (move_of_next hs.wired ha.sound hstep)
  · exact .inl h'
  · exact .inr ⟨b, f, hab.soleLeader hs h ha hstep hf h', hf, h'⟩

/-- Nodes that know a leader know the same one, and it knows that it leads. -/
theorem program_leaders_agree {matrix : Matrix} {s : System}
    (hrun : Run System.next System.SoleLeader (.start matrix) s) (x y : NetworkId)
    (hx : (s.nodes x).manager.leaderId ≠ []) (hy : (s.nodes y).manager.leaderId ≠ []) :
    (s.nodes x).manager.leaderId = (s.nodes y).manager.leaderId ∧
      (s.nodes (s.nodes x).manager.leaderId).manager.leader = true := by
  have hsafe : ∀ e, Run Election.System.next Election.SoleLeader .initial e →
      ∃ known, e.AgreesOn known := by
    intro e he
    exact he.invariant ⟨[], Election.agreesOn_initial⟩
      fun _ _ _ hI ha hst => Election.agreesOn_next ha hst hI
  have hagree : ∃ known, ∀ x, Election.AgreesOn known x (s.nodes x).manager := by
    apply simulates_sole_leader.safe (follows_start matrix) hsafe ?_
      ((wellFormed_start matrix).run (fun _ _ ha => ha.sound) hrun)
    rintro t e h ⟨known, hnodes, -⟩
    rw [h.nodes] at hnodes
    exact ⟨known, hnodes⟩
  obtain ⟨known, hnodes⟩ := hagree
  have hxk := (hnodes x).leaderId.resolve_left hx
  have hyk := (hnodes y).leaderId.resolve_left hy
  refine ⟨hxk.trans hyk.symm, ?_⟩
  rw [hxk]
  exact ((hnodes known).leader rfl (hxk ▸ hx)).1

def joinAndHear : List Action :=
  [.connect idA idB, .register 0, .register 1, .lock 0 0, .send 0 7, .recv 0 7, .send 0 5,
    .send 0 1, .recv 0 5, .recv 0 1]

theorem program_leaders_agree_joined :
    ∃ s, Run System.next System.SoleLeader (.start Job.fourClique) s ∧
      (s.nodes idB).manager.leaderId = idA ∧
      (s.nodes idB).manager.leaderId = (s.nodes idA).manager.leaderId ∧
      (s.nodes (s.nodes idB).manager.leaderId).manager.leader = true := by
  obtain ⟨s, hs⟩ : ∃ s, (System.start Job.fourClique).next (.turn idA (.discover true)) = some s :=
    ⟨_, rfl⟩
  have hunled : ∀ x, (s.nodes x).manager.leaderId = [] := by
    cases hs
    intro x
    obtain rfl | hne := eq_or_ne x idA
    · rfl
    · rw [commit_node_of_ne _ hne]
      rfl
  obtain ⟨t, ht⟩ : ∃ t, s.next (.turn idA (.step true true)) = some t := by
    cases hs
    exact ⟨_, rfl⟩
  have hquiet (s : System) (a : Action) (h : s.Sound a ∧ a.Lasting ∧ s.newLeader a = none) :
      s.SoleLeader a := by
    obtain ⟨hsound, hlasting, hnone⟩ := h
    exact ⟨hsound, hlasting, by simp [hnone]⟩
  have hsome : (runWhile System.next (fun s a => s.Sound a ∧ a.Lasting ∧ s.newLeader a = none) t
      joinAndHear).isSome := by
    cases hs
    cases ht
    decide +kernel
  obtain ⟨u, hu⟩ := Option.isSome_iff_exists.mp hsome
  have hrun : Run System.next System.SoleLeader (.start Job.fourClique) u := by
    have hdiscover : (System.start Job.fourClique).SoleLeader (.turn idA (.discover true)) :=
      hquiet _ _ ⟨trivial, trivial, rfl⟩
    have hselect : s.SoleLeader (.turn idA (.step true true)) :=
      ⟨trivial, trivial, fun _ _ x => .inl (hunled x)⟩
    exact ((Run.refl.tail hdiscover hs).tail hselect ht).trans
      ((Run.of_runWhile hu).mono hquiet)
  have hchecked : ∀ u ∈ runWhile System.next
      (fun s a => s.Sound a ∧ a.Lasting ∧ s.newLeader a = none) t joinAndHear,
      (u.nodes idB).manager.leaderId = idA ∧ (u.nodes idA).manager.leaderId = idA := by
    cases hs
    cases ht
    decide +kernel
  obtain ⟨hB, hA⟩ := hchecked u hu
  exact ⟨u, hrun, hB, program_leaders_agree hrun idB idA (by rw [hB]; decide) (by rw [hA]; decide)⟩

end ParLib.Program
