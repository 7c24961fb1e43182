import ParLib.Job.Handlers

/-!
# What a division leaves on both sides

The test for too little work looks at the half that is kept, which is empty
for an empty stack alone. A stack of one state passes the test, and its
division hands an empty share to the other client.
-/

namespace ParLib.Job

set_option autoImplicit false

open Foundations ParallelStack

namespace Computation

/-- What the node's table holds for a client, if it has a table and an entry there. -/
def entry (c : Computation) (k : NetworkId) : Option (List Path) :=
  c.currAssignment.bind fun table => table.find? k

theorem onAssignment_entry (c : Computation) {net : Net} {assign : StackAssignment}
    (hown : (assign.find? net.networkId).isSome = true) (k : NetworkId) :
    (c.onAssignment net assign).entry k = (assign.find? k).or (c.entry k) := by
  rw [entry, onAssignment_currAssignment, entry]
  cases hc : c.currAssignment with
  | some table => exact StackAssignment.find?_update table assign k
  | none =>
    have htouch : (assign.touch net.networkId) = assign := by
      rw [StackAssignment.touch]
      split
      · rename_i hnone
        rw [hnone] at hown
        cases hown
      · rfl
    simp only [readAssignment, htouch, ite_self, Option.bind_some, Option.bind_none,
      Option.or_none]

/-- Neither the stack nor the table nor what is sent tells of the division. -/
def LeavesUnchanged (c : Computation) (r : Computation × List Send) : Prop :=
  r.1.stack = c.stack ∧ (∀ k, r.1.entry k = c.entry k) ∧ r.2 = []

/-- The node and the other client have shared the stack, and everybody is told how. -/
structure DividesWith (c : Computation) (net : Net) (id : NetworkId)
    (r : Computation × List Send) (assign : StackAssignment) (given : List Path) : Prop where
  sent : r.2 = net.broadcastMsg (.stackAssignment assign false)
  kept : r.1.stack ≠ []
  share : given ≠ []
  together : (r.1.stack : Multiset Path) + (given : Multiset Path) = c.stack
  sentOwn : assign.find? net.networkId = some r.1.stack
  sentOther : assign.find? id = some given
  sentOthers : ∀ k, k ≠ net.networkId → k ≠ id → assign.find? k = none
  own : r.1.entry net.networkId = some r.1.stack
  other : r.1.entry id = some given
  others : ∀ k, k ≠ net.networkId → k ≠ id → r.1.entry k = c.entry k

theorem DividesWith.two_le {c : Computation} {net : Net} {id : NetworkId}
    {r : Computation × List Send} {assign : StackAssignment} {given : List Path}
    (h : DividesWith c net id r assign given) : 2 ≤ c.stack.length := by
  have hcard := congrArg Multiset.card h.together
  rw [Multiset.card_add, Multiset.coe_card, Multiset.coe_card, Multiset.coe_card] at hcard
  have hkept := List.length_pos_iff.mpr h.kept
  have hshare := List.length_pos_iff.mpr h.share
  omega

variable {c : Computation} {net : Net} {id : NetworkId}

theorem onDivideWith_stack (hid : id ≠ net.networkId) (hwork : c.stack ≠ []) :
    (c.onDivideWith net id).1.stack = newDataB c.stack := by
  obtain ⟨c', heq, -, hcut, -⟩ := onDivideWith_spec hid hwork
  rw [heq, stack, hcut]
  rfl

theorem onDivideWith_entry (hid : id ≠ net.networkId) (hwork : c.stack ≠ []) (k : NetworkId) :
    (c.onDivideWith net id).1.entry k = if k = id then some (newDataA c.stack)
      else if k = net.networkId then some (newDataB c.stack) else c.entry k := by
  rw [onDivideWith_of_ne_nil net id hwork, onAssignment_entry, find?_dividedAssignment]
  · split_ifs <;> rfl
  · rw [find?_dividedAssignment, if_neg hid.symm, if_pos rfl]
    rfl

theorem onDivideWith_sends (hwork : c.stack ≠ []) : (c.onDivideWith net id).2 =
    net.broadcastMsg (.stackAssignment (dividedAssignment net id c.stack) false) := by
  rw [onDivideWith_of_ne_nil net id hwork]

theorem divides_with_of_two_le (hid : id ≠ net.networkId) (htwo : 2 ≤ c.stack.length) :
    DividesWith c net id (c.onDivideWith net id) (dividedAssignment net id c.stack)
      (newDataA c.stack) := by
  have hwork : c.stack ≠ [] := List.ne_nil_of_length_pos (by omega)
  have hstack := onDivideWith_stack hid hwork
  have hentry := onDivideWith_entry (c := c) hid hwork
  constructor
  · exact onDivideWith_sends hwork
  · rw [hstack, ne_eq, newDataB_eq_nil_iff]
    exact hwork
  · rw [ne_eq, newDataA_eq_nil_iff]
    omega
  · rw [hstack, newDataB_add_newDataA]
  · rw [hstack, find?_dividedAssignment, if_neg hid.symm, if_pos rfl]
  · rw [find?_dividedAssignment, if_pos rfl]
  · intro k hself hother
    rw [find?_dividedAssignment, if_neg hother, if_neg hself]
  · rw [hentry, hstack, if_neg hid.symm, if_pos rfl]
  · rw [hentry, if_pos rfl]
  · intro k hself hother
    rw [hentry, if_neg hother, if_neg hself]

/-- The whole stack is kept, and the other client is given nothing. -/
theorem leavesUnchanged_of_one (hid : id ≠ net.networkId) (hone : c.stack.length = 1) :
    LeavesUnchanged c (c.onDivideWith net id) ↔ net.clients = [] ∧
      c.entry net.networkId = some c.stack ∧ c.entry id = some [] := by
  have hwork : c.stack ≠ [] := List.ne_nil_of_length_pos (by omega)
  have hentry := onDivideWith_entry (c := c) hid hwork
  have hgiven : newDataA c.stack = [] := (newDataA_eq_nil_iff _).mpr hone.le
  have hkept : newDataB c.stack = c.stack := by
    obtain ⟨a, ha⟩ := List.length_eq_one_iff.mp hone
    rw [ha, newDataB_singleton]
  rw [LeavesUnchanged, onDivideWith_stack hid hwork, onDivideWith_sends hwork, hkept,
    Net.broadcastMsg, List.map_eq_nil_iff]
  simp only [hentry, hgiven, hkept, true_and]
  constructor
  · rintro ⟨hsame, hnone⟩
    have hown := hsame net.networkId
    have hother := hsame id
    rw [if_neg hid.symm, if_pos rfl] at hown
    rw [if_pos rfl] at hother
    exact ⟨hnone, hown.symm, hother.symm⟩
  · rintro ⟨hnone, hown, hother⟩
    refine ⟨?_, hnone⟩
    intro k
    split_ifs with hk hk'
    · rw [hk, hother]
    · rw [hk', hown]
    · rfl

theorem division_leaves_both_with_work_iff (c : Computation) (net : Net) (id : NetworkId)
    (hid : id ≠ net.networkId) :
    (LeavesUnchanged c (c.onDivideWith net id) ∨
      ∃ assign given, DividesWith c net id (c.onDivideWith net id) assign given) ↔
      c.stack.length ≠ 1 ∨ (net.clients = [] ∧ c.entry net.networkId = some c.stack ∧
        c.entry id = some []) := by
  rcases Nat.lt_trichotomy c.stack.length 1 with hnone | hone | htwo
  · have hnil : c.stack = [] := List.length_eq_zero_iff.mp (by omega)
    rw [onDivideWith_of_nil net id hnil]
    exact iff_of_true (.inl ⟨rfl, fun _ => rfl, rfl⟩) (.inl hnone.ne)
  · rw [leavesUnchanged_of_one hid hone]
    constructor
    · rintro (hsame | ⟨_, _, hdivides⟩)
      · exact .inr hsame
      · exact .inl (by have := hdivides.two_le; omega)
    · rintro (hne | hsame)
      · exact absurd hone hne
      · exact .inl hsame
  · exact iff_of_true (.inr ⟨_, _, divides_with_of_two_le hid htwo⟩) (.inl htwo.ne')

/-- A node that has searched down to one pending state. -/
def oneStateLeft : Computation :=
  { new fourClique with
    maximumCut := (MaximumCut.new fourClique).assignData [[1, 2]]
    state := .computing }

theorem division_leaves_both_with_work_iff_two_states :
    idB ≠ idA ∧
    let c := { oneStateLeft with maximumCut := oneStateLeft.maximumCut.assignData [[1, 2], [3]] }
    let net : Net := ⟨idA, [idB], true⟩
    ((LeavesUnchanged c (c.onDivideWith net idB) ∨
      ∃ assign given, DividesWith c net idB (c.onDivideWith net idB) assign given) ↔
      c.stack.length ≠ 1 ∨ (net.clients = [] ∧ c.entry net.networkId = some c.stack ∧
        c.entry idB = some [])) :=
  ⟨by decide, division_leaves_both_with_work_iff
    { oneStateLeft with maximumCut := oneStateLeft.maximumCut.assignData [[1, 2], [3]] }
    ⟨idA, [idB], true⟩ idB (by decide)⟩

theorem division_of_one_state_gives_nothing :
    ¬ ∀ (c : Computation) (net : Net) (id : NetworkId), id ≠ net.networkId →
      LeavesUnchanged c (c.onDivideWith net id) ∨
        ∃ assign given, DividesWith c net id (c.onDivideWith net id) assign given := by
  intro h
  rcases h oneStateLeft ⟨idA, [idB], true⟩ idB (by decide) with ⟨-, -, hsent⟩ | ⟨_, _, hdivides⟩
  · have hwork : oneStateLeft.stack ≠ [] := List.cons_ne_nil _ _
    rw [onDivideWith_sends hwork] at hsent
    cases hsent
  · exact absurd hdivides.two_le (by decide)

end Computation

end ParLib.Job
