import Mathlib

/-!
# Search trees and work lists

A search tree gives every node its finitely many children and a rank that
falls from a node to its children. A work list explores the tree by taking
one node out and putting its children in, in any order whatsoever; what is
explored in the end depends on the multiset of pending nodes alone.
-/

namespace ParLib.Foundations

set_option autoImplicit false

universe u

structure SearchTree (α : Type u) where
  children : α → List α
  rank : α → Nat
  rank_lt : ∀ a, ∀ b ∈ children a, rank b < rank a

namespace SearchTree

variable {α : Type u} (T : SearchTree α)

/-- The node itself and everything below it, with multiplicity. -/
def descendants (a : α) : Multiset α :=
  a ::ₘ ((T.children a).attach.map fun b => descendants b.1).sum
termination_by T.rank a
decreasing_by exact T.rank_lt a b.1 b.2

/-- All nodes below the members of a collection of pending nodes. -/
def forest (pending : Multiset α) : Multiset α := pending.bind T.descendants

theorem descendants_eq (a : α) : T.descendants a = a ::ₘ T.forest (T.children a) := by
  rw [descendants, forest, List.attach_map_val ]
  rfl

@[simp]
theorem forest_zero : T.forest 0 = 0 := rfl

@[simp]
theorem forest_cons (a : α) (s : Multiset α) :
    T.forest (a ::ₘ s) = T.descendants a + T.forest s := Multiset.cons_bind ..

@[simp]
theorem forest_add (s t : Multiset α) : T.forest (s + t) = T.forest s + T.forest t :=
  Multiset.add_bind ..

theorem self_mem_descendants (a : α) : a ∈ T.descendants a := by
  rw [descendants_eq]
  exact Multiset.mem_cons_self ..

theorem mem_forest {s : Multiset α} {x : α} :
    x ∈ T.forest s ↔ ∃ a ∈ s, x ∈ T.descendants a := Multiset.mem_bind

theorem forest_eq_zero_iff {s : Multiset α} : T.forest s = 0 ↔ s = 0 := by
  constructor
  · intro h
    apply Multiset.eq_zero_of_forall_notMem
    intro a ha
    have hmem : a ∈ T.forest s := T.mem_forest.mpr ⟨a, ha, T.self_mem_descendants a⟩
    rw [h] at hmem
    exact Multiset.notMem_zero a hmem
  · intro h
    rw [h, forest_zero]

/-- Exploring one pending node accounts for that node and nothing else. -/
theorem forest_explore (a : α) (rest : Multiset α) :
    T.forest (a ::ₘ rest) = a ::ₘ T.forest (↑(T.children a) + rest) := by
  rw [forest_cons, descendants_eq, forest_add, Multiset.cons_add]

def Below (a b : α) : Prop := Relation.ReflTransGen (fun x y => y ∈ T.children x) a b

theorem rank_le_of_below {a b : α} (h : T.Below a b) : T.rank b ≤ T.rank a := by
  induction h with
  | refl => exact le_rfl
  | tail _ hstep ih => exact (T.rank_lt _ _ hstep).le.trans ih

theorem mem_descendants_iff (a x : α) : x ∈ T.descendants a ↔ T.Below a x := by
  induction hr : T.rank a using Nat.strongRecOn generalizing a with
  | ind r ih =>
    rw [descendants_eq, Multiset.mem_cons, mem_forest]
    constructor
    · rintro (rfl | ⟨b, hb, hx⟩)
      · exact .refl
      · have hlt := T.rank_lt a b hb
        exact .head hb ((ih (T.rank b) (hr ▸ hlt) b rfl).mp hx)
    · intro h
      rcases Relation.ReflTransGen.cases_head h with rfl | ⟨b, hb, hx⟩
      · exact .inl rfl
      · have hlt := T.rank_lt a b hb
        exact .inr ⟨b, hb, (ih (T.rank b) (hr ▸ hlt) b rfl).mpr hx⟩

/-- Nothing is explored twice when siblings lead to different places. -/
theorem nodup_descendants (hnodup : ∀ a, (T.children a).Nodup)
    (hsep : ∀ a, ∀ b ∈ T.children a, ∀ c ∈ T.children a, ∀ x, T.Below b x → T.Below c x → b = c)
    (a : α) : (T.descendants a).Nodup := by
  induction hr : T.rank a using Nat.strongRecOn generalizing a with
  | ind r ih =>
    rw [descendants_eq, Multiset.nodup_cons, forest, Multiset.nodup_bind]
    refine ⟨?_, ?_, ?_⟩
    · intro hmem
      obtain ⟨b, hb, hx⟩ := T.mem_forest.mp hmem
      have hle := T.rank_le_of_below ((T.mem_descendants_iff b a).mp hx)
      exact absurd (T.rank_lt a b hb) (not_lt.mpr hle)
    · intro b hb
      exact ih (T.rank b) (hr ▸ T.rank_lt a b hb) b rfl
    · refine ⟨T.children a, rfl, (hnodup a).pairwise_of_forall_ne ?_⟩
      intro b hb c hc hne
      rw [Function.onFun, Multiset.disjoint_left]
      intro x hx hx'
      exact hne (hsep a b hb c hc x ((T.mem_descendants_iff b x).mp hx)
        ((T.mem_descendants_iff c x).mp hx'))

/-- Every goal has been explored or lies below something that is still held. It is all
that a distributed work list has to keep. -/
def Accounts (goal explored held : α → Prop) : Prop :=
  ∀ a, goal a → explored a ∨ ∃ b, held b ∧ T.Below b a

theorem Accounts.explored_of_none_held {T : SearchTree α} {goal explored held : α → Prop}
    (h : T.Accounts goal explored held) (hnone : ∀ b, ¬ held b) {a : α} (ha : goal a) :
    explored a :=
  (h a ha).resolve_right fun ⟨b, hb, _⟩ => hnone b hb

/-- A step keeps the account if it forgets nothing explored and accounts for everything
below what it stops holding. -/
theorem Accounts.mono {T : SearchTree α} {goal explored held explored' held' : α → Prop}
    (h : T.Accounts goal explored held) (hexplored : ∀ a, explored a → explored' a)
    (hheld : ∀ b, held b → T.Accounts (T.Below b) explored' held') :
    T.Accounts goal explored' held' := by
  intro a ha
  rcases h a ha with hold | ⟨b, hb, hbelow⟩
  · exact .inl (hexplored a hold)
  · exact hheld b hb a hbelow

end SearchTree

end ParLib.Foundations
