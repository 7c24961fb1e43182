import Mathlib

/-!
# Ordered sets

A set of a linear order as its strictly increasing list of elements, which is
also the order in which a loop over the set meets them.
-/

namespace ParLib.Foundations

set_option autoImplicit false

universe u

structure OrdSet (α : Type u) [LinearOrder α] where
  elems : List α
  sorted : elems.Pairwise (· < ·)

namespace OrdSet

variable {α : Type u} [LinearOrder α]

instance : Membership α (OrdSet α) where
  mem s a := a ∈ s.elems

theorem mem_elems {s : OrdSet α} {a : α} : a ∈ s.elems ↔ a ∈ s := Iff.rfl

instance (s : OrdSet α) (a : α) : Decidable (a ∈ s) := inferInstanceAs (Decidable (a ∈ s.elems))

def empty : OrdSet α := ⟨[], .nil⟩

def size (s : OrdSet α) : Nat := s.elems.length

theorem nodup (s : OrdSet α) : s.elems.Nodup := s.sorted.imp fun h => h.ne

def filter (p : α → Bool) (s : OrdSet α) : OrdSet α := ⟨s.elems.filter p, s.sorted.filter p⟩

def erase (s : OrdSet α) (a : α) : OrdSet α := s.filter (· ≠ a)

def diff (s t : OrdSet α) : OrdSet α := s.filter (· ∉ t)

def insertElem (a : α) : List α → List α
  | [] => [a]
  | b :: rest =>
    if a < b then a :: b :: rest else if a = b then b :: rest else b :: insertElem a rest

theorem mem_insertElem {a x : α} {elems : List α} :
    x ∈ insertElem a elems ↔ x = a ∨ x ∈ elems := by
  induction elems with
  | nil => simp [insertElem]
  | cons b rest ih =>
    rw [insertElem]
    split_ifs with hlt heq
    · simp
    · simp [heq]
    · rw [List.mem_cons, ih, List.mem_cons]
      tauto

theorem sorted_insertElem {a : α} {elems : List α} (h : elems.Pairwise (· < ·)) :
    (insertElem a elems).Pairwise (· < ·) := by
  induction elems with
  | nil => simp [insertElem]
  | cons b rest ih =>
    obtain ⟨hb, hrest⟩ := List.pairwise_cons.mp h
    rw [insertElem]
    split_ifs with hlt heq
    · refine List.pairwise_cons.mpr ⟨?_, h⟩
      intro x hx
      cases hx with
      | head => exact hlt
      | tail _ hx => exact hlt.trans (hb x hx)
    · exact h
    · refine List.pairwise_cons.mpr ⟨?_, ih hrest⟩
      intro x hx
      rcases mem_insertElem.mp hx with rfl | hx
      · exact lt_of_le_of_ne (not_lt.mp hlt) (Ne.symm heq)
      · exact hb x hx

def insert (s : OrdSet α) (a : α) : OrdSet α := ⟨insertElem a s.elems, sorted_insertElem s.sorted⟩

def insertAll (s : OrdSet α) (as : List α) : OrdSet α := as.foldl insert s

def eraseAll (s : OrdSet α) (as : List α) : OrdSet α := as.foldl erase s

@[simp]
theorem mem_filter {p : α → Bool} {s : OrdSet α} {a : α} :
    a ∈ s.filter p ↔ a ∈ s ∧ p a = true := List.mem_filter

@[simp]
theorem mem_erase {s : OrdSet α} {a x : α} : x ∈ s.erase a ↔ x ∈ s ∧ x ≠ a := by
  simp [erase]

@[simp]
theorem mem_diff {s t : OrdSet α} {a : α} : a ∈ s.diff t ↔ a ∈ s ∧ a ∉ t := by
  simp [diff]

@[simp]
theorem not_mem_empty {a : α} : a ∉ (empty : OrdSet α) := List.not_mem_nil

@[simp]
theorem mem_insert {s : OrdSet α} {a x : α} : x ∈ s.insert a ↔ x = a ∨ x ∈ s := mem_insertElem

@[simp]
theorem mem_insertAll {s : OrdSet α} {as : List α} {x : α} :
    x ∈ s.insertAll as ↔ x ∈ s ∨ x ∈ as := by
  induction as generalizing s with
  | nil => simp [insertAll]
  | cons a as ih =>
    rw [insertAll, List.foldl_cons]
    rw [← insertAll, ih, mem_insert, List.mem_cons]
    tauto

@[simp]
theorem mem_eraseAll {s : OrdSet α} {as : List α} {x : α} :
    x ∈ s.eraseAll as ↔ x ∈ s ∧ x ∉ as := by
  induction as generalizing s with
  | nil => simp [eraseAll]
  | cons a as ih =>
    rw [eraseAll, List.foldl_cons]
    rw [← eraseAll, ih, mem_erase, List.mem_cons]
    tauto

theorem size_eq_card (s : OrdSet α) : s.size = s.elems.toFinset.card :=
  (List.toFinset_card_of_nodup s.nodup).symm

theorem size_eq_zero {s : OrdSet α} : s.size = 0 ↔ ∀ a, a ∉ s :=
  List.length_eq_zero_iff.trans List.eq_nil_iff_forall_not_mem

theorem size_eq_card_of_mem_iff {s : OrdSet α} {t : Finset α} (h : ∀ a, a ∈ s ↔ a ∈ t) :
    s.size = t.card := by
  rw [size_eq_card]
  congr 1
  ext a
  rw [List.mem_toFinset, mem_elems, h]

/-- Two sets apart have as many elements as a set around them just when they cover it. -/
theorem size_add_size_eq_iff {s t u : OrdSet α} (hs : ∀ a ∈ s, a ∈ u) (ht : ∀ a ∈ t, a ∈ u)
    (hdisj : ∀ a ∈ s, a ∉ t) : s.size + t.size = u.size ↔ ∀ a ∈ u, a ∈ s ∨ a ∈ t := by
  have hd : Disjoint s.elems.toFinset t.elems.toFinset := by
    rw [Finset.disjoint_left]
    intro x hx hx'
    exact hdisj x (List.mem_toFinset.mp hx) (List.mem_toFinset.mp hx')
  have hsub : s.elems.toFinset ∪ t.elems.toFinset ⊆ u.elems.toFinset := by
    intro x hx
    cases Finset.mem_union.mp hx with
    | inl hx => exact List.mem_toFinset.mpr (hs x (List.mem_toFinset.mp hx))
    | inr hx => exact List.mem_toFinset.mpr (ht x (List.mem_toFinset.mp hx))
  rw [size_eq_card, size_eq_card, size_eq_card, ← Finset.card_union_of_disjoint hd]
  constructor
  · intro hcard a ha
    have heq := Finset.eq_of_subset_of_card_le hsub hcard.ge
    have hmem : a ∈ s.elems.toFinset ∪ t.elems.toFinset := heq ▸ List.mem_toFinset.mpr ha
    simpa [mem_elems] using hmem
  · intro hcover
    congr 1
    apply Finset.Subset.antisymm hsub
    intro a ha
    simpa [mem_elems] using hcover a (List.mem_toFinset.mp ha)

end OrdSet

end ParLib.Foundations
