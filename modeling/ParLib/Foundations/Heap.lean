import Mathlib

/-!
# A heap of blocks

An address is handed out once, so that a block that was released is never
allocated again. Reading, writing or releasing anything but an allocated block
is an error, and so is a loop with an error in one of its turns.
-/

namespace ParLib.Foundations

set_option autoImplicit false

universe u

variable {β : Type u} {σ : Type u}

/-- The replaced element, or another one that was there before. -/
theorem getElem?_set_cases {l : List β} {i k : Nat} {a b : β} (h : (l.set k a)[i]? = some b) :
    i = k ∧ b = a ∨ i ≠ k ∧ l[i]? = some b := by
  rw [List.getElem?_set] at h
  split at h
  · rename_i heq
    obtain ⟨-, hab⟩ := Option.ite_none_right_eq_some.mp h
    exact .inl ⟨heq.symm, (Option.some.inj hab).symm⟩
  · rename_i hne
    exact .inr ⟨Ne.symm hne, h⟩

structure Heap (β : Type u) where
  blocks : List (Option β)

namespace Heap

def empty : Heap β := ⟨[]⟩

/-- The address of the next block. -/
def fresh (h : Heap β) : Nat := h.blocks.length

def read (h : Heap β) (p : Nat) : Option β := h.blocks[p]?.join

def new (h : Heap β) (b : β) : Heap β := ⟨h.blocks ++ [some b]⟩

def replace (h : Heap β) (p : Nat) (b : Option β) : Option (Heap β) :=
  if (h.read p).isSome then some ⟨h.blocks.set p b⟩ else none

def write (h : Heap β) (p : Nat) (b : β) : Option (Heap β) := h.replace p (some b)

def delete (h : Heap β) (p : Nat) : Option (Heap β) := h.replace p none

variable {h : Heap β}

theorem lt_fresh {p : Nat} {b : β} (hb : h.read p = some b) : p < h.fresh := by
  by_contra hle
  rw [read, List.getElem?_eq_none (not_lt.mp hle)] at hb
  cases hb

theorem read_new (b : β) (p : Nat) :
    (h.new b).read p = if p = h.fresh then some b else h.read p := by
  rw [read, new, read, fresh, List.getElem?_append]
  split
  · rename_i hlt
    rw [if_neg (Nat.ne_of_lt hlt)]
  · rename_i hle
    split
    · rename_i heq
      rw [heq, Nat.sub_self]
      rfl
    · rename_i hne
      have hlast : 1 ≤ p - h.blocks.length := by omega
      rw [List.getElem?_eq_none (by simpa using hlast), List.getElem?_eq_none (not_lt.mp hle)]

@[simp]
theorem fresh_new (b : β) : (h.new b).fresh = h.fresh + 1 := by
  rw [fresh, new, List.length_append, List.length_singleton, fresh]

/-- An allocated block can be replaced or released, and nothing else changes. -/
theorem exists_replace {p : Nat} {b : β} (hb : h.read p = some b) (b' : Option β) :
    ∃ h', h.replace p b' = some h' ∧ h'.fresh = h.fresh ∧
      ∀ q, h'.read q = if q = p then b' else h.read q := by
  have hlt := lt_fresh hb
  refine ⟨⟨h.blocks.set p b'⟩, ?_, ?_, ?_⟩
  · rw [replace, hb]
    rfl
  · rw [fresh, List.length_set, fresh]
  · intro q
    rw [read, read, List.getElem?_set]
    split
    · rename_i heq
      rw [if_pos heq.symm, if_pos (heq ▸ hlt)]
      rfl
    · rename_i hne
      rw [if_neg (Ne.symm hne)]

end Heap

/-- The loop `for (i = 0; i < n; i++)`. -/
def forRange (n : Nat) (body : σ → Nat → Option σ) (s : σ) : Option σ :=
  (List.range n).foldlM body s

/-- What the turns keep holds at the end, and there is no error on the way. -/
theorem forRange_of_invariant {n : Nat} {body : σ → Nat → Option σ} {s : σ} (I : Nat → σ → Prop)
    (hs : I 0 s) (hbody : ∀ i < n, ∀ s, I i s → ∃ s', body s i = some s' ∧ I (i + 1) s') :
    ∃ s', forRange n body s = some s' ∧ I n s' := by
  induction n with
  | zero => exact ⟨s, rfl, hs⟩
  | succ n ih =>
    obtain ⟨s₁, hs₁, hinv⟩ := ih fun i hi => hbody i (Nat.lt_succ_of_lt hi)
    obtain ⟨s₂, hs₂, hinv'⟩ := hbody n (Nat.lt_succ_self n) s₁ hinv
    refine ⟨s₂, ?_, hinv'⟩
    rw [forRange] at hs₁
    rw [forRange, List.range_succ, List.foldlM_append, hs₁]
    simpa using hs₂

/-- A turn that is an error whatever came before it makes the loop one. -/
theorem forRange_eq_none {n i : Nat} {body : σ → Nat → Option σ} (hi : i < n)
    (hbody : ∀ s, body s i = none) (s : σ) : forRange n body s = none := by
  induction n with
  | zero => exact absurd hi (Nat.not_lt_zero i)
  | succ n ih =>
    rw [forRange, List.range_succ, List.foldlM_append]
    cases Nat.lt_succ_iff_lt_or_eq.mp hi with
    | inl hlt =>
      have hnone := ih hlt
      rw [forRange] at hnone
      rw [hnone]
      rfl
    | inr heq =>
      cases (List.range n).foldlM body s with
      | none => rfl
      | some s' => simp [← heq, hbody]

/-- Releasing the first of some blocks. -/
theorem Heap.exists_deleteAll {h : Heap β} {ps : List Nat} {n : Nat} (hn : n ≤ ps.length)
    (hnodup : ps.Nodup) (hlive : ∀ p ∈ ps, (h.read p).isSome = true) :
    ∃ h', forRange n (fun h i => ps[i]?.bind h.delete) h = some h' ∧ h'.fresh = h.fresh ∧
      ∀ q, h'.read q = if q ∈ ps.take n then none else h.read q := by
  apply forRange_of_invariant
    (fun i (h' : Heap β) => h'.fresh = h.fresh ∧
      ∀ q, h'.read q = if q ∈ ps.take i then none else h.read q)
  · exact ⟨rfl, fun q => by simp⟩
  · intro i hi h' ⟨hfresh, hread⟩
    have hi' : i < ps.length := Nat.lt_of_lt_of_le hi hn
    have htake : ps.take (i + 1) = ps.take i ++ [ps[i]] := List.take_succ_eq_append_getElem hi'
    have hnew : ps[i] ∉ ps.take i := by
      have hparts : (ps.take i ++ [ps[i]]).Nodup := by
        rw [← htake]
        exact hnodup.sublist (List.take_sublist _ _)
      exact fun hmem => (List.nodup_append.mp hparts).2.2 _ hmem _ (by simp) rfl
    obtain ⟨b, hb⟩ := Option.isSome_iff_exists.mp (hlive ps[i] (List.getElem_mem hi'))
    obtain ⟨h'', hdelete, hfresh', hread'⟩ := Heap.exists_replace (b := b)
      (by rw [hread, if_neg hnew, hb]) none
    refine ⟨h'', ?_, hfresh'.trans hfresh, ?_⟩
    · rw [List.getElem?_eq_getElem hi']
      exact hdelete
    · intro q
      rw [hread', htake, hread]
      by_cases hq : q = ps[i]
      · simp only [List.mem_append, List.mem_singleton, hq, or_true, if_true]
      · simp only [List.mem_append, List.mem_singleton, hq, or_false, if_false]

end ParLib.Foundations
