import Mathlib

/-!
# Handing things over

What a number of holders hold, and a list of handovers: the first of a pair
hands all it holds over to the second. Handovers that touch every holder at
most once, and go to holders of nothing, keep the total.
-/

namespace ParLib.Foundations

set_option autoImplicit false

universe u v w

variable {α : Type u} {β : Type v}

theorem fst_zip_isPrefix (xs : List α) (ys : List β) : (xs.zip ys).map Prod.fst <+: xs := by
  induction xs generalizing ys with
  | nil => simp
  | cons x xs ih =>
    cases ys with
    | nil => simp
    | cons y ys => simpa [List.prefix_cons_inj] using ih ys

theorem snd_zip_isPrefix (xs : List α) (ys : List β) : (xs.zip ys).map Prod.snd <+: ys := by
  induction ys generalizing xs with
  | nil => simp
  | cons y ys ih =>
    cases xs with
    | nil => simp
    | cons x xs => simpa [List.prefix_cons_inj] using ih xs

/-- Nobody hands over twice, nobody is given twice, and nobody does both. -/
structure TouchOnce (moves : List (α × α)) : Prop where
  givers : (moves.map Prod.fst).Nodup
  takers : (moves.map Prod.snd).Nodup
  apart : ∀ k ∈ moves.map Prod.fst, k ∉ moves.map Prod.snd

variable {p : α × α} {moves : List (α × α)}

theorem TouchOnce.tail (h : TouchOnce (p :: moves)) : TouchOnce moves where
  givers := (List.nodup_cons.mp h.givers).2
  takers := (List.nodup_cons.mp h.takers).2
  apart k hk hk' := h.apart k (List.mem_cons_of_mem _ hk) (List.mem_cons_of_mem _ hk')

theorem TouchOnce.head_not_mem (h : TouchOnce (p :: moves)) :
    (p.1 ∉ moves.map Prod.fst ∧ p.1 ∉ moves.map Prod.snd) ∧
      p.2 ∉ moves.map Prod.fst ∧ p.2 ∉ moves.map Prod.snd := by
  refine ⟨⟨(List.nodup_cons.mp h.givers).1, ?_⟩, ?_, (List.nodup_cons.mp h.takers).1⟩
  · intro hmem
    exact h.apart p.1 List.mem_cons_self (List.mem_cons_of_mem _ hmem)
  · intro hmem
    exact h.apart p.2 (List.mem_cons_of_mem _ hmem) List.mem_cons_self

theorem TouchOnce.head_ne (h : TouchOnce (p :: moves)) : p.2 ≠ p.1 := by
  intro heq
  apply h.apart p.1 List.mem_cons_self
  rw [← heq]
  exact List.mem_cons_self

/-- The pairs of two lists without repetitions and without a common member. -/
theorem touchOnce_zip {givers takers : List α} (hgivers : givers.Nodup) (htakers : takers.Nodup)
    (hapart : ∀ k ∈ givers, k ∉ takers) : TouchOnce (givers.zip takers) where
  givers := hgivers.sublist (fst_zip_isPrefix givers takers).sublist
  takers := htakers.sublist (snd_zip_isPrefix givers takers).sublist
  apart k hk hk' :=
    hapart k ((fst_zip_isPrefix givers takers).mem hk) ((snd_zip_isPrefix givers takers).mem hk')

variable [DecidableEq α] {nothing : β}

/-- What is held once `p.1` has handed everything over to `p.2`. -/
def handOver (nothing : β) (holds : α → β) (p : α × α) : α → β :=
  fun k => if k = p.1 then nothing else if k = p.2 then holds p.1 else holds k

theorem foldl_handOver_of_not_mem {k : α} (holds : α → β) (hgiver : k ∉ moves.map Prod.fst)
    (htaker : k ∉ moves.map Prod.snd) : moves.foldl (handOver nothing) holds k = holds k := by
  induction moves generalizing holds with
  | nil => rfl
  | cons p moves ih =>
    rw [List.map_cons, List.mem_cons, not_or] at hgiver htaker
    rw [List.foldl_cons, ih _ hgiver.2 htaker.2, handOver, if_neg hgiver.1, if_neg htaker.1]

theorem foldl_handOver_giver (h : TouchOnce moves) (holds : α → β) (hp : p ∈ moves) :
    moves.foldl (handOver nothing) holds p.1 = nothing := by
  induction moves generalizing holds with
  | nil => cases hp
  | cons q moves ih =>
    rw [List.foldl_cons]
    cases hp with
    | head =>
      rw [foldl_handOver_of_not_mem _ h.head_not_mem.1.1 h.head_not_mem.1.2, handOver, if_pos rfl]
    | tail _ hp => exact ih h.tail _ hp

theorem foldl_handOver_taker (h : TouchOnce moves) (holds : α → β) (hp : p ∈ moves) :
    moves.foldl (handOver nothing) holds p.2 = holds p.1 := by
  induction moves generalizing holds with
  | nil => cases hp
  | cons q moves ih =>
    rw [List.foldl_cons]
    cases hp with
    | head =>
      rw [foldl_handOver_of_not_mem _ h.head_not_mem.2.1 h.head_not_mem.2.2, handOver,
        if_neg h.head_ne, if_pos rfl]
    | tail _ hp =>
      have hfst : p.1 ∈ moves.map Prod.fst := List.mem_map_of_mem hp
      have hgiver : p.1 ≠ q.1 := fun heq => h.head_not_mem.1.1 (heq ▸ hfst)
      have htaker : p.1 ≠ q.2 := fun heq => h.head_not_mem.2.1 (heq ▸ hfst)
      rw [ih h.tail _ hp, handOver, if_neg hgiver, if_neg htaker]

section Total

variable {M : Type w} [AddCommMonoid M] {value : β → M} {holders : Finset α}

theorem sum_handOver (hnothing : value nothing = 0) {holds : α → β} (hne : p.2 ≠ p.1)
    (hgiver : p.1 ∈ holders) (htaker : p.2 ∈ holders) (hfree : value (holds p.2) = 0) :
    ∑ k ∈ holders, value (handOver nothing holds p k) = ∑ k ∈ holders, value (holds k) := by
  have htaker' : p.2 ∈ holders.erase p.1 := Finset.mem_erase.mpr ⟨hne, htaker⟩
  have hrest : ∀ k ∈ (holders.erase p.1).erase p.2,
      value (handOver nothing holds p k) = value (holds k) := by
    intro k hk
    obtain ⟨hk2, hk⟩ := Finset.mem_erase.mp hk
    rw [handOver, if_neg (Finset.ne_of_mem_erase hk), if_neg hk2]
  rw [← Finset.add_sum_erase _ _ hgiver, ← Finset.add_sum_erase _ _ htaker',
    ← Finset.add_sum_erase _ (fun k => value (holds k)) hgiver,
    ← Finset.add_sum_erase _ (fun k => value (holds k)) htaker', Finset.sum_congr rfl hrest,
    hfree, handOver, if_pos rfl, hnothing, handOver, if_neg hne, if_pos rfl, zero_add, zero_add]

/-- Handovers to holders of nothing keep the total. -/
theorem sum_foldl_handOver (hnothing : value nothing = 0) (h : TouchOnce moves) {holds : α → β}
    (hgivers : ∀ p ∈ moves, p.1 ∈ holders) (htakers : ∀ p ∈ moves, p.2 ∈ holders)
    (hfree : ∀ p ∈ moves, value (holds p.2) = 0) :
    ∑ k ∈ holders, value (moves.foldl (handOver nothing) holds k) =
      ∑ k ∈ holders, value (holds k) := by
  induction moves generalizing holds with
  | nil => rfl
  | cons p moves ih =>
    have hstep := sum_handOver hnothing h.head_ne (hgivers p List.mem_cons_self)
      (htakers p List.mem_cons_self) (hfree p List.mem_cons_self)
    rw [List.foldl_cons, ih h.tail, hstep]
    · exact fun q hq => hgivers q (List.mem_cons_of_mem p hq)
    · exact fun q hq => htakers q (List.mem_cons_of_mem p hq)
    · intro q hq
      have hsnd : q.2 ∈ moves.map Prod.snd := List.mem_map_of_mem hq
      have hgiver : q.2 ≠ p.1 := fun heq => h.head_not_mem.1.2 (heq ▸ hsnd)
      have htaker : q.2 ≠ p.2 := fun heq => h.head_not_mem.2.2 (heq ▸ hsnd)
      rw [handOver, if_neg hgiver, if_neg htaker]
      exact hfree q (List.mem_cons_of_mem p hq)

end Total

end ParLib.Foundations
