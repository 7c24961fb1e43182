import Mathlib

/-!
# Every n-th item of a list

The items at the positions of one residue class, in their order. Taking every
k-th of every m-th item takes every (k * m)-th.
-/

namespace ParLib.Foundations

set_option autoImplicit false

universe u

variable {α : Type u}

/-- The items at the positions congruent to `i` modulo `m`. -/
def stride (m i : Nat) (xs : List α) : List α :=
  (List.range xs.length).filterMap fun p => if p % m = i % m then xs[p]? else none

/-- The positions of a residue class below `n`, one after the other. -/
theorem filter_range_mod {m i : Nat} (hi : i < m) (n : Nat) :
    (List.range n).filter (fun p => p % m = i) =
      (List.range ((n - i + m - 1) / m)).map fun t => i + t * m := by
  have hm : 0 < m := Nat.zero_lt_of_lt hi
  have hlt : ∀ t, t < (n - i + m - 1) / m ↔ i + t * m < n := by
    intro t
    rw [← Nat.add_one_le_iff, Nat.le_div_iff_mul_le hm, Nat.add_mul]
    omega
  have hfiltered : ((List.range n).filter fun p => p % m = i).Pairwise (· < ·) :=
    List.pairwise_lt_range.filter _
  have hlisted : ((List.range ((n - i + m - 1) / m)).map fun t => i + t * m).Pairwise
      (· < ·) := by
    rw [List.pairwise_map]
    apply List.pairwise_lt_range.imp
    intro s t hst
    have hmul := Nat.mul_lt_mul_of_pos_right hst hm
    omega
  apply List.Perm.eq_of_pairwise' hfiltered hlisted
  rw [List.perm_ext_iff_of_nodup (hfiltered.imp fun h => h.ne) (hlisted.imp fun h => h.ne)]
  intro p
  simp only [List.mem_filter, List.mem_map, List.mem_range, decide_eq_true_eq, hlt]
  constructor
  · rintro ⟨hp, hmod⟩
    have hdiv := Nat.mod_add_div p m
    rw [hmod, Nat.mul_comm] at hdiv
    exact ⟨p / m, by omega, hdiv⟩
  · rintro ⟨t, ht, rfl⟩
    exact ⟨ht, by rw [Nat.add_mul_mod_self_right, Nat.mod_eq_of_lt hi]⟩

theorem getElem?_stride {m i : Nat} (hi : i < m) (xs : List α) (t : Nat) :
    (stride m i xs)[t]? = xs[i + t * m]? := by
  have hm : 0 < m := Nat.zero_lt_of_lt hi
  have hget : ∀ (ps : List Nat), (∀ p ∈ ps, p < xs.length) →
      ∀ t : Nat, (ps.filterMap fun p => xs[p]?)[t]? = ps[t]?.bind fun p => xs[p]? := by
    intro ps
    induction ps with
    | nil => simp
    | cons p ps ih =>
      intro hps t
      rw [List.filterMap_cons, List.getElem?_eq_getElem (hps p List.mem_cons_self)]
      cases t with
      | zero => simp [List.getElem?_eq_getElem (hps p List.mem_cons_self)]
      | succ t => exact ih (fun q hq => hps q (List.mem_cons_of_mem p hq)) t
  have hstride : stride m i xs =
      ((List.range xs.length).filter fun p => p % m = i).filterMap fun p => xs[p]? := by
    rw [stride, List.filterMap_filter, Nat.mod_eq_of_lt hi]
    simp only [decide_eq_true_eq]
  rw [hstride, hget]
  · rw [filter_range_mod hi, List.getElem?_map]
    by_cases ht : t < (xs.length - i + m - 1) / m
    · rw [List.getElem?_range ht]
      rfl
    · have hnone : xs.length ≤ i + t * m := by
        rw [not_lt, Nat.div_le_iff_le_mul_add_pred hm] at ht
        rw [Nat.mul_comm t m]
        omega
      rw [List.getElem?_eq_none hnone,
        List.getElem?_eq_none (by rwa [List.length_range, ← not_lt])]
      rfl
  · intro p hp
    exact List.mem_range.mp (List.mem_filter.mp hp).1

@[simp]
theorem stride_one (xs : List α) : stride 1 0 xs = xs := by
  apply List.ext_getElem?
  intro t
  rw [getElem?_stride Nat.one_pos, Nat.zero_add, Nat.mul_one]

/-- Every k-th item of every m-th. -/
theorem stride_stride {m i k j : Nat} (hi : i < m) (hj : j < k) (xs : List α) :
    stride k j (stride m i xs) = stride (k * m) (i + j * m) xs := by
  have hlt : i + j * m < k * m := by
    calc i + j * m < m + j * m := Nat.add_lt_add_right hi _
      _ = (j + 1) * m := by rw [Nat.add_mul, Nat.one_mul, Nat.add_comm]
      _ ≤ k * m := Nat.mul_le_mul_right m hj
  apply List.ext_getElem?
  intro t
  rw [getElem?_stride hj, getElem?_stride hi, getElem?_stride hlt]
  congr 1
  ring

theorem stride_ne_nil {m i : Nat} (hi : i < m) {xs : List α} (h : i < xs.length) :
    stride m i xs ≠ [] := by
  intro hnil
  have hget := getElem?_stride hi xs 0
  rw [hnil, Nat.zero_mul, Nat.add_zero, List.getElem?_eq_getElem h] at hget
  cases hget

end ParLib.Foundations
