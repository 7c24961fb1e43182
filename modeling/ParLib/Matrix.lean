import Mathlib

/-!
# The weight matrix

A loaded matrix holds `size` rows of `size` bytes. `sum` adds, for every
listed vertex, the weights to the vertices that are not listed; `getNeigh`
lists the columns of positive weight.
-/

namespace ParLib

set_option autoImplicit false

structure Matrix where
  size : Nat
  array : List (List UInt8)
  rows : array.length = size
  cols : ∀ row ∈ array, row.length = size

namespace Matrix

def get (M : Matrix) (x y : Nat) : UInt8 := (M.array.getD x []).getD y 0

/-- The scratch array `vertTemp`: 0 at the listed vertices, 1 elsewhere. -/
def vertTemp (M : Matrix) (vertSet : List Nat) : List Int :=
  vertSet.foldl (fun temp i => temp.set i 0) (List.replicate M.size 1)

/-- One pass of the outer loop of `sum`, with the accumulator `mySum`. -/
def addRow (M : Matrix) (vertTemp : List Int) (mySum : UInt32) (t : Nat) : UInt32 :=
  (List.range M.size).foldl
    (fun mySum j => if vertTemp.getD j 0 ≠ 0 then mySum + (M.get t j).toUInt32 else mySum) mySum

def sum (M : Matrix) (vertSet : List Nat) : Int32 :=
  (vertSet.foldl (M.addRow (M.vertTemp vertSet)) 0).toInt32

def getNeigh (M : Matrix) (idx : Nat) : List Nat :=
  (List.range M.size).filter fun i => 0 < M.get idx i

/-- The matrix of a weight function. -/
def ofFn (size : Nat) (weight : Nat → Nat → UInt8) : Matrix where
  size := size
  array := (List.range size).map fun x => (List.range size).map (weight x)
  rows := by simp
  cols := by simp

theorem get_ofFn {size x y : Nat} (weight : Nat → Nat → UInt8) (hx : x < size) (hy : y < size) :
    (ofFn size weight).get x y = weight x y := by
  simp [get, ofFn, List.getD_eq_getElem?_getD, hx, hy]

@[simp]
theorem mem_getNeigh {M : Matrix} {idx v : Nat} :
    v ∈ M.getNeigh idx ↔ v < M.size ∧ 0 < M.get idx v := by
  simp [getNeigh]

theorem getNeigh_nodup (M : Matrix) (idx : Nat) : (M.getNeigh idx).Nodup :=
  List.nodup_range.filter _

theorem getD_foldl_set (vs : List Nat) (temp : List Int) (j : Nat) (hj : j < temp.length) :
    (vs.foldl (fun temp i => temp.set i 0) temp).getD j 0 =
      if j ∈ vs then 0 else temp.getD j 0 := by
  induction vs generalizing temp with
  | nil => simp
  | cons v vs ih =>
    rw [List.foldl_cons, ih (temp.set v 0) (by rwa [List.length_set])]
    by_cases hv : v = j
    · subst hv
      simp [List.getD_eq_getElem?_getD, hj]
    · simp [List.getD_eq_getElem?_getD, List.getElem?_set_ne hv, Ne.symm hv]

theorem vertTemp_eq (M : Matrix) (vertSet : List Nat) (j : Nat) (hj : j < M.size) :
    (M.vertTemp vertSet).getD j 0 = if j ∈ vertSet then 0 else 1 := by
  rw [vertTemp, getD_foldl_set _ _ _ (by rwa [List.length_replicate])]
  simp [List.getD_eq_getElem?_getD, hj]

/-- The weights of one row outside the vertex set, as an exact number. -/
def outWeight (M : Matrix) (vertSet : List Nat) (t : Nat) : Nat :=
  ∑ j ∈ Finset.range M.size with j ∉ vertSet, (M.get t j).toNat

theorem toNat_addRow (M : Matrix) (vertSet : List Nat) (mySum : UInt32) (t : Nat) :
    (M.addRow (M.vertTemp vertSet) mySum t).toNat =
      (mySum.toNat + M.outWeight vertSet t) % 2 ^ 32 := by
  have h : ∀ n ≤ M.size,
      ((List.range n).foldl (fun mySum j => if (M.vertTemp vertSet).getD j 0 ≠ 0 then
        mySum + (M.get t j).toUInt32 else mySum) mySum).toNat =
      (mySum.toNat + ∑ j ∈ Finset.range n with j ∉ vertSet, (M.get t j).toNat) % 2 ^ 32 := by
    intro n hn
    induction n with
    | zero => simp [Nat.mod_eq_of_lt mySum.toNat_lt]
    | succ n ih =>
      rw [List.range_succ, List.foldl_append, List.foldl_cons, List.foldl_nil,
        M.vertTemp_eq vertSet n hn, Finset.range_add_one, Finset.filter_insert]
      by_cases hmem : n ∈ vertSet
      · simpa [hmem] using ih (by omega)
      · have hn' : n ∉ (Finset.range n).filter (fun j => j ∉ vertSet) := by simp
        simp only [hmem, not_false_eq_true, if_true, if_false, ne_eq, one_ne_zero,
          Finset.sum_insert hn', UInt32.toNat_add, UInt8.toNat_toUInt32]
        rw [ih (by omega)]
        omega
  exact h M.size le_rfl

theorem toNat_sum (M : Matrix) (vertSet : List Nat) :
    (M.sum vertSet).toUInt32.toNat = (vertSet.map (M.outWeight vertSet)).sum % 2 ^ 32 := by
  have h : ∀ (ts : List Nat) (mySum : UInt32),
      (ts.foldl (M.addRow (M.vertTemp vertSet)) mySum).toNat =
        (mySum.toNat + (ts.map (M.outWeight vertSet)).sum) % 2 ^ 32 := by
    intro ts
    induction ts with
    | nil => intro mySum; simp [Nat.mod_eq_of_lt mySum.toNat_lt]
    | cons t ts ih =>
      intro mySum
      rw [List.foldl_cons, ih, toNat_addRow, List.map_cons, List.sum_cons]
      omega
  rw [sum, UInt32.toUInt32_toInt32, h]
  simp

end Matrix

end ParLib
