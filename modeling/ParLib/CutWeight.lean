import ParLib.PathSearch

/-!
# The search and the maximum cut

For a symmetric matrix the sum of a simple path is the weight of the cut
between its vertices and the others. The search therefore ends with the best
cut that has the vertices of a simple path on one side, and with the maximum
cut just when some maximum cut is of that kind.
-/

namespace ParLib

set_option autoImplicit false

namespace Matrix

open MaximumCut (edgeMatrix)

/-- The total weight between `S` and its complement. -/
def cutWeight (M : Matrix) (S : Finset Nat) : Nat :=
  ∑ i ∈ S, ∑ j ∈ Finset.range M.size \ S, (M.get i j).toNat

def maxCut (M : Matrix) : Nat := (Finset.range M.size).powerset.sup M.cutWeight

def totalWeight (M : Matrix) : Nat :=
  ∑ j ∈ Finset.range M.size, ∑ i ∈ Finset.range j, (M.get i j).toNat

def IsSymmetric (M : Matrix) : Prop := ∀ i < M.size, ∀ j < M.size, M.get i j = M.get j i

def HasZeroDiagonal (M : Matrix) : Prop := ∀ i < M.size, M.get i i = 0

instance (M : Matrix) : Decidable M.IsSymmetric :=
  inferInstanceAs (Decidable (∀ i < M.size, ∀ j < M.size, M.get i j = M.get j i))

instance (M : Matrix) : Decidable M.HasZeroDiagonal :=
  inferInstanceAs (Decidable (∀ i < M.size, M.get i i = 0))

/-- The exact sum over a listed state, repeated vertices counted again. -/
def listedWeight (M : Matrix) (s : Path) : Nat := (s.map (M.outWeight s)).sum

theorem listedWeight_eq_cutWeight (M : Matrix) (s : Path) (hs : s.Nodup) :
    M.listedWeight s = M.cutWeight s.toFinset := by
  have hrow : ∀ t, M.outWeight s t =
      ∑ j ∈ Finset.range M.size \ s.toFinset, (M.get t j).toNat := by
    intro t
    rw [outWeight, Finset.sdiff_eq_filter]
    simp
  rw [listedWeight, cutWeight, List.sum_toFinset _ hs, funext hrow]

theorem toNat_sum_eq_cutWeight (M : Matrix) (s : Path) (hs : s.Nodup) :
    (M.sum s).toUInt32.toNat = M.cutWeight s.toFinset % 2 ^ 32 := by
  rw [toNat_sum, ← listedWeight_eq_cutWeight M s hs, listedWeight]

/-- The cut seen from its other side. -/
theorem cutWeight_comm (M : Matrix) (hsymm : M.IsSymmetric) {S : Finset Nat}
    (hS : S ⊆ Finset.range M.size) :
    M.cutWeight S = ∑ i ∈ Finset.range M.size \ S, ∑ j ∈ S, (M.get i j).toNat := by
  rw [cutWeight, Finset.sum_comm]
  apply Finset.sum_congr rfl
  intro j hj
  apply Finset.sum_congr rfl
  intro i hi
  rw [hsymm i (Finset.mem_range.mp (hS hi)) j (Finset.mem_range.mp (Finset.mem_sdiff.mp hj).1)]

theorem cutWeight_sdiff (M : Matrix) (hsymm : M.IsSymmetric) {S : Finset Nat}
    (hS : S ⊆ Finset.range M.size) :
    M.cutWeight (Finset.range M.size \ S) = M.cutWeight S := by
  rw [M.cutWeight_comm hsymm hS, cutWeight, Finset.sdiff_sdiff_eq_self hS]

theorem sum_eq_iff (M : Matrix) {vs ws : Path} :
    M.sum vs = M.sum ws ↔ (M.sum vs).toUInt32.toNat = (M.sum ws).toUInt32.toNat := by
  constructor
  · intro h
    rw [h]
  · intro h
    rw [← (M.sum vs).toInt32_toUInt32, UInt32.toNat_inj.mp h, Int32.toInt32_toUInt32]

/-- The sum depends on the listed set alone, and in a symmetric matrix on the cut alone. -/
theorem sum_is_the_cut_weight (M : Matrix) (vertSet : Path) (hnodup : vertSet.Nodup)
    (hrange : ∀ t ∈ vertSet, t < M.size) :
    (M.sum vertSet).toUInt32.toNat =
      (∑ t ∈ vertSet.toFinset, ∑ j ∈ Finset.range M.size \ vertSet.toFinset,
        (M.get t j).toNat) % 2 ^ 32 ∧
      (∀ listing : Path, listing.Perm vertSet → M.sum listing = M.sum vertSet) ∧
      (M.IsSymmetric → ∀ others : Path, others.Nodup →
        (∀ v, v ∈ others ↔ v < M.size ∧ v ∉ vertSet) → M.sum others = M.sum vertSet) := by
  refine ⟨M.toNat_sum_eq_cutWeight vertSet hnodup, ?_, ?_⟩
  · intro listing hperm
    rw [sum_eq_iff, M.toNat_sum_eq_cutWeight _ (hperm.nodup_iff.mpr hnodup),
      M.toNat_sum_eq_cutWeight _ hnodup, List.toFinset_eq_of_perm _ _ hperm]
  · intro hsymm others hothers hmem
    have hsub : vertSet.toFinset ⊆ Finset.range M.size := by
      intro v hv
      exact Finset.mem_range.mpr (hrange v (List.mem_toFinset.mp hv))
    have hcompl : others.toFinset = Finset.range M.size \ vertSet.toFinset := by
      ext v
      simp [hmem]
    rw [sum_eq_iff, M.toNat_sum_eq_cutWeight _ hothers, M.toNat_sum_eq_cutWeight _ hnodup,
      hcompl, M.cutWeight_sdiff hsymm hsub]

theorem sum_is_the_cut_weight_edge :
    ([0] : Path).Nodup ∧ (∀ t ∈ ([0] : Path), t < edgeMatrix.size) ∧
    (edgeMatrix.sum [0]).toUInt32.toNat =
      (∑ t ∈ ([0] : Path).toFinset, ∑ j ∈ Finset.range edgeMatrix.size \ ([0] : Path).toFinset,
        (edgeMatrix.get t j).toNat) % 2 ^ 32 ∧
      (∀ listing : Path, listing.Perm [0] → edgeMatrix.sum listing = edgeMatrix.sum [0]) ∧
      (edgeMatrix.IsSymmetric → ∀ others : Path, others.Nodup →
        (∀ v, v ∈ others ↔ v < edgeMatrix.size ∧ v ∉ ([0] : Path)) →
        edgeMatrix.sum others = edgeMatrix.sum [0]) :=
  ⟨by decide, by decide, sum_is_the_cut_weight edgeMatrix [0] (by decide) (by decide)⟩

/-- Listing every ordered pair counts every edge twice. -/
theorem sum_entries (M : Matrix) (hsymm : M.IsSymmetric) (hdiag : M.HasZeroDiagonal) :
    ∑ i ∈ Finset.range M.size, ∑ j ∈ Finset.range M.size, (M.get i j).toNat =
      2 * M.totalWeight := by
  have h : ∀ n ≤ M.size, ∑ i ∈ Finset.range n, ∑ j ∈ Finset.range n, (M.get i j).toNat =
      2 * ∑ j ∈ Finset.range n, ∑ i ∈ Finset.range j, (M.get i j).toNat := by
    intro n hn
    induction n with
    | zero => simp
    | succ n ih =>
      have hcol : ∑ i ∈ Finset.range n, (M.get n i).toNat =
          ∑ i ∈ Finset.range n, (M.get i n).toNat := by
        apply Finset.sum_congr rfl
        intro i hi
        rw [hsymm n (by omega) i (by have := Finset.mem_range.mp hi; omega)]
      have hcorner : (M.get n n).toNat = 0 := by
        rw [hdiag n (by omega)]
        rfl
      have hrows : ∑ i ∈ Finset.range n, ∑ j ∈ Finset.range (n + 1), (M.get i j).toNat =
          ∑ i ∈ Finset.range n, ∑ j ∈ Finset.range n, (M.get i j).toNat +
            ∑ i ∈ Finset.range n, (M.get i n).toNat := by
        rw [← Finset.sum_add_distrib]
        exact Finset.sum_congr rfl fun i _ => Finset.sum_range_succ _ n
      rw [Finset.sum_range_succ, Finset.sum_range_succ (fun j => (M.get n j).toNat),
        Finset.sum_range_succ (fun j => ∑ i ∈ Finset.range j, (M.get i j).toNat), hrows,
        ih (by omega), hcol, hcorner]
      omega
  exact h M.size le_rfl

theorem cutWeight_le_totalWeight (M : Matrix) (hsymm : M.IsSymmetric)
    (hdiag : M.HasZeroDiagonal) (S : Finset Nat) (hS : S ⊆ Finset.range M.size) :
    M.cutWeight S ≤ M.totalWeight := by
  have hle : M.cutWeight S + M.cutWeight S ≤ 2 * M.totalWeight := by
    rw [← M.sum_entries hsymm hdiag, ← Finset.sum_sdiff hS]
    nth_rewrite 1 [M.cutWeight_comm hsymm hS]
    apply add_le_add
    · apply Finset.sum_le_sum
      intro i _
      exact Finset.sum_le_sum_of_subset hS
    · apply Finset.sum_le_sum
      intro i _
      exact Finset.sum_le_sum_of_subset Finset.sdiff_subset
  omega

theorem toNat_sum_of_isSimplePath (M : Matrix) (hsymm : M.IsSymmetric)
    (hdiag : M.HasZeroDiagonal) (htotal : M.totalWeight < 2 ^ 31) (s : Path)
    (hs : M.IsSimplePath s) : (M.sum s).toUInt32.toNat = M.cutWeight s.toFinset := by
  have hsub : s.toFinset ⊆ Finset.range M.size := by
    intro v hv
    exact Finset.mem_range.mpr (hs.2.2.1 v (List.mem_toFinset.mp hv))
  have hle := M.cutWeight_le_totalWeight hsymm hdiag _ hsub
  rw [M.toNat_sum_eq_cutWeight s hs.2.1, Nat.mod_eq_of_lt (by omega)]

/-- The vertex sets the search evaluates: none, or those of a simple path. -/
def IsTraceable (M : Matrix) (S : Finset Nat) : Prop :=
  ∃ s : Path, (s = [] ∨ M.IsSimplePath s) ∧ s.toFinset = S

theorem IsTraceable.subset {M : Matrix} {S : Finset Nat} (h : M.IsTraceable S) :
    S ⊆ Finset.range M.size := by
  obtain ⟨s, rfl | hs, rfl⟩ := h
  · simp
  · intro v hv
    exact Finset.mem_range.mpr (hs.2.2.1 v (List.mem_toFinset.mp hv))

end Matrix

namespace MaximumCut

variable {M : Matrix}

theorem values_lt (hsymm : M.IsSymmetric) (hdiag : M.HasZeroDiagonal)
    (htotal : M.totalWeight < 2 ^ 31) : ∀ w ∈ values M, w < 2 ^ 31 := by
  rintro w (rfl | ⟨s, hs, rfl⟩)
  · norm_num
  · have hsub : s.toFinset ⊆ Finset.range M.size := by
      intro v hv
      exact Finset.mem_range.mpr (hs.2.2.1 v (List.mem_toFinset.mp hv))
    rw [M.toNat_sum_of_isSimplePath hsymm hdiag htotal s hs]
    exact (M.cutWeight_le_totalWeight hsymm hdiag _ hsub).trans_lt htotal

theorem ComputeRun.bestMax_isGreatest (_ : 1 ≤ M.size) (hsymm : M.IsSymmetric)
    (hdiag : M.HasZeroDiagonal) (htotal : M.totalWeight < 2 ^ 31) {mc : MaximumCut}
    (h : ComputeRun (new M).populateStates mc) :
    IsGreatest {w | ∃ S, M.IsTraceable S ∧ w = M.cutWeight S} mc.bestMax.toNat := by
  have hsum := M.toNat_sum_of_isSimplePath hsymm hdiag htotal
  have hset : {w | ∃ S, M.IsTraceable S ∧ w = M.cutWeight S} = values M := by
    ext w
    constructor
    · rintro ⟨_, ⟨s, rfl | hs, rfl⟩, rfl⟩
      · exact .inl (by simp [Matrix.cutWeight])
      · exact .inr ⟨s, hs, (hsum s hs).symm⟩
    · rintro (rfl | ⟨s, hs, rfl⟩)
      · exact ⟨∅, ⟨[], .inl rfl, rfl⟩, by simp [Matrix.cutWeight]⟩
      · exact ⟨s.toFinset, ⟨s, .inr hs, rfl⟩, hsum s hs⟩
  rw [hset]
  exact h.isGreatest_values

theorem ComputeRun.getBestMax_toInt (hM : 1 ≤ M.size) (hsymm : M.IsSymmetric)
    (hdiag : M.HasZeroDiagonal) (htotal : M.totalWeight < 2 ^ 31) {mc : MaximumCut}
    (h : ComputeRun (new M).populateStates mc) : mc.getBestMax.toInt = mc.bestMax.toNat := by
  obtain ⟨S, hS, hw⟩ := (h.bestMax_isGreatest hM hsymm hdiag htotal).1
  have hle := M.cutWeight_le_totalWeight hsymm hdiag S hS.subset
  rw [mc.toInt_getBestMax, if_pos (by omega)]

/-- The search ends with the maximum cut just when a maximum cut has an empty side or
a side that a simple path runs through. -/
theorem getBestMax_eq_maxCut_iff (M : Matrix) (hM : 1 ≤ M.size) (hsymm : M.IsSymmetric)
    (hdiag : M.HasZeroDiagonal) (htotal : M.totalWeight < 2 ^ 31) :
    (∃ mc, ComputeRun (new M).populateStates mc) ∧
      ∀ mc, ComputeRun (new M).populateStates mc →
        (mc.getBestMax.toInt = M.maxCut ↔ ∃ S, M.IsTraceable S ∧ M.cutWeight S = M.maxCut) := by
  refine ⟨exists_computeRun _ hM, ?_⟩
  intro mc hrun
  have hbest := hrun.bestMax_isGreatest hM hsymm hdiag htotal
  rw [hrun.getBestMax_toInt hM hsymm hdiag htotal, Nat.cast_inj]
  constructor
  · intro heq
    obtain ⟨S, hS, hw⟩ := hbest.1
    exact ⟨S, hS, hw.symm.trans heq⟩
  · rintro ⟨S, hS, hw⟩
    apply le_antisymm
    · obtain ⟨S', hS', hw'⟩ := hbest.1
      rw [hw']
      exact Finset.le_sup (Finset.mem_powerset.mpr hS'.subset)
    · exact hbest.2 ⟨S, hS, hw.symm⟩

theorem getBestMax_eq_maxCut_iff_edge :
    (1 ≤ edgeMatrix.size ∧ edgeMatrix.IsSymmetric ∧ edgeMatrix.HasZeroDiagonal ∧
      edgeMatrix.totalWeight < 2 ^ 31) ∧
    (∃ mc, ComputeRun (new edgeMatrix).populateStates mc) ∧
      ∀ mc, ComputeRun (new edgeMatrix).populateStates mc →
        (mc.getBestMax.toInt = edgeMatrix.maxCut ↔
          ∃ S, edgeMatrix.IsTraceable S ∧ edgeMatrix.cutWeight S = edgeMatrix.maxCut) :=
  ⟨⟨by decide, by decide, by decide, by decide⟩,
    getBestMax_eq_maxCut_iff edgeMatrix (by decide) (by decide) (by decide) (by decide)⟩

def twoEdgesMatrix : Matrix :=
  ⟨4, [[0, 1, 0, 0], [1, 0, 0, 0], [0, 0, 0, 1], [0, 0, 1, 0]], rfl, by decide⟩

/-- Cutting both edges needs two vertices that no path joins. -/
theorem getBestMax_twoEdges_ne_maxCut :
    ¬ ∀ M : Matrix, 1 ≤ M.size → M.IsSymmetric → M.HasZeroDiagonal → M.totalWeight < 2 ^ 31 →
      ∀ mc, ComputeRun (new M).populateStates mc → mc.getBestMax.toInt = M.maxCut := by
  intro h
  have hrun : ComputeRun (new twoEdgesMatrix).populateStates
      (computeLoop 10 (new twoEdgesMatrix).populateStates).2 := by
    apply ComputeRun.last
    rw [compute, if_neg (by decide)]
    congr 1
  have heq := h twoEdgesMatrix (by decide) (by decide) (by decide) (by decide) _ hrun
  have hbest : (computeLoop 10 (new twoEdgesMatrix).populateStates).2.getBestMax.toInt = 1 := by
    decide +kernel
  have hmax : twoEdgesMatrix.maxCut = 2 := by decide +kernel
  rw [hbest, hmax] at heq
  exact absurd heq (by decide)

end MaximumCut

end ParLib
