import ParLib.PathSearch

/-!
# Searches that are divided on the way

A pending search may be divided at any time between two calls of `compute`,
and its parts divided again. However it is cut, it pops the states below what
was pending and ends with the best of them.
-/

namespace ParLib.MaximumCut

set_option autoImplicit false

open Foundations

/-- A search run to its end, with any divisions on the way: the states popped from
here on by all its parts, and the largest of the starting best and the final ones. -/
inductive DividedRun : MaximumCut → Multiset Path → Nat → Prop
  | last {mc mc' : MaximumCut} {ps : List Path} (h : mc.compute = some (true, mc'))
      (hps : mc'.popped = mc.popped ++ ps) : DividedRun mc ps mc'.bestMax.toNat
  | again {mc mc' : MaximumCut} {ps : List Path} {popped : Multiset Path} {best : Nat}
      (h : mc.compute = some (false, mc')) (hps : mc'.popped = mc.popped ++ ps)
      (rest : DividedRun mc' popped best) : DividedRun mc (ps + popped) best
  | divide {mc : MaximumCut} {count : Nat} (hcount : 1 ≤ count)
      {start : Fin (getParallelStacks mc.states.data count).length → UInt32}
      (hstart : ∀ i, start i ≤ mc.bestMax)
      {popped : Fin (getParallelStacks mc.states.data count).length → Multiset Path}
      {best : Fin (getParallelStacks mc.states.data count).length → Nat}
      (parts : ∀ i, DividedRun
        ⟨(getParallelStacks mc.states.data count).get i, start i, mc.matrix, []⟩
        (popped i) (best i)) :
      DividedRun mc (∑ i, popped i) (max mc.bestMax.toNat (Finset.univ.sup best))

def IsBestOf (M : Matrix) (popped : Multiset Path) (start best : Nat) : Prop :=
  ∀ w, best ≤ w ↔ start ≤ w ∧ ∀ s ∈ popped, (M.sum s).toUInt32.toNat ≤ w

theorem isBestOf_bestOf (M : Matrix) (ps : List Path) (start : Nat) :
    IsBestOf M ps start (bestOf M ps start) := fun _ => bestOf_le_iff

theorem IsBestOf.unique {M : Matrix} {popped : Multiset Path} {start best best' : Nat}
    (h : IsBestOf M popped start best) (h' : IsBestOf M popped start best') : best = best' :=
  le_antisymm ((h best').mpr ((h' best').mp le_rfl)) ((h' best).mpr ((h best).mp le_rfl))

theorem IsBestOf.append {M : Matrix} {ps : List Path} {popped : Multiset Path}
    {start best : Nat} (h : IsBestOf M popped (bestOf M ps start) best) :
    IsBestOf M (ps + popped) start best := by
  intro w
  rw [h w, bestOf_le_iff]
  simp only [Multiset.mem_add, Multiset.mem_coe, or_imp, forall_and, and_assoc]

theorem forest_contents (T : SearchTree Path) (pars : List (ParallelStack Path)) :
    T.forest (contents pars) = ∑ i, T.forest (pars.get i).data := by
  induction pars with
  | nil => simp
  | cons par pars ih =>
    rw [contents_cons, SearchTree.forest_add, ih]
    exact (Fin.sum_univ_succ fun i => T.forest (((par :: pars).get i).data : Multiset Path)).symm

/-- What a divided search pops and finds depends on what is pending alone. -/
theorem DividedRun.spec {mc : MaximumCut} {popped : Multiset Path} {best : Nat}
    (h : DividedRun mc popped best) :
    popped = mc.matrix.searchTree.forest mc.states.data ∧
      IsBestOf mc.matrix popped mc.bestMax.toNat best := by
  induction h with
  | last h hps =>
    obtain ⟨qs, hqs, hempty, -⟩ := compute_explored h
    obtain rfl := List.append_cancel_left (hqs.popped.symm.trans hps)
    have hforest := hqs.forest
    rw [hempty rfl] at hforest
    refine ⟨by simpa using hforest.symm, ?_⟩
    rw [hqs.best]
    exact isBestOf_bestOf _ _ _
  | again h hps _ ih =>
    obtain ⟨qs, hqs, -, -⟩ := compute_explored h
    obtain rfl := List.append_cancel_left (hqs.popped.symm.trans hps)
    obtain ⟨hpopped, hbest⟩ := ih
    rw [hqs.matrix] at hpopped hbest
    constructor
    · rw [hpopped, hqs.forest]
    · rw [hqs.best] at hbest
      exact hbest.append
  | @divide mc count hcount start hstart popped best _ ih =>
    constructor
    · calc ∑ i, popped i
          = ∑ i, mc.matrix.searchTree.forest
              ((getParallelStacks mc.states.data count).get i).data :=
            Finset.sum_congr rfl fun i _ => (ih i).1
        _ = mc.matrix.searchTree.forest mc.states.data := by
            rw [← forest_contents, getParallelStacks_contents]
    · intro w
      simp only [max_le_iff, Finset.sup_le_iff, Finset.mem_univ, true_implies, Multiset.mem_sum,
        true_and]
      constructor
      · rintro ⟨hbest, hparts⟩
        refine ⟨hbest, ?_⟩
        rintro s ⟨i, hs⟩
        exact (((ih i).2 w).mp (hparts i)).2 s hs
      · rintro ⟨hbest, hall⟩
        refine ⟨hbest, fun i => ((ih i).2 w).mpr ⟨?_, fun s hs => hall s ⟨i, hs⟩⟩⟩
        exact (UInt32.le_iff_toNat_le.mp (hstart i)).trans hbest

theorem ComputeRun.dividedRun {mc final : MaximumCut} (h : ComputeRun mc final) :
    ∃ popped, (final.popped : Multiset Path) = mc.popped + popped ∧
      DividedRun mc popped final.bestMax.toNat := by
  induction h with
  | last h =>
    obtain ⟨ps, hps, -, -⟩ := compute_explored h
    exact ⟨ps, by rw [hps.popped, Multiset.coe_add], .last h hps.popped⟩
  | again h _ ih =>
    obtain ⟨ps, hps, -, -⟩ := compute_explored h
    obtain ⟨popped, hpopped, hrun⟩ := ih
    refine ⟨ps + popped, ?_, .again h hps.popped hrun⟩
    rw [hpopped, hps.popped, ← Multiset.coe_add, add_assoc]

/-- Each part of a division can be run to its end. -/
theorem exists_dividedRun (mc : MaximumCut) (hmc : 1 ≤ mc.matrix.size) (par : ParallelStack Path)
    (start : UInt32) : ∃ popped best, DividedRun ⟨par, start, mc.matrix, []⟩ popped best := by
  obtain ⟨final, hrun⟩ := exists_computeRun ⟨par, start, mc.matrix, []⟩ hmc
  obtain ⟨popped, -, h⟩ := hrun.dividedRun
  exact ⟨popped, _, h⟩

/-- However a search is divided on the way, and into any number of parts, its answer is that of the
search that is left whole. -/
theorem dividing_keeps_the_answer (mc : MaximumCut) (hmc : 1 ≤ mc.matrix.size) :
    ∃ final, ComputeRun mc final ∧
      (∀ popped best, DividedRun mc popped best →
        best = final.bestMax.toNat ∧ (final.popped : Multiset Path) = mc.popped + popped) ∧
      ∀ count, 1 ≤ count → (getParallelStacks mc.states.data count).length = count ∧
        ∀ start : Fin (getParallelStacks mc.states.data count).length → UInt32,
          (∀ i, start i ≤ mc.bestMax) → ∃ (popped : _ → Multiset Path) (best : _ → Nat),
            (∀ i, DividedRun
              ⟨(getParallelStacks mc.states.data count).get i, start i, mc.matrix, []⟩
              (popped i) (best i)) ∧
            max mc.bestMax.toNat (Finset.univ.sup best) = final.bestMax.toNat ∧
            (final.popped : Multiset Path) = mc.popped + ∑ i, popped i := by
  obtain ⟨final, hrun⟩ := exists_computeRun mc hmc
  obtain ⟨whole, hwhole, hundivided⟩ := hrun.dividedRun
  have hanswer : ∀ popped best, DividedRun mc popped best →
      best = final.bestMax.toNat ∧ (final.popped : Multiset Path) = mc.popped + popped := by
    intro popped best h
    obtain ⟨hpopped, hbest⟩ := h.spec
    obtain ⟨hpopped', hbest'⟩ := hundivided.spec
    obtain rfl : popped = whole := hpopped.trans hpopped'.symm
    exact ⟨hbest.unique hbest', hwhole⟩
  refine ⟨final, hrun, hanswer, fun count hcount => ?_⟩
  refine ⟨getParallelStacks_length mc.states.data count hcount, fun start hstart => ?_⟩
  have hparts := fun i => exists_dividedRun mc hmc
    ((getParallelStacks mc.states.data count).get i) (start i)
  choose popped best parts using hparts
  exact ⟨popped, best, parts, hanswer _ _ (.divide hcount hstart parts)⟩

/-- The two vertices of an edge, one for each of two parts. -/
theorem dividing_keeps_the_answer_edge :
    1 ≤ (new edgeMatrix).populateStates.matrix.size ∧
      getParallelStacks (new edgeMatrix).populateStates.states.data 2 = [⟨[[0]]⟩, ⟨[[1]]⟩] ∧
      ∃ final, ComputeRun (new edgeMatrix).populateStates final ∧
        ∃ (popped : _ → Multiset Path) (best : _ → Nat),
          (∀ i, DividedRun ⟨(getParallelStacks (new edgeMatrix).populateStates.states.data 2).get i,
            0, edgeMatrix, []⟩ (popped i) (best i)) ∧
          max 0 (Finset.univ.sup best) = final.bestMax.toNat ∧
          (final.popped : Multiset Path) = ∑ i, popped i := by
  have hsize : 1 ≤ (new edgeMatrix).populateStates.matrix.size := by decide
  obtain ⟨final, hrun, -, hdivide⟩ := dividing_keeps_the_answer _ hsize
  obtain ⟨-, hparts⟩ := hdivide 2 (by decide)
  obtain ⟨popped, best, parts, hbest, hpopped⟩ := hparts (fun _ => 0) (fun _ => by decide)
  have hnone : (new edgeMatrix).populateStates.popped = [] := rfl
  rw [hnone, Multiset.coe_nil, zero_add] at hpopped
  exact ⟨hsize, by decide, final, hrun, popped, best, parts, hbest, hpopped⟩

end ParLib.MaximumCut
