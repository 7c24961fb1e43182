import ParLib.CutWeight
import ParLib.Job.MessageBytes

/-!
# What an announced best is worth

The sums are computed modulo 2^32 and announced as signed numbers, and nothing
bounds the size of a matrix. An announcement says what was found as long as
the sums stay below 2^31.
-/

namespace ParLib.Job

set_option autoImplicit false

open Foundations ParallelStack MaximumCut Wire

/-- A worker's search from its start: calls of `compute`, and stacks assigned in between. -/
inductive WorkerRun (M : Matrix) : MaximumCut → Prop
  | start : WorkerRun M (.new M)
  | assign {mc : MaximumCut} (h : WorkerRun M mc) (data : List Path) :
      WorkerRun M (mc.assignData data)
  | compute {mc mc' : MaximumCut} {done : Bool} (h : WorkerRun M mc)
      (hc : mc.compute = some (done, mc')) : WorkerRun M mc'

/-- The worker's best is that of all it has popped, compared as 32-bit numbers. -/
theorem WorkerRun.bestMax_eq {M : Matrix} {mc : MaximumCut} (h : WorkerRun M mc) :
    mc.matrix = M ∧ mc.bestMax.toNat = bestOf M mc.popped 0 := by
  induction h with
  | start => exact ⟨rfl, rfl⟩
  | assign _ data ih => exact ih
  | compute _ hc ih =>
    obtain ⟨ps, hexplored, -, -⟩ := compute_explored hc
    obtain ⟨hmatrix, hbest⟩ := ih
    refine ⟨hexplored.matrix.trans hmatrix, ?_⟩
    rw [hexplored.best, hexplored.popped, hmatrix, hbest, bestOf_append]

theorem WorkerRun.bestMax_isGreatest {M : Matrix} {mc : MaximumCut} (h : WorkerRun M mc) :
    IsGreatest (insert 0 {w | ∃ s ∈ mc.popped, w = M.listedWeight s % 2 ^ 32})
      mc.bestMax.toNat := by
  have hgreatest := bestOf_isGreatest M mc.popped 0
  simp only [M.toNat_sum] at hgreatest
  rw [h.bestMax_eq.2]
  exact hgreatest

theorem WorkerRun.bestMax_lt_iff {M : Matrix} {mc : MaximumCut} (h : WorkerRun M mc) :
    mc.bestMax.toNat < 2 ^ 31 ↔ ∀ s ∈ mc.popped, M.listedWeight s % 2 ^ 32 < 2 ^ 31 := by
  obtain ⟨hmem, hupper⟩ := h.bestMax_isGreatest
  constructor
  · intro hlt s hs
    exact (hupper (.inr ⟨s, hs, rfl⟩)).trans_lt hlt
  · intro hall
    rcases hmem with hzero | ⟨s, hs, hsum⟩
    · omega
    · rw [hsum]
      exact hall s hs

theorem toInt_larger (best found : Int32) :
    (if best > found then best else found).toInt = max best.toInt found.toInt := by
  split
  · rename_i h
    have hlt := Int32.lt_iff_toInt_lt.mp h
    omega
  · rename_i h
    have hle := Int32.lt_iff_toInt_lt.not.mp h
    omega

/-- What the receiver holds covers the sets that the worker popped just when their
weights and the announced number stay below 2^31, or it did so before. -/
theorem WorkerRun.covers_iff {M : Matrix} {mc : MaximumCut} (h : WorkerRun M mc) (found : Int)
    (hfound : found < 2 ^ 31) :
    (∀ S ∈ mc.popped, S.Nodup → (M.cutWeight S.toFinset : Int) ≤ max mc.getBestMax.toInt found) ↔
      (∀ S ∈ mc.popped, S.Nodup → M.cutWeight S.toFinset < 2 ^ 31) ∧
        ((∀ s ∈ mc.popped, M.listedWeight s % 2 ^ 32 < 2 ^ 31) ∨
          ∀ S ∈ mc.popped, S.Nodup → (M.cutWeight S.toFinset : Int) ≤ found) := by
  rw [← h.bestMax_lt_iff]
  have hmax : max mc.getBestMax.toInt found < 2 ^ 31 := max_lt (Int32.toInt_lt _) hfound
  constructor
  · intro hcovers
    refine ⟨fun S hS hnodup => by have := hcovers S hS hnodup; omega, ?_⟩
    by_cases hlt : mc.bestMax.toNat < 2 ^ 31
    · exact .inl hlt
    · right
      intro S hS hnodup
      have hnegative := mc.toInt_getBestMax
      rw [if_neg hlt] at hnegative
      have hbound := mc.bestMax.toNat_lt
      have hS := hcovers S hS hnodup
      omega
  · rintro ⟨hsmall, hannounced | hknown⟩ S hS hnodup
    · have hle := h.bestMax_isGreatest.2 (.inr ⟨S, hS, rfl⟩)
      rw [M.listedWeight_eq_cutWeight S hnodup, Nat.mod_eq_of_lt (by
        have := hsmall S hS hnodup
        omega)] at hle
      rw [mc.toInt_getBestMax, if_pos hannounced]
      omega
    · exact (hknown S hS hnodup).trans (le_max_right _ _)

theorem announced_best_covers_iff (M : Matrix) (mc : MaximumCut) (hrun : WorkerRun M mc)
    (c : Computation) (table : StackAssignment) (htable : c.currAssignment = some table)
    (net : Net) (senderId : NetworkId) (scratch : Bytes) (outside : Int → Byte) :
    ∃ msg c', Message.decode scratch outside
        (Message.build (.assignmentFinished mc.getBestMax)) = some msg ∧
      c.onMessage net senderId msg = some (c', []) ∧
      ((∀ S ∈ mc.popped, S.Nodup → (M.cutWeight S.toFinset : Int) ≤ c'.bestFound.toInt) ↔
        (∀ S ∈ mc.popped, S.Nodup → M.cutWeight S.toFinset < 2 ^ 31) ∧
          ((∀ s ∈ mc.popped, M.listedWeight s % 2 ^ 32 < 2 ^ 31) ∨
            ∀ S ∈ mc.popped, S.Nodup → (M.cutWeight S.toFinset : Int) ≤ c.bestFound.toInt)) := by
  obtain ⟨msg, hmsg, hsame⟩ := Message.decode_of_builtAs
    (Message.builtAs_build (.assignmentFinished mc.getBestMax)) trivial trivial trivial scratch
    outside
  cases msg with
  | assignmentFinished best =>
    obtain rfl : best = mc.getBestMax := hsame
    have hread : c.onMessage net senderId (.assignmentFinished mc.getBestMax) = some
        ({ c with
            currAssignment := some (table.setAssignment senderId [])
            bestFound := if mc.getBestMax > c.bestFound then mc.getBestMax else c.bestFound },
          []) := by
      rw [Computation.onMessage, Computation.onAssignmentFinished, htable]
      rfl
    refine ⟨_, _, hmsg, hread, ?_⟩
    rw [← hrun.covers_iff _ (Int32.toInt_lt c.bestFound)]
    simp only [toInt_larger]
  | stackAssignment _ _ | terminate | divideWith _ => exact absurd hsame id

def listening : Computation := { Computation.new edgeMatrix with currAssignment := some .empty }

theorem announced_best_covers_iff_edge :
    let mc := (computeLoop 10 ((MaximumCut.new edgeMatrix).assignData [[0], [1]])).2
    (WorkerRun edgeMatrix mc ∧ listening.currAssignment = some .empty) ∧
    ∃ msg c', Message.decode [] (fun _ => 0)
        (Message.build (.assignmentFinished mc.getBestMax)) = some msg ∧
      listening.onMessage ⟨idA, [idB], true⟩ idB msg = some (c', []) ∧
      ((∀ S ∈ mc.popped, S.Nodup →
          (edgeMatrix.cutWeight S.toFinset : Int) ≤ c'.bestFound.toInt) ↔
        (∀ S ∈ mc.popped, S.Nodup → edgeMatrix.cutWeight S.toFinset < 2 ^ 31) ∧
          ((∀ s ∈ mc.popped, edgeMatrix.listedWeight s % 2 ^ 32 < 2 ^ 31) ∨
            ∀ S ∈ mc.popped, S.Nodup →
              (edgeMatrix.cutWeight S.toFinset : Int) ≤ listening.bestFound.toInt)) := by
  have hrun : WorkerRun edgeMatrix
      (computeLoop 10 ((MaximumCut.new edgeMatrix).assignData [[0], [1]])).2 :=
    .compute (.assign .start [[0], [1]]) (if_neg (by decide))
  exact ⟨⟨hrun, rfl⟩, announced_best_covers_iff edgeMatrix _ hrun listening .empty rfl
    ⟨idA, [idB], true⟩ idB [] fun _ => 0⟩

/-- A clique of 5804 vertices with all weights 255, and a vertex 2902 that only 2901
is joined to. -/
def heavyWeight (x y : Nat) : UInt8 :=
  if x = y then 0
  else if x = 2902 then if y = 2901 then 255 else 0
  else if y = 2902 then if x = 2901 then 255 else 0
  else 255

def heavyMatrix : Matrix := .ofFn 5805 heavyWeight

def heavyPath : Path := List.range 2903

theorem two_pow_le_cutWeight_heavyPath :
    2 ^ 31 ≤ heavyMatrix.cutWeight heavyPath.toFinset := by
  have hset : heavyPath.toFinset = Finset.range 2903 := List.toFinset_range 2903
  have hrow : ∀ x ∈ Finset.range 2902,
      2902 * 255 ≤ ∑ y ∈ Finset.range 5805 \ Finset.range 2903, (heavyMatrix.get x y).toNat := by
    intro x hx
    have hx := Finset.mem_range.mp hx
    have hall : ∀ y ∈ Finset.range 5805 \ Finset.range 2903, (heavyMatrix.get x y).toNat = 255 := by
      intro y hy
      rw [Finset.mem_sdiff, Finset.mem_range, Finset.mem_range] at hy
      rw [heavyMatrix, Matrix.get_ofFn heavyWeight (by omega) hy.1, heavyWeight,
        if_neg (by omega), if_neg (by omega), if_neg (by omega)]
      rfl
    have hcard : (Finset.range 5805 \ Finset.range 2903).card = 2902 := by
      rw [Finset.card_sdiff_of_subset (Finset.range_subset_range.mpr (by omega)),
        Finset.card_range, Finset.card_range]
    rw [Finset.sum_congr rfl hall, Finset.sum_const, hcard, smul_eq_mul]
  have hrows : 2902 * (2902 * 255) ≤ ∑ x ∈ Finset.range 2902,
      ∑ y ∈ Finset.range 5805 \ Finset.range 2903, (heavyMatrix.get x y).toNat := by
    have hsum := Finset.card_nsmul_le_sum (Finset.range 2902) _ _ hrow
    rwa [Finset.card_range, smul_eq_mul] at hsum
  have hsub : Finset.range 2902 ⊆ Finset.range 2903 := Finset.range_subset_range.mpr (by omega)
  rw [hset, Matrix.cutWeight]
  calc 2 ^ 31 ≤ 2902 * (2902 * 255) := by norm_num
    _ ≤ _ := hrows
    _ ≤ _ := Finset.sum_le_sum_of_subset hsub

theorem compute_pops_single {M : Matrix} {s : Path} (hM : 1 ≤ M.size)
    (hend : M.extensions s = []) :
    ((MaximumCut.new M).assignData [s]).compute =
      some (true, ((MaximumCut.new M).assignData [s]).explore s) := by
  have htop : ((MaximumCut.new M).assignData [s]).states.top? = some s := rfl
  have hempty : (((MaximumCut.new M).assignData [s]).explore s).states.top? = none := by
    rw [top?, explore_data]
    exact List.getLast?_eq_none_iff.mpr hend
  rw [MaximumCut.compute, if_neg (by exact Nat.not_lt.mpr hM)]
  simp only [computeLoop, htop, hempty]

theorem heavyPath_ends : heavyMatrix.extensions heavyPath = [] := by
  apply List.eq_nil_iff_forall_not_mem.mpr
  intro s hs
  obtain ⟨item, n, hlast, hn, hw, hnew, -⟩ := Matrix.mem_extensions.mp hs
  have hitem : item = 2902 := by
    rw [heavyPath, List.range_succ, List.getLast?_concat] at hlast
    exact (Option.some.inj hlast).symm
  have hn : n < 5805 := hn
  have hn' : n ≠ 2901 := by
    rintro rfl
    exact hnew (List.mem_range.mpr (by omega))
  have hself : ¬ 2902 = n := by
    rintro rfl
    exact hnew (List.mem_range.mpr (by omega))
  rw [hitem, heavyMatrix, Matrix.get_ofFn heavyWeight (by omega) hn, heavyWeight, if_neg hself,
    if_pos rfl, if_neg hn'] at hw
  exact absurd hw (by decide)

/-- No signed 32-bit number says what has been found. -/
theorem heavy_cut_is_not_announced :
    ¬ ∀ (M : Matrix) (mc : MaximumCut), WorkerRun M mc → ∀ (c : Computation) (net : Net)
      (senderId : NetworkId) (msg : Message) (c' : Computation),
      Message.decode [] (fun _ => 0) (Message.build (.assignmentFinished mc.getBestMax)) =
        some msg →
      c.onMessage net senderId msg = some (c', []) →
      ∀ S ∈ mc.popped, S.Nodup → (M.cutWeight S.toFinset : Int) ≤ c'.bestFound.toInt := by
  intro h
  have hrun : WorkerRun heavyMatrix
      (((MaximumCut.new heavyMatrix).assignData [heavyPath]).explore heavyPath) :=
    .compute (.assign .start [heavyPath])
      (compute_pops_single (Nat.le_of_ble_eq_true rfl) heavyPath_ends)
  obtain ⟨msg, hmsg, hsame⟩ := Message.decode_of_builtAs
    (Message.builtAs_build (.assignmentFinished
      (((MaximumCut.new heavyMatrix).assignData [heavyPath]).explore heavyPath).getBestMax))
    trivial trivial trivial [] fun _ => 0
  cases msg with
  | assignmentFinished best =>
    have hcovers := h _ _ hrun listening ⟨idA, [idB], true⟩ idB _ _ hmsg rfl heavyPath
      (List.mem_append_right _ List.mem_cons_self) List.nodup_range
    have hlt := hcovers.trans_lt (Int32.toInt_lt _)
    have hlarge := two_pow_le_cutWeight_heavyPath
    omega
  | stackAssignment _ _ | terminate | divideWith _ => exact absurd hsame id

end ParLib.Job
