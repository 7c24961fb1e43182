import ParLib.Foundations.SearchTree
import ParLib.Matrix
import ParLib.ParallelStack

/-!
# The search loop

A search state is a list of vertices. `compute` pops a state, pushes its
extensions by an unlisted neighbour of its last vertex, and keeps the largest
sum seen; it gives up after eleven pops, to be called again. `popped` is the
history of the popped states and is read by no function.
-/

namespace ParLib

set_option autoImplicit false

open Foundations ParallelStack

abbrev Path := List Nat

namespace Matrix

/-- The states `compute` pushes for a popped one, in pushing order. -/
def extensions (M : Matrix) (current : Path) : List Path :=
  match current.getLast? with
  | none => []
  | some item => ((M.getNeigh item).filter fun n => n ∉ current).map fun n => current ++ [n]

theorem mem_extensions {M : Matrix} {current s : Path} :
    s ∈ M.extensions current ↔ ∃ item n, current.getLast? = some item ∧ n < M.size ∧
      0 < M.get item n ∧ n ∉ current ∧ s = current ++ [n] := by
  rw [extensions]
  split
  · simp_all
  · rename_i item hitem
    simp only [List.mem_map, List.mem_filter, mem_getNeigh, decide_eq_true_eq, hitem,
      Option.some.injEq]
    constructor
    · rintro ⟨n, ⟨⟨hn, hw⟩, hnew⟩, rfl⟩
      exact ⟨item, n, rfl, hn, hw, hnew, rfl⟩
    · rintro ⟨_, n, rfl, hn, hw, hnew, rfl⟩
      exact ⟨n, ⟨⟨hn, hw⟩, hnew⟩, rfl⟩

theorem extensions_nodup (M : Matrix) (current : Path) : (M.extensions current).Nodup := by
  rw [extensions]
  split
  · exact List.nodup_nil
  · apply List.Nodup.map
    · intro a b h
      simpa using h
    · exact (M.getNeigh_nodup _).filter _

/-- How many vertices a state has not listed yet. -/
def unlisted (M : Matrix) (s : Path) : Nat := ((List.range M.size).filter fun v => v ∉ s).length

theorem unlisted_lt {M : Matrix} {current s : Path} (h : s ∈ M.extensions current) :
    M.unlisted s < M.unlisted current := by
  obtain ⟨item, n, -, hn, -, hnew, rfl⟩ := mem_extensions.mp h
  have hsub : (List.range M.size).filter (fun v => v ∉ current ++ [n]) =
      ((List.range M.size).filter fun v => v ∉ current).filter fun v => v ≠ n := by
    rw [List.filter_filter]
    apply List.filter_congr
    intro v _
    simp [and_comm]
  rw [unlisted, unlisted, hsub]
  apply List.length_filter_lt_length_iff_exists.mpr
  exact ⟨n, by simp [hn, hnew], by simp⟩

/-- The states below a state are its extensions, their extensions, and so on. -/
def searchTree (M : Matrix) : SearchTree Path where
  children := M.extensions
  rank := M.unlisted
  rank_lt _ _ h := unlisted_lt h

end Matrix

structure MaximumCut where
  states : ParallelStack Path
  bestMax : UInt32
  matrix : Matrix
  popped : List Path

namespace MaximumCut

def new (matrix : Matrix) : MaximumCut where
  states := ⟨[]⟩
  bestMax := 0
  matrix := matrix
  popped := []

def getBestMax (mc : MaximumCut) : Int32 := mc.bestMax.toInt32

def assignData (mc : MaximumCut) (data : List Path) : MaximumCut :=
  { mc with states := ⟨data⟩ }

def populateStates (mc : MaximumCut) : MaximumCut :=
  { mc with
    states := (List.range mc.matrix.size).foldl (fun states i => states.push [i]) mc.states }

/-- The `for` loop over the neighbours of the popped state's last vertex. -/
def pushNeigh (M : Matrix) (current : Path) (states : ParallelStack Path) : ParallelStack Path :=
  match current.getLast? with
  | none => states
  | some item => (M.getNeigh item).foldl
      (fun states n => if n ∉ current then states.push (current ++ [n]) else states) states

/-- The body of the `while` loop. -/
def explore (mc : MaximumCut) (current : Path) : MaximumCut :=
  let tmp := (mc.matrix.sum current).toUInt32
  { mc with
    states := pushNeigh mc.matrix current mc.states.pop
    bestMax := if tmp > mc.bestMax then tmp else mc.bestMax
    popped := mc.popped ++ [current] }

/-- The `while` loop, with `loopCycles` left. -/
def computeLoop : Nat → MaximumCut → Bool × MaximumCut
  | loopCycles, mc =>
    match mc.states.top? with
    | none => (true, mc)
    | some current =>
      match loopCycles with
      | 0 => (false, mc.explore current)
      | loopCycles + 1 => computeLoop loopCycles (mc.explore current)

/-- `none` is the process exit on an empty matrix. -/
def compute (mc : MaximumCut) : Option (Bool × MaximumCut) :=
  if mc.matrix.size < 1 then none else some (computeLoop 10 mc)

@[simp]
theorem explore_matrix (mc : MaximumCut) (current : Path) :
    (mc.explore current).matrix = mc.matrix := rfl

@[simp]
theorem explore_popped (mc : MaximumCut) (current : Path) :
    (mc.explore current).popped = mc.popped ++ [current] := rfl

theorem toInt_toInt32 (best : UInt32) : best.toInt32.toInt =
    if best.toNat < 2 ^ 31 then (best.toNat : Int) else best.toNat - 2 ^ 32 := by
  have hcond : best.toInt32.toInt = best.toBitVec.toInt := rfl
  rw [hcond, BitVec.toInt_eq_toNat_cond]
  change (if 2 * best.toNat < 2 ^ 32 then (best.toNat : Int) else best.toNat - (2 ^ 32 : Nat)) = _
  split_ifs <;> omega

theorem toInt_getBestMax (mc : MaximumCut) : mc.getBestMax.toInt =
    if mc.bestMax.toNat < 2 ^ 31 then (mc.bestMax.toNat : Int) else mc.bestMax.toNat - 2 ^ 32 :=
  toInt_toInt32 mc.bestMax

theorem populateStates_data (mc : MaximumCut) :
    mc.populateStates.states.data =
      mc.states.data ++ (List.range mc.matrix.size).map fun i => [i] := by
  have h : ∀ (vs : List Nat) (states : ParallelStack Path),
      (vs.foldl (fun states i => states.push [i]) states).data =
        states.data ++ vs.map fun i => [i] := by
    intro vs
    induction vs with
    | nil => simp
    | cons v vs ih => intro states; rw [List.foldl_cons, ih]; simp [push]
  exact h _ _

theorem pushNeigh_data (M : Matrix) (current : Path) (states : ParallelStack Path) :
    (pushNeigh M current states).data = states.data ++ M.extensions current := by
  have h : ∀ (vs : List Nat) (states : ParallelStack Path),
      (vs.foldl (fun states n => if n ∉ current then states.push (current ++ [n]) else states)
        states).data =
        states.data ++ (vs.filter fun n => n ∉ current).map fun n => current ++ [n] := by
    intro vs
    induction vs with
    | nil => simp
    | cons v vs ih =>
      intro states
      rw [List.foldl_cons, ih]
      by_cases hv : v ∈ current <;> simp [push, hv]
  rw [pushNeigh, Matrix.extensions]
  split
  · simp
  · exact h _ _

theorem explore_data (mc : MaximumCut) (current : Path) :
    (mc.explore current).states.data =
      mc.states.data.dropLast ++ mc.matrix.extensions current := pushNeigh_data ..

/-- The largest sum of a collection of states, as the 32-bit number compared with `_bestMax`. -/
def bestOf (M : Matrix) (popped : List Path) (start : Nat) : Nat :=
  popped.foldl (fun best s => max best (M.sum s).toUInt32.toNat) start

theorem bestOf_append (M : Matrix) (ps qs : List Path) (start : Nat) :
    bestOf M (ps ++ qs) start = bestOf M qs (bestOf M ps start) := List.foldl_append ..

theorem explore_bestMax (mc : MaximumCut) (current : Path) :
    (mc.explore current).bestMax.toNat =
      max mc.bestMax.toNat (mc.matrix.sum current).toUInt32.toNat := by
  simp only [explore, gt_iff_lt, UInt32.lt_iff_toNat_lt]
  split <;> omega

/-- What one call of `compute` does to the search, whatever it returns: the states
`ps` it popped and the pending states account for all that was pending before. -/
structure Explored (mc mc' : MaximumCut) (ps : List Path) : Prop where
  matrix : mc'.matrix = mc.matrix
  popped : mc'.popped = mc.popped ++ ps
  forest : mc.matrix.searchTree.forest mc.states.data =
    (ps : Multiset Path) + mc.matrix.searchTree.forest mc'.states.data
  best : mc'.bestMax.toNat = bestOf mc.matrix ps mc.bestMax.toNat

theorem Explored.refl (mc : MaximumCut) : Explored mc mc [] :=
  ⟨rfl, (List.append_nil _).symm, by simp, rfl⟩

theorem Explored.trans {a b c : MaximumCut} {ps qs : List Path}
    (h : Explored a b ps) (h' : Explored b c qs) : Explored a c (ps ++ qs) where
  matrix := h'.matrix.trans h.matrix
  popped := by rw [h'.popped, h.popped, List.append_assoc]
  forest := by
    have hbc := h'.forest
    rw [h.matrix] at hbc
    rw [h.forest, hbc, ← Multiset.coe_add, add_assoc]
  best := by rw [h'.best, h.best, h.matrix, bestOf_append]

theorem Explored.of_nil {mc mc' : MaximumCut} {ps : List Path} (h : Explored mc mc' ps)
    (hnil : mc.states.data = []) :
    ps = [] ∧ mc'.states.data = [] ∧ mc'.bestMax = mc.bestMax := by
  have hforest := h.forest
  rw [hnil, Multiset.coe_nil, SearchTree.forest_zero, eq_comm, add_eq_zero] at hforest
  obtain ⟨hps, hpending⟩ := hforest
  have hps : ps = [] := (Multiset.coe_eq_zero ps).mp hps
  refine ⟨hps, ?_, ?_⟩
  · exact (Multiset.coe_eq_zero _).mp ((SearchTree.forest_eq_zero_iff _).mp hpending)
  · have hbest := h.best
    rw [hps] at hbest
    exact UInt32.toNat_inj.mp hbest

theorem explored_explore (mc : MaximumCut) (current : Path) (htop : mc.states.top? = some current) :
    Explored mc (mc.explore current) [current] where
  matrix := rfl
  popped := rfl
  forest := by
    obtain ⟨rest, hrest⟩ := List.getLast?_eq_some_iff.mp htop
    rw [explore_data, hrest, List.dropLast_concat, ← Multiset.coe_add, ← Multiset.coe_add,
      Multiset.coe_singleton, add_comm (rest : Multiset Path), Multiset.singleton_add,
      SearchTree.forest_explore, Multiset.singleton_add, add_comm (rest : Multiset Path)]
    rfl
  best := explore_bestMax mc current

theorem computeLoop_explored (loopCycles : Nat) (mc : MaximumCut) :
    ∃ ps, Explored mc (computeLoop loopCycles mc).2 ps ∧
      ((computeLoop loopCycles mc).1 = true → (computeLoop loopCycles mc).2.states.data = []) ∧
      ((computeLoop loopCycles mc).1 = false → ps ≠ []) := by
  induction loopCycles generalizing mc with
  | zero =>
    rw [computeLoop]
    split
    · rename_i htop
      exact ⟨[], .refl mc, fun _ => List.getLast?_eq_none_iff.mp htop, by simp⟩
    · rename_i current htop
      exact ⟨[current], explored_explore mc current htop, by simp, by simp⟩
  | succ loopCycles ih =>
    rw [computeLoop]
    split
    · rename_i htop
      exact ⟨[], .refl mc, fun _ => List.getLast?_eq_none_iff.mp htop, by simp⟩
    · rename_i current htop
      obtain ⟨ps, hps, hempty, -⟩ := ih (mc.explore current)
      exact ⟨[current] ++ ps, (explored_explore mc current htop).trans hps, hempty, by simp⟩

theorem compute_explored {mc mc' : MaximumCut} {done : Bool}
    (h : mc.compute = some (done, mc')) :
    ∃ ps, Explored mc mc' ps ∧ (done = true → mc'.states.data = []) ∧
      (done = false → ps ≠ []) := by
  rw [compute] at h
  split at h
  · cases h
  · obtain ⟨ps, hps⟩ := computeLoop_explored 10 mc
    rw [Option.some.inj h] at hps
    exact ⟨ps, hps⟩

theorem compute_eq_some {mc : MaximumCut} (h : 1 ≤ mc.matrix.size) :
    ∃ done mc', mc.compute = some (done, mc') :=
  ⟨_, _, if_neg (by omega)⟩

end MaximumCut

end ParLib
