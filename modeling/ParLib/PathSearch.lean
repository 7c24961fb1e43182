import ParLib.MaximumCut

/-!
# What the search explores

The states below the single vertices are exactly the simple paths of the
graph, each in one place of the tree. Hence a search filled by `populateStates`
pops every simple path once.
-/

namespace ParLib

set_option autoImplicit false

open Foundations

namespace Matrix

/-- A nonempty list of distinct vertices, consecutive ones joined by positive weight. -/
def IsSimplePath (M : Matrix) (s : Path) : Prop :=
  s ≠ [] ∧ s.Nodup ∧ (∀ v ∈ s, v < M.size) ∧ s.IsChain fun a b => 0 < M.get a b

instance (M : Matrix) (s : Path) : Decidable (M.IsSimplePath s) :=
  inferInstanceAs (Decidable (_ ∧ _))

theorem isSimplePath_singleton {M : Matrix} {v : Nat} : M.IsSimplePath [v] ↔ v < M.size := by
  simp [IsSimplePath]

theorem IsSimplePath.extend {M : Matrix} {s t : Path} (hs : M.IsSimplePath s)
    (ht : t ∈ M.extensions s) : M.IsSimplePath t := by
  obtain ⟨-, hnodup, hrange, hchain⟩ := hs
  obtain ⟨item, n, hlast, hn, hw, hnew, rfl⟩ := mem_extensions.mp ht
  refine ⟨by simp, ?_, ?_, ?_⟩
  · exact List.nodup_append.mpr ⟨hnodup, List.nodup_singleton n, fun a ha b hb => by
      rintro rfl
      exact hnew (by simpa using List.mem_singleton.mp hb ▸ ha)⟩
  · intro v hv
    cases List.mem_append.mp hv with
    | inl hv => exact hrange v hv
    | inr hv => exact List.mem_singleton.mp hv ▸ hn
  · rw [List.isChain_append]
    refine ⟨hchain, List.isChain_singleton n, ?_⟩
    intro x hx y hy
    obtain rfl : item = x := Option.some.inj (hlast.symm.trans hx)
    obtain rfl : n = y := by simpa using hy
    exact hw

/-- A simple path of at least two vertices extends the path before its last vertex. -/
theorem IsSimplePath.mem_extensions_dropLast {M : Matrix} {s : Path} {n : Nat} (hs : s ≠ [])
    (h : M.IsSimplePath (s ++ [n])) : M.IsSimplePath s ∧ s ++ [n] ∈ M.extensions s := by
  obtain ⟨-, hnodup, hrange, hchain⟩ := h
  obtain ⟨hnodup, -, hdisj⟩ := List.nodup_append.mp hnodup
  obtain ⟨hchain, -, hjoin⟩ := List.isChain_append.mp hchain
  have hlast : s.getLast? = some (s.getLast hs) := List.getLast?_eq_getLast_of_ne_nil hs
  refine ⟨⟨hs, hnodup, fun v hv => hrange v (List.mem_append_left _ hv), hchain⟩, ?_⟩
  refine mem_extensions.mpr ⟨s.getLast hs, n, hlast, hrange n (by simp), ?_, ?_, rfl⟩
  · exact hjoin _ hlast n rfl
  · intro hn
    exact hdisj n hn n (by simp) rfl

theorem prefix_of_below {M : Matrix} {s t : Path} (h : M.searchTree.Below s t) : s <+: t := by
  induction h with
  | refl => exact List.prefix_rfl
  | tail _ hstep ih =>
    obtain ⟨-, n, -, -, -, -, rfl⟩ := mem_extensions.mp hstep
    exact ih.trans (List.prefix_append _ _)

theorem isSimplePath_of_below {M : Matrix} {s t : Path} (hs : M.IsSimplePath s)
    (h : M.searchTree.Below s t) : M.IsSimplePath t := by
  induction h with
  | refl => exact hs
  | tail _ hstep ih => exact ih.extend hstep

theorem below_of_isPrefix {M : Matrix} {s t : Path} (hs : s ≠ []) (ht : M.IsSimplePath t)
    (h : s <+: t) : M.searchTree.Below s t := by
  induction t using List.reverseRecOn with
  | nil => exact absurd (List.prefix_nil.mp h) hs
  | append_singleton t n ih =>
    rcases List.prefix_concat_iff.mp h with rfl | h
    · exact .refl
    · have htne : t ≠ [] := by
        rintro rfl
        exact hs (List.prefix_nil.mp h)
      obtain ⟨hpath, hext⟩ := ht.mem_extensions_dropLast htne
      exact (ih hpath h).tail hext

theorem searchTree_separates (M : Matrix) (s : Path) : ∀ a ∈ M.extensions s,
    ∀ b ∈ M.extensions s, ∀ x, M.searchTree.Below a x → M.searchTree.Below b x → a = b := by
  intro a ha b hb x hax hbx
  obtain ⟨-, m, -, -, -, -, rfl⟩ := mem_extensions.mp ha
  obtain ⟨-, n, -, -, -, -, rfl⟩ := mem_extensions.mp hb
  exact (List.prefix_of_prefix_length_le (prefix_of_below hax) (prefix_of_below hbx)
    (by simp)).eq_of_length (by simp)

/-- The states `populateStates` pushes. -/
def roots (M : Matrix) : List Path := (List.range M.size).map fun i => [i]

theorem mem_forest_roots {M : Matrix} {s : Path} :
    s ∈ M.searchTree.forest M.roots ↔ M.IsSimplePath s := by
  rw [SearchTree.mem_forest]
  constructor
  · rintro ⟨a, ha, hs⟩
    obtain ⟨v, hv, rfl⟩ := List.mem_map.mp (Multiset.mem_coe.mp ha)
    exact isSimplePath_of_below (isSimplePath_singleton.mpr (List.mem_range.mp hv))
      ((SearchTree.mem_descendants_iff ..).mp hs)
  · intro hs
    cases s with
    | nil => exact absurd rfl hs.1
    | cons v s =>
      refine ⟨[v], ?_, (SearchTree.mem_descendants_iff ..).mpr
        (below_of_isPrefix (by simp) hs (by simp))⟩
      exact List.mem_map.mpr ⟨v, List.mem_range.mpr (hs.2.2.1 v (by simp)), rfl⟩

theorem nodup_forest_roots (M : Matrix) : (M.searchTree.forest M.roots).Nodup := by
  rw [SearchTree.forest, Multiset.nodup_bind]
  constructor
  · intro a _
    exact M.searchTree.nodup_descendants M.extensions_nodup M.searchTree_separates a
  · refine ⟨M.roots, rfl, List.Nodup.pairwise_of_forall_ne ?_ ?_⟩
    · exact List.nodup_range.map fun a b h => by simpa using h
    · intro a ha b hb hne
      obtain ⟨v, -, rfl⟩ := List.mem_map.mp ha
      obtain ⟨w, -, rfl⟩ := List.mem_map.mp hb
      rw [Function.onFun, Multiset.disjoint_left]
      intro x hx hx'
      have hv := prefix_of_below ((SearchTree.mem_descendants_iff ..).mp hx)
      have hw := prefix_of_below ((SearchTree.mem_descendants_iff ..).mp hx')
      exact hne ((List.prefix_of_prefix_length_le hv hw (by simp)).eq_of_length (by simp))

end Matrix

namespace MaximumCut

/-- `compute` called again and again until it returns `true`. -/
inductive ComputeRun : MaximumCut → MaximumCut → Prop
  | last {mc mc' : MaximumCut} (h : mc.compute = some (true, mc')) : ComputeRun mc mc'
  | again {mc mc' mc'' : MaximumCut} (h : mc.compute = some (false, mc'))
      (rest : ComputeRun mc' mc'') : ComputeRun mc mc''

theorem ComputeRun.explored {mc mc' : MaximumCut} (h : ComputeRun mc mc') :
    ∃ ps, Explored mc mc' ps ∧ mc'.states.data = [] := by
  induction h with
  | last h =>
    obtain ⟨ps, hps, hempty, -⟩ := compute_explored h
    exact ⟨ps, hps, hempty rfl⟩
  | again h _ ih =>
    obtain ⟨ps, hps, -, -⟩ := compute_explored h
    obtain ⟨qs, hqs, hempty⟩ := ih
    exact ⟨ps ++ qs, hps.trans hqs, hempty⟩

theorem ComputeRun.unique {mc a b : MaximumCut} (ha : ComputeRun mc a) (hb : ComputeRun mc b) :
    a = b := by
  induction ha with
  | last h =>
    cases hb with
    | last h' => simpa [h] using h'
    | again h' _ => simp [h] at h'
  | again h _ ih =>
    cases hb with
    | last h' => simp [h] at h'
    | again h' rest =>
      obtain rfl : _ = _ := by simpa [h] using h'
      exact ih rest

/-- The number of states below the pending ones falls with every unfinished call. -/
theorem exists_computeRun (mc : MaximumCut) (h : 1 ≤ mc.matrix.size) :
    ∃ mc', ComputeRun mc mc' := by
  induction hn : (mc.matrix.searchTree.forest mc.states.data).card using Nat.strongRecOn
    generalizing mc with
  | ind n ih =>
    obtain ⟨done, mc', hcompute⟩ := compute_eq_some h
    cases done with
    | true => exact ⟨mc', .last hcompute⟩
    | false =>
      obtain ⟨ps, hps, -, hne⟩ := compute_explored hcompute
      have hcard := congrArg Multiset.card hps.forest
      rw [Multiset.card_add, Multiset.coe_card] at hcard
      have hpos : 0 < ps.length := List.length_pos_iff.mpr (hne rfl)
      have hlt : (mc'.matrix.searchTree.forest mc'.states.data).card < n := by
        rw [hps.matrix]
        omega
      obtain ⟨mc'', hrest⟩ := ih _ hlt mc' (by rwa [hps.matrix]) rfl
      exact ⟨mc'', .again hcompute hrest⟩

theorem bestOf_le_iff {M : Matrix} {ps : List Path} {start w : Nat} :
    bestOf M ps start ≤ w ↔ start ≤ w ∧ ∀ s ∈ ps, (M.sum s).toUInt32.toNat ≤ w := by
  induction ps generalizing start with
  | nil => simp [bestOf]
  | cons s ps ih =>
    rw [bestOf, List.foldl_cons, ← bestOf, ih]
    simp [and_assoc]

theorem bestOf_isGreatest (M : Matrix) (ps : List Path) (start : Nat) :
    IsGreatest (insert start {w | ∃ s ∈ ps, w = (M.sum s).toUInt32.toNat}) (bestOf M ps start) := by
  constructor
  · induction ps generalizing start with
    | nil => simp [bestOf]
    | cons s ps ih =>
      rw [bestOf, List.foldl_cons, ← bestOf]
      rcases ih (max start (M.sum s).toUInt32.toNat) with h | ⟨t, ht, h⟩
      · rw [h]
        cases max_choice start (M.sum s).toUInt32.toNat with
        | inl hmax => exact .inl hmax
        | inr hmax => exact .inr ⟨s, by simp, hmax⟩
      · exact .inr ⟨t, by simp [ht], h⟩
  · rintro w (rfl | ⟨s, hs, rfl⟩)
    · exact (bestOf_le_iff.mp le_rfl).1
    · exact (bestOf_le_iff.mp le_rfl).2 s hs

theorem new_populateStates_data (M : Matrix) : (new M).populateStates.states.data = M.roots := by
  rw [populateStates_data]
  rfl

/-- The history of a complete search is a listing of the simple paths. -/
theorem ComputeRun.popped_eq {M : Matrix} {mc : MaximumCut}
    (h : ComputeRun (new M).populateStates mc) :
    (mc.popped : Multiset Path) = M.searchTree.forest M.roots ∧
      mc.bestMax.toNat = bestOf M mc.popped 0 ∧ mc.states.data = [] := by
  obtain ⟨ps, hps, hempty⟩ := h.explored
  have hpopped : mc.popped = ps := hps.popped
  have hforest := hps.forest
  rw [hempty, new_populateStates_data] at hforest
  refine ⟨?_, ?_, hempty⟩
  · rw [hpopped]
    simpa [populateStates, new] using hforest.symm
  · rw [hpopped]
    exact hps.best

/-- What there is to find: nothing, or the sum of a path. -/
def values (M : Matrix) : Set Nat :=
  insert 0 {w | ∃ s, M.IsSimplePath s ∧ w = (M.sum s).toUInt32.toNat}

theorem ComputeRun.isGreatest_values {M : Matrix} {mc : MaximumCut}
    (h : ComputeRun (new M).populateStates mc) : IsGreatest (values M) mc.bestMax.toNat := by
  obtain ⟨hpopped, hbest, -⟩ := h.popped_eq
  have hmem : ∀ s, s ∈ mc.popped ↔ M.IsSimplePath s := by
    intro s
    rw [← Matrix.mem_forest_roots, ← hpopped, Multiset.mem_coe]
  have hgreatest := bestOf_isGreatest M mc.popped 0
  simp only [hmem] at hgreatest
  rwa [hbest]

theorem compute_pops_each_simple_path_once (M : Matrix) (hM : 1 ≤ M.size) :
    (∃ mc, ComputeRun (new M).populateStates mc) ∧
      ∀ mc, ComputeRun (new M).populateStates mc →
        mc.states.data = [] ∧ mc.popped.Nodup ∧ (∀ s, s ∈ mc.popped ↔ M.IsSimplePath s) ∧
        IsGreatest (insert 0 {w | ∃ s, M.IsSimplePath s ∧ w = (M.sum s).toUInt32.toNat})
          mc.bestMax.toNat := by
  refine ⟨exists_computeRun _ hM, ?_⟩
  intro mc hrun
  obtain ⟨hpopped, hbest, hempty⟩ := hrun.popped_eq
  have hmem : ∀ s, s ∈ mc.popped ↔ M.IsSimplePath s := by
    intro s
    rw [← Matrix.mem_forest_roots, ← hpopped, Multiset.mem_coe]
  refine ⟨hempty, ?_, hmem, ?_⟩
  · rw [← Multiset.coe_nodup, hpopped]
    exact M.nodup_forest_roots
  · rw [hbest]
    simpa only [hmem] using bestOf_isGreatest M mc.popped 0

def edgeMatrix : Matrix := ⟨2, [[0, 5], [5, 0]], rfl, by decide⟩

theorem compute_pops_each_simple_path_once_edge :
    1 ≤ edgeMatrix.size ∧ (∃ mc, ComputeRun (new edgeMatrix).populateStates mc) ∧
      ∀ mc, ComputeRun (new edgeMatrix).populateStates mc →
        mc.states.data = [] ∧ mc.popped.Nodup ∧ (∀ s, s ∈ mc.popped ↔ edgeMatrix.IsSimplePath s) ∧
        IsGreatest (insert 0 {w | ∃ s, edgeMatrix.IsSimplePath s ∧
          w = (edgeMatrix.sum s).toUInt32.toNat}) mc.bestMax.toNat :=
  ⟨by decide, compute_pops_each_simple_path_once edgeMatrix (by decide)⟩

end MaximumCut

end ParLib
