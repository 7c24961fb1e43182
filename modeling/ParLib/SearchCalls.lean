import ParLib.PathSearch

/-!
# How many calls a search takes

Every pop accounts for one of the states below the pending ones, so their
number falls by one with each pop. A call pops eleven states, or all that are
left if they are fewer.
-/

namespace ParLib.MaximumCut

set_option autoImplicit false

open Foundations ParallelStack

/-- All the states that a search will pop: the pending ones, their extensions, the
extensions of those, and so on. -/
def pendingStates (mc : MaximumCut) : Nat :=
  (mc.matrix.searchTree.forest mc.states.data).card

theorem Explored.pendingStates_eq {mc mc' : MaximumCut} {ps : List Path}
    (h : Explored mc mc' ps) : mc.pendingStates = ps.length + mc'.pendingStates := by
  rw [pendingStates, pendingStates, h.forest, h.matrix, Multiset.card_add, Multiset.coe_card]

theorem pendingStates_eq_zero_iff (mc : MaximumCut) :
    mc.pendingStates = 0 ↔ mc.states.data = [] := by
  rw [pendingStates, Multiset.card_eq_zero, SearchTree.forest_eq_zero_iff,
    Multiset.coe_eq_zero]

theorem pendingStates_explore (mc : MaximumCut) (current : Path)
    (h : mc.states.top? = some current) :
    mc.pendingStates = (mc.explore current).pendingStates + 1 := by
  rw [(explored_explore mc current h).pendingStates_eq, List.length_singleton, Nat.add_comm]

/-- With `loopCycles` left the loop pops one state more than that, if there are so many. -/
theorem computeLoop_pops (loopCycles : Nat) (mc : MaximumCut) :
    ∃ ps, Explored mc (computeLoop loopCycles mc).2 ps ∧
      ps.length = min mc.pendingStates (loopCycles + 1) ∧
      ((computeLoop loopCycles mc).1 = true ↔ mc.pendingStates ≤ loopCycles) := by
  have hnothing : ∀ (loopCycles : Nat) (mc : MaximumCut), mc.states.top? = none →
      ∃ ps, Explored mc mc ps ∧ ps.length = min mc.pendingStates (loopCycles + 1) ∧
        (true = true ↔ mc.pendingStates ≤ loopCycles) := by
    intro loopCycles mc htop
    have hzero := mc.pendingStates_eq_zero_iff.mpr (List.getLast?_eq_none_iff.mp htop)
    exact ⟨[], .refl mc, by simp [hzero], by simp [hzero]⟩
  induction loopCycles generalizing mc with
  | zero =>
    rw [computeLoop]
    split
    · rename_i htop
      exact hnothing 0 mc htop
    · rename_i current htop
      have hpending := mc.pendingStates_explore current htop
      refine ⟨[current], explored_explore mc current htop, ?_, ?_⟩
      · rw [List.length_singleton]
        omega
      · simp only [Bool.false_eq_true, false_iff]
        omega
  | succ loopCycles ih =>
    rw [computeLoop]
    split
    · rename_i htop
      exact hnothing (loopCycles + 1) mc htop
    · rename_i current htop
      have hpending := mc.pendingStates_explore current htop
      obtain ⟨ps, hps, hlen, hdone⟩ := ih (mc.explore current)
      refine ⟨[current] ++ ps, (explored_explore mc current htop).trans hps, ?_, ?_⟩
      · rw [List.length_append, List.length_singleton, hlen]
        omega
      · rw [hdone]
        omega

theorem compute_pops (mc : MaximumCut) (h : 1 ≤ mc.matrix.size) :
    ∃ mc' ps, mc.compute = some (decide (mc.pendingStates < 11), mc') ∧ Explored mc mc' ps ∧
      ps.length = min mc.pendingStates 11 := by
  obtain ⟨ps, hps, hlen, hdone⟩ := computeLoop_pops 10 mc
  have hflag : (computeLoop 10 mc).1 = decide (mc.pendingStates < 11) := by
    rw [Bool.eq_iff_iff, hdone, decide_eq_true_eq]
    omega
  refine ⟨(computeLoop 10 mc).2, ps, ?_, hps, hlen⟩
  rw [compute, if_neg (by omega), ← hflag]

theorem compute_returns_true_after_elevenths (mc : MaximumCut) (h : 1 ≤ mc.matrix.size) :
    ∃ (calls : Nat → MaximumCut) (final : MaximumCut), calls 0 = mc ∧
      (∀ i < mc.pendingStates / 11, (calls i).compute = some (false, calls (i + 1)) ∧
        ∃ ps, (calls (i + 1)).popped = (calls i).popped ++ ps ∧ ps.length = 11) ∧
      (calls (mc.pendingStates / 11)).compute = some (true, final) ∧ final.states.data = [] := by
  induction hn : mc.pendingStates / 11 generalizing mc with
  | zero =>
    obtain ⟨final, ps, hcompute, hps, hlen⟩ := compute_pops mc h
    have hpending := hps.pendingStates_eq
    rw [decide_eq_true (by omega)] at hcompute
    refine ⟨fun _ => mc, final, rfl, by simp, hcompute, ?_⟩
    apply final.pendingStates_eq_zero_iff.mp
    omega
  | succ n ih =>
    obtain ⟨mc', ps, hcompute, hps, hlen⟩ := compute_pops mc h
    have hpending := hps.pendingStates_eq
    rw [decide_eq_false (by omega)] at hcompute
    obtain ⟨calls, final, hstart, hcalls, hlast, hempty⟩ :=
      ih mc' (by rwa [hps.matrix]) (by omega)
    subst hstart
    refine ⟨fun i => i.casesOn mc calls, final, rfl, ?_, hlast, hempty⟩
    intro i hi
    cases i with
    | zero => exact ⟨hcompute, ps, hps.popped, by omega⟩
    | succ i => exact hcalls i (by omega)

/-- Six copies of a vertex of an edge, with the other one behind each of them. -/
theorem compute_returns_true_after_elevenths_edge :
    let mc := (new edgeMatrix).assignData (List.replicate 6 [0])
    1 ≤ mc.matrix.size ∧ mc.pendingStates = 12 ∧
    ∃ mc' final, mc.compute = some (false, mc') ∧
      (∃ ps, mc'.popped = mc.popped ++ ps ∧ ps.length = 11) ∧
      mc'.compute = some (true, final) ∧ final.states.data = [] := by
  have hpending : ((new edgeMatrix).assignData (List.replicate 6 [0])).pendingStates = 12 := by
    decide +kernel
  obtain ⟨calls, final, hstart, hcalls, hlast, hempty⟩ :=
    compute_returns_true_after_elevenths ((new edgeMatrix).assignData (List.replicate 6 [0]))
      (by decide)
  rw [hpending] at hcalls hlast
  obtain ⟨hcall, hpops⟩ := hcalls 0 (by decide)
  rw [hstart] at hcall hpops
  exact ⟨by decide, hpending, calls 1, final, hcall, hpops, hlast, hempty⟩

end ParLib.MaximumCut
