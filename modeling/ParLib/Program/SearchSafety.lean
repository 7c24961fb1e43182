import ParLib.Job.ByteAnswer
import ParLib.Program.Refinement

/-!
# What the program finds

However the bytes of its messages are cut, delayed or left behind by a failure,
the program finds values of paths only, and its searches stay inside the matrix.
-/

namespace ParLib.Program

set_option autoImplicit false

open Foundations

theorem isJobType_of_decode {scratch : Wire.Bytes} {outside : Int → Byte} {m : Wire.Message}
    {msg : Job.Message} (h : Job.Message.decode scratch outside m = some msg) :
    IsJobType m.type := by
  replace h := Job.Message.parse_of_decode h
  rw [Job.Message.parse] at h
  split at h
  · rename_i htype
    exact .inl htype
  · split at h
    · rename_i htype
      exact .inr (.inl htype)
    · split at h
      · rename_i htype
        exact .inr (.inr (.inr htype))
      · split at h
        · rename_i htype
          exact .inr (.inr (.inl htype))
        · cases h

/-- What a node has found is the value of a path and never falls, whatever is on its stack or has
been popped is a path inside the matrix, and what is announced anywhere is the value of a path. -/
theorem program_finds_values_of_paths {matrix : Matrix} {s t : System}
    (hsize : matrix.size < 2 ^ 31) (hrun : Run System.next System.Sound (.start matrix) s)
    (hlater : Run System.next System.Sound s t) (x : NetworkId) :
    matrix.IsValue (t.nodes x).computation.bestFound ∧
      (s.nodes x).computation.bestFound ≤ (t.nodes x).computation.bestFound ∧
      (∀ current ∈ (t.nodes x).computation.stack ++ (t.nodes x).computation.maximumCut.popped,
        matrix.IsSimplePath current ∧ matrix.InRange current) ∧
      ∀ p : Job.BytePacket, p ∈ traffic t.lines ∨ p ∈ queued t p.dst →
        ∀ scratch outside best,
          Job.Message.decode scratch outside p.msg = some (.assignmentFinished best) →
            matrix.IsValue best := by
  have hstart := wellFormed_start matrix
  obtain ⟨b, hb, h⟩ := (computes_start matrix).run (hstart.run (fun _ _ hok => hok) hrun)
  obtain ⟨b', hb', h'⟩ := h.run ((hstart.of_run hrun).run (fun _ _ hok => hok) hlater)
  have hnow := ((Job.ByteSystem.genuine_start matrix).steps hsize .refl hb).from_now
  have hgenuine := hnow.steps hsize hb hb'
  have hpaths := (Job.ByteSystem.Reachable.onPaths hsize (hb.trans hb')).comp x
  have hcomp := hgenuine.comp x
  rw [h.comp, h'.comp] at hcomp
  rw [h'.comp] at hpaths
  refine ⟨hcomp.found, hcomp.least_le, ?_, ?_⟩
  · intro current hcurrent
    have hpath : matrix.IsSimplePath current := by
      cases List.mem_append.mp hcurrent with
      | inl hcurrent => exact hpaths.stack current hcurrent
      | inr hcurrent => exact hpaths.popped current hcurrent
    exact ⟨hpath, hpath.inRange⟩
  · intro p hp scratch outside best hmsg
    have hmem := h'.mem (isJobType_of_decode hmsg) hp
    exact hgenuine.packets p hmem scratch outside _ hmsg

theorem program_finds_values_of_paths_elected :
    ∃ t, Job.fourClique.size < 2 ^ 31 ∧
      Run System.next System.Sound (.start Job.fourClique) t ∧
      (t.nodes idB).computation.maximumCut.popped ≠ [] ∧
      ∀ x, Job.fourClique.IsValue (t.nodes x).computation.bestFound ∧
        ∀ current ∈ (t.nodes x).computation.stack ++ (t.nodes x).computation.maximumCut.popped,
          Job.fourClique.IsSimplePath current ∧ Job.fourClique.InRange current := by
  have hsize : Job.fourClique.size < 2 ^ 31 := by decide
  obtain ⟨t, ht⟩ : ∃ t, runWhile System.next System.Sound (.start Job.fourClique) electAndDeal =
      some t := Option.isSome_iff_exists.mp (by decide +kernel)
  have hchecked : ∀ t ∈ runWhile System.next System.Sound (.start Job.fourClique) electAndDeal,
      (t.nodes idB).computation.maximumCut.popped ≠ [] := by
    decide +kernel
  have hrun := Run.of_runWhile ht
  refine ⟨t, hsize, hrun, hchecked t ht, fun x => ?_⟩
  obtain ⟨hvalue, -, hcurrent, -⟩ := program_finds_values_of_paths hsize .refl hrun x
  exact ⟨hvalue, hcurrent⟩

end ParLib.Program
