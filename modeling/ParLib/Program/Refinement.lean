import ParLib.Program.ComputationView
import ParLib.Program.ElectionView

/-!
# The whole program and its two protocols

Every run of the program over byte streams is a run of the election between
messages and one of the computation, and what holds of their runs holds of it.
-/

namespace ParLib.Program

set_option autoImplicit false

open Foundations

open Classical in
theorem computes_start (matrix : Matrix) : Computes (.start matrix) (.start matrix) where
  comp := rfl
  packets p _ := by
    simp [System.start, Job.ByteSystem.start, traffic, queued, Node.new]

/-- Each step of the program is one of the election, or is not seen there. -/
theorem simulates_election : Simulates System.next (fun s a => s.Sound a ∧ WellFormed s)
    Election.System.next (fun _ _ => True) Follows := by
  rintro s a t e h ⟨hok, hs⟩ hstep
  obtain h' | ⟨b, f, -, hf, h'⟩ := h.move hs (move_of_next hs.wired hok hstep)
  · exact .inl h'
  · exact .inr ⟨b, f, trivial, hf, h'⟩

theorem Computes.run {s t : System} {b : Job.ByteSystem} (h : Computes s b)
    (hrun : Run System.next (fun s a => s.Sound a ∧ WellFormed s) s t) :
    ∃ b', Relation.ReflTransGen Job.ByteSystem.Step b b' ∧ Computes t b' := by
  apply hrun.invariant ⟨b, .refl, h⟩
  rintro t a u ⟨b, hb, h⟩ ⟨hok, ht⟩ hstep
  exact h.move ht hb hok (move_of_next ht.wired hok hstep)

/-- Every run of the program over byte streams is at once a run of the election between
messages and one of the computation between messages. -/
theorem program_runs_both_protocols {matrix : Matrix} {s : System}
    (hrun : Run System.next System.Sound (.start matrix) s) :
    (∃ e, Run Election.System.next (fun _ _ => True) .initial e ∧ Follows s e) ∧
      ∃ b, Job.ByteSystem.Reachable matrix b ∧ Computes s b := by
  have hwell := (wellFormed_start matrix).run (fun _ _ hok => hok) hrun
  exact ⟨simulates_election.run (follows_start matrix) hwell, (computes_start matrix).run hwell⟩

/-- B is elected, with messages cut in parts and a keep-alive message among them, and deals
its work out to A. -/
def electAndDeal : List Action :=
  [.connect idA idB, .register 0, .register 1, .turn idA (.discover true),
    .turn idA (.step true false), .lock 0 0, .send 0 5, .recv 0 3, .send 0 7, .recv 0 9, .send 0 1,
    .recv 0 1, .turn idA .keepAlive, .lock 1 0, .send 1 12, .send 1 1, .recv 1 12, .recv 1 1,
    .lock 0 1, .send 0 12, .send 0 1, .recv 0 12, .recv 0 1, .lock 0 0, .send 0 12, .recv 0 12,
    .lock 1 0, .send 1 12, .send 1 1, .recv 1 12, .recv 1 1, .turn idA .startComputation,
    .turn idB .startComputation, .turn idB (.first .frontToBack false false), .lock 1 1,
    .send 1 12, .send 1 74, .recv 1 12, .recv 1 74, .turn idA (.first .frontToBack false false),
    .turn idA (.compute .frontToBack), .turn idA (.read .frontToBack [] fun _ => 0)]

theorem program_runs_both_protocols_elected :
    ∃ s e b, Run System.next System.Sound (.start Job.fourClique) s ∧
      Run Election.System.next (fun _ _ => True) .initial e ∧
      Job.ByteSystem.Reachable Job.fourClique b ∧ Follows s e ∧ Computes s b ∧
      (e.nodes idA).leaderId = idB ∧ (e.nodes idB).leader = true ∧ (b.comp idA).stack ≠ [] ∧
      (b.comp idB).stack ≠ [] := by
  obtain ⟨s, hs⟩ : ∃ s, runWhile System.next System.Sound (.start Job.fourClique) electAndDeal =
      some s := Option.isSome_iff_exists.mp (by decide +kernel)
  have hchecked : ∀ s ∈ runWhile System.next System.Sound (.start Job.fourClique) electAndDeal,
      (s.nodes idA).manager.leaderId = idB ∧ (s.nodes idB).manager.leader = true ∧
        (s.nodes idA).computation.stack ≠ [] ∧ (s.nodes idB).computation.stack ≠ [] := by
    decide +kernel
  have hrun := Run.of_runWhile hs
  obtain ⟨⟨e, he, hfollows⟩, b, hb, hcomputes⟩ := program_runs_both_protocols hrun
  refine ⟨s, e, b, hrun, he, hb, hfollows, hcomputes, ?_⟩
  rw [hfollows.nodes, hcomputes.comp]
  exact hchecked s hs

end ParLib.Program
