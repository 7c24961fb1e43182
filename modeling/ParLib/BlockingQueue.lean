import ParLib.Foundations.Runs

/-!
# The blocking queue

A step is what a thread does while it holds the lock. `Pop` holds it twice:
before the wait, and after it was woken. It tests the queue once more then,
but does not wait again. A waiting thread may be woken at any time, with or
without `notify_one`, and other threads may get the lock before it.
-/

namespace ParLib

set_option autoImplicit false

open Foundations

universe u v

inductive PopCall
  | popNonBlock
  | pop
  deriving DecidableEq, Repr

/-- The state of a queue that threads `κ` share. `pushed` and `returned` are histories;
`none` has been returned where the code returns `T()`. -/
structure BlockingQueue (κ : Type u) (T : Type v) where
  items : List T
  waiting : Finset κ
  pushed : List T
  returned : List (PopCall × Option T)

namespace BlockingQueue

inductive Action (κ : Type u) (T : Type v)
  | push (thread : κ) (item : T)
  | popNonBlock (thread : κ)
  | pop (thread : κ)
  | wake (thread : κ)
  deriving DecidableEq, Repr

variable {κ : Type u} {T : Type v}

def new : BlockingQueue κ T where
  items := []
  waiting := ∅
  pushed := []
  returned := []

/-- The test of the size at the end of both calls. -/
def take (q : BlockingQueue κ T) (call : PopCall) : BlockingQueue κ T :=
  match q.items with
  | [] => { q with returned := q.returned ++ [(call, none)] }
  | top :: rest => { q with items := rest, returned := q.returned ++ [(call, some top)] }

variable [DecidableEq κ]

/-- A waiting thread does nothing but wake up. -/
def next (q : BlockingQueue κ T) : Action κ T → Option (BlockingQueue κ T)
  | .push thread item =>
    if thread ∈ q.waiting then none
    else some { q with items := q.items ++ [item], pushed := q.pushed ++ [item] }
  | .popNonBlock thread => if thread ∈ q.waiting then none else some (q.take .popNonBlock)
  | .pop thread =>
    if thread ∈ q.waiting then none
    else if q.items.length = 0 then some { q with waiting := insert thread q.waiting }
    else some (q.take .pop)
  | .wake thread =>
    if thread ∈ q.waiting then some ({ q with waiting := q.waiting.erase thread }.take .pop)
    else none

def KeepsItems (q : BlockingQueue κ T) : Prop :=
  q.returned.filterMap Prod.snd ++ q.items = q.pushed

def PopsItems (q : BlockingQueue κ T) : Prop := (PopCall.pop, none) ∉ q.returned

def WakesToItem (q : BlockingQueue κ T) : Action κ T → Prop
  | .wake thread => thread ∈ q.waiting → q.items ≠ []
  | .push _ _ | .popNonBlock _ | .pop _ => True

omit [DecidableEq κ] in
theorem KeepsItems.take {q : BlockingQueue κ T} (h : q.KeepsItems) (call : PopCall) :
    (q.take call).KeepsItems := by
  rw [BlockingQueue.take]
  split
  · rename_i hnil
    rw [KeepsItems] at h
    rw [KeepsItems, List.filterMap_append, ← h, hnil]
    simp
  · rename_i top rest hitems
    rw [KeepsItems, List.filterMap_append, ← h, hitems]
    simp

theorem keepsItems_next {q q' : BlockingQueue κ T} {a : Action κ T} (h : q.KeepsItems)
    (hstep : q.next a = some q') : q'.KeepsItems := by
  cases a with
  | push thread item =>
    obtain ⟨-, ⟨⟩⟩ := Option.ite_none_left_eq_some.mp hstep
    rw [KeepsItems, ← h, List.append_assoc]
  | popNonBlock thread =>
    obtain ⟨-, ⟨⟩⟩ := Option.ite_none_left_eq_some.mp hstep
    exact h.take .popNonBlock
  | pop thread =>
    obtain ⟨-, hstep⟩ := Option.ite_none_left_eq_some.mp hstep
    split at hstep
    · cases hstep
      exact h
    · cases hstep
      exact h.take .pop
  | wake thread =>
    obtain ⟨-, ⟨⟩⟩ := Option.ite_none_right_eq_some.mp hstep
    have hsame : KeepsItems { q with waiting := q.waiting.erase thread } := h
    exact hsame.take .pop

omit [DecidableEq κ] in
theorem popsItems_take_popNonBlock (q : BlockingQueue κ T) :
    (q.take .popNonBlock).PopsItems ↔ q.PopsItems := by
  rw [take]
  split <;> simp [PopsItems]

omit [DecidableEq κ] in
/-- Taking from an empty queue is what makes `Pop` return something else. -/
theorem popsItems_take_pop (q : BlockingQueue κ T) :
    (q.take .pop).PopsItems ↔ q.PopsItems ∧ q.items ≠ [] := by
  rw [take]
  split
  · rename_i hnil
    simp [PopsItems, hnil]
  · rename_i top rest hitems
    simp [PopsItems, hitems]

theorem popsItems_next_iff {q : BlockingQueue κ T} (h : q.PopsItems) (a : Action κ T) :
    q.WakesToItem a ↔ ∀ q', q.next a = some q' → q'.PopsItems := by
  cases a with
  | push thread item =>
    refine iff_of_true trivial ?_
    intro q' hstep
    obtain ⟨-, ⟨⟩⟩ := Option.ite_none_left_eq_some.mp hstep
    exact h
  | popNonBlock thread =>
    refine iff_of_true trivial ?_
    intro q' hstep
    obtain ⟨-, ⟨⟩⟩ := Option.ite_none_left_eq_some.mp hstep
    exact q.popsItems_take_popNonBlock.mpr h
  | pop thread =>
    refine iff_of_true trivial ?_
    intro q' hstep
    obtain ⟨-, hstep⟩ := Option.ite_none_left_eq_some.mp hstep
    split at hstep
    · cases hstep
      exact h
    · rename_i hlength
      cases hstep
      refine q.popsItems_take_pop.mpr ⟨h, ?_⟩
      intro hnil
      exact hlength (by rw [hnil, List.length_nil])
  | wake thread =>
    simp only [WakesToItem, next, Option.ite_none_right_eq_some, Option.some.injEq]
    constructor
    · rintro hitem q' ⟨hwaits, rfl⟩
      exact (popsItems_take_pop _).mpr ⟨h, hitem hwaits⟩
    · intro hall hwaits
      exact ((popsItems_take_pop _).mp (hall _ ⟨hwaits, rfl⟩)).2

/-- The queue keeps its items in order in every run; `Pop` returns an item each time exactly
if no thread is woken to find the queue empty. -/
theorem queue_keeps_items_iff (actions : List (Action κ T)) :
    Throughout next new KeepsItems actions ∧
      (Throughout next new (fun q => q.KeepsItems ∧ q.PopsItems) actions ↔
        Along next new (fun _ q a => q.WakesToItem a) actions) := by
  have hkeeps : Throughout next (new : BlockingQueue κ T) KeepsItems actions := by
    intro past _ q hq
    exact runActions_induction (P := fun _ q => q.KeepsItems) rfl
      (fun _ _ _ _ h hstep => keepsItems_next h hstep) hq
  have hpops : Throughout next (new : BlockingQueue κ T) PopsItems actions ↔
      Along next new (fun _ q a => q.WakesToItem a) actions :=
    throughout_iff_along (by simp [PopsItems, new]) (fun q a h => popsItems_next_iff h a) actions
  refine ⟨hkeeps, ?_⟩
  rw [← hpops]
  constructor
  · exact fun h past hpast q hq => (h past hpast q hq).2
  · exact fun h past hpast q hq => ⟨hkeeps past hpast q hq, h past hpast q hq⟩

/-- Thread 0 waits for the item that thread 1 pushes, and thread 2 takes it first. -/
def stolenRun : List (Action Nat Nat) := [.pop 0, .push 1 7, .popNonBlock 2, .wake 0]

theorem woken_pop_returns_no_item :
    ¬ ∀ actions : List (Action Nat Nat),
      Throughout next new (fun q => q.KeepsItems ∧ q.PopsItems) actions := by
  intro h
  obtain ⟨q, hq⟩ : ∃ q, runActions next new stolenRun = some q :=
    Option.isSome_iff_exists.mp (by decide)
  have hreturned : ∀ q ∈ runActions next new stolenRun, (PopCall.pop, none) ∈ q.returned := by
    decide
  exact (h stolenRun stolenRun (List.prefix_refl _) q hq).2 (hreturned q hq)

end BlockingQueue

end ParLib
