import Mathlib

/-!
# Replicated registers

Every replica of a register overwrites its value with the writes that reach
it, in sending order. The replicas agree if they hold the same value once all
pending writes have been made; a replica that has caught up may write.
-/

namespace ParLib.Foundations

set_option autoImplicit false

universe u v

variable {ι : Type u} {α : Type v}

/-- The value of a replica once its pending writes have been made. -/
def finalValue (current : α) (pending : List α) : α := pending.getLast?.getD current

@[simp]
theorem finalValue_nil (current : α) : finalValue current [] = current := rfl

@[simp]
theorem finalValue_cons (current value : α) (pending : List α) :
    finalValue current (value :: pending) = finalValue value pending := by
  rw [finalValue, List.getLast?_cons, Option.getD_some, finalValue]

/-- Once something has been appended, its last write is what counts. -/
theorem finalValue_append {current value : α} {pending sent : List α} (hsent : sent ≠ [])
    (hvalue : ∀ v ∈ sent, v = value) : finalValue current (pending ++ sent) = value := by
  have hlast : sent.getLast? = some (sent.getLast hsent) := List.getLast?_eq_some_getLast hsent
  rw [finalValue, List.getLast?_append, hlast, Option.some_or, Option.getD_some]
  exact hvalue _ (List.getLast_mem hsent)

def Agree (members : Set ι) (current : ι → α) (pending : ι → List α) : Prop :=
  ∀ x ∈ members, ∀ y ∈ members,
    finalValue (current x) (pending x) = finalValue (current y) (pending y)

variable {members : Set ι} {current current' : ι → α} {pending pending' : ι → List α}

theorem Agree.current_eq (h : Agree members current pending) (hnone : ∀ x, pending x = [])
    {x y : ι} (hx : x ∈ members) (hy : y ∈ members) : current x = current y := by
  have hfinal := h x hx y hy
  rwa [hnone, hnone, finalValue_nil, finalValue_nil] at hfinal

theorem Agree.of_final_eq (h : Agree members current pending)
    (hfinal : ∀ x ∈ members, finalValue (current' x) (pending' x) =
      finalValue (current x) (pending x)) : Agree members current' pending' := by
  intro x hx y hy
  rw [hfinal x hx, hfinal y hy]
  exact h x hx y hy

/-- A replica with no pending write sends its new value to the others, or to some of
them its old one. -/
theorem Agree.write (h : Agree members current pending) {x : ι} (hx : x ∈ members)
    (hnone : pending x = []) (hnone' : pending' x = [])
    (hothers : ∀ y ∈ members, y ≠ x → finalValue (current' y) (pending' y) = current' x ∨
      finalValue (current' y) (pending' y) = finalValue (current y) (pending y) ∧
        current' x = current x) : Agree members current' pending' := by
  have hall : ∀ y ∈ members, finalValue (current' y) (pending' y) = current' x := by
    intro y hy
    rcases eq_or_ne y x with rfl | hne
    · rw [hnone', finalValue_nil]
    · rcases hothers y hy hne with hsent | ⟨hkept, hsame⟩
      · exact hsent
      · rw [hkept, h y hy x hx, hnone, finalValue_nil, hsame]
  intro y hy z hz
  rw [hall y hy, hall z hz]

end ParLib.Foundations
