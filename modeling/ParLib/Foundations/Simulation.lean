import ParLib.Foundations.Runs

/-!
# Simulations between two systems of guarded steps

A system simulates another one if each step of the other is matched by some
steps, or none, that keep a relation between the states. What is in flight is
compared as multisets: the simulating system may hold more than it needs.
-/

namespace ParLib.Foundations

set_option autoImplicit false

universe u v w x

section Runs

variable {σ : Type u} {α : Type v} {τ : Type w} {β : Type x} {step : σ → α → Option σ}
  {ok : σ → α → Prop} {step' : τ → β → Option τ} {ok' : τ → β → Prop}

/-- Each step that meets `ok` is matched by one that meets `ok'`, or is invisible. -/
def Simulates (step : σ → α → Option σ) (ok : σ → α → Prop) (step' : τ → β → Option τ)
    (ok' : τ → β → Prop) (R : σ → τ → Prop) : Prop :=
  ∀ s a t m, R s m → ok s a → step s a = some t →
    R t m ∨ ∃ b n, ok' m b ∧ step' m b = some n ∧ R t n

theorem Simulates.run {R : σ → τ → Prop} (h : Simulates step ok step' ok' R) {s t : σ} {m : τ}
    (hR : R s m) (hrun : Run step ok s t) : ∃ n, Run step' ok' m n ∧ R t n := by
  induction hrun with
  | refl => exact ⟨m, .refl, hR⟩
  | tail _ hok hstep ih =>
    obtain ⟨n, hn, hR⟩ := ih
    obtain hR | ⟨b, n', hok', hstep', hR⟩ := h _ _ _ n hR hok hstep
    · exact ⟨n, hn, hR⟩
    · exact ⟨n', hn.tail hok' hstep', hR⟩

theorem Simulates.safe {R : σ → τ → Prop} (h : Simulates step ok step' ok' R) {s t : σ} {m : τ}
    (hR : R s m) {P : σ → Prop} {Q : τ → Prop} (hsafe : ∀ n, Run step' ok' m n → Q n)
    (hback : ∀ t n, R t n → Q n → P t) (hrun : Run step ok s t) : P t := by
  obtain ⟨n, hn, hR⟩ := h.run hR hrun
  exact hback t n hR (hsafe n hn)

end Runs

section InFlight

variable {α : Type u}

/-- What is in flight can be found in a list that holds more, and taken from it. -/
theorem exists_take_of_cons_le {p : α} {s : Multiset α} {l : List α} (h : p ::ₘ s ≤ ↑l) :
    ∃ pre post, l = pre ++ p :: post ∧ s ≤ ↑(pre ++ post) := by
  have hp : p ∈ l := Multiset.mem_coe.mp (Multiset.mem_of_le h (Multiset.mem_cons_self p s))
  obtain ⟨pre, post, rfl⟩ := List.append_of_mem hp
  refine ⟨pre, post, rfl, ?_⟩
  have hperm : ((pre ++ p :: post : List α) : Multiset α) = p ::ₘ ↑(pre ++ post) := by
    rw [Multiset.cons_coe, Multiset.coe_eq_coe]
    exact List.perm_middle
  rw [hperm] at h
  exact (Multiset.cons_le_cons_iff p).mp h

variable {M : Type v} [AddCommMonoid M]

theorem sum_map_set (f : α → M) {l : List α} {i : Nat} {x : α} (hx : l[i]? = some x) (y : α) :
    ((l.set i y).map f).sum + f x = (l.map f).sum + f y := by
  induction l generalizing i with
  | nil => cases hx
  | cons z l ih =>
    cases i with
    | zero =>
      cases hx
      rw [List.set_cons_zero, List.map_cons, List.map_cons, List.sum_cons, List.sum_cons]
      ac_rfl
    | succ i =>
      rw [List.set_cons_succ, List.map_cons, List.map_cons, List.sum_cons, List.sum_cons,
        add_assoc, ih hx, add_assoc]

end InFlight

end ParLib.Foundations
