import Mathlib

/-!
# Runs of a system of guarded steps

A system is a partial step function on states and actions. A run may be
restricted by a condition on the state each step is taken from.
-/

namespace ParLib.Foundations

set_option autoImplicit false

universe u v

variable {σ : Type u} {α : Type v} {step : σ → α → Option σ} {ok : σ → α → Prop}

def runActions (step : σ → α → Option σ) : σ → List α → Option σ
  | s, [] => some s
  | s, a :: rest => (step s a).bind fun t => runActions step t rest

/-- `Run step ok s t`: steps that meet `ok` lead from `s` to `t`. -/
inductive Run (step : σ → α → Option σ) (ok : σ → α → Prop) (s : σ) : σ → Prop
  | refl : Run step ok s s
  | tail {t u : σ} {a : α} (h : Run step ok s t) (hok : ok t a) (hstep : step t a = some u) :
      Run step ok s u

theorem Run.invariant {P : σ → Prop} {s t : σ} (h : Run step ok s t) (hs : P s)
    (hstep : ∀ t a u, P t → ok t a → step t a = some u → P u) : P t := by
  induction h with
  | refl => exact hs
  | tail _ hok hst ih => exact hstep _ _ _ ih hok hst

/-- Each step of a run may be taken to start from a state with the invariant. -/
theorem Run.under_invariant {P : σ → Prop} {s t : σ} (h : Run step ok s t) (hs : P s)
    (hstep : ∀ t a u, P t → ok t a → step t a = some u → P u) :
    Run step (fun t a => ok t a ∧ P t) s t := by
  induction h with
  | refl => exact .refl
  | tail hrun hok hst ih => exact ih.tail ⟨hok, hrun.invariant hs hstep⟩ hst

theorem Run.trans {s t u : σ} (h : Run step ok s t) (h' : Run step ok t u) : Run step ok s u := by
  induction h' with
  | refl => exact h
  | tail _ hok hst ih => exact ih.tail hok hst

theorem Run.mono {ok' : σ → α → Prop} {s t : σ} (h : Run step ok s t)
    (hle : ∀ t a, ok t a → ok' t a) : Run step ok' s t := by
  induction h with
  | refl => exact .refl
  | tail _ hok hst ih => exact ih.tail (hle _ _ hok) hst

/-- A run can be continued to where `Q` holds if some continuation lowers a measure until then. -/
theorem Run.exists_of_measure {P Q : σ → Prop} (measure : σ → Nat)
    (hlower : ∀ s, P s → ¬ Q s → ∃ t, Run step ok s t ∧ P t ∧ measure t < measure s) {s : σ}
    (hs : P s) : ∃ t, Run step ok s t ∧ P t ∧ Q t := by
  induction hn : measure s using Nat.strongRecOn generalizing s with
  | ind n ih =>
    by_cases hQ : Q s
    · exact ⟨s, .refl, hs, hQ⟩
    · obtain ⟨t, hrun, ht, hlt⟩ := hlower s hs hQ
      obtain ⟨u, hrest, hu⟩ := ih (measure t) (hn ▸ hlt) ht rfl
      exact ⟨u, hrun.trans hrest, hu⟩

theorem runActions_append (s : σ) (past rest : List α) :
    runActions step s (past ++ rest) =
      (runActions step s past).bind fun t => runActions step t rest := by
  induction past generalizing s with
  | nil => rfl
  | cons a past ih =>
    rw [List.cons_append, runActions, runActions, Option.bind_assoc]
    congr 1
    funext t
    exact ih t

theorem runActions_concat {s t : σ} {past : List α} (h : runActions step s past = some t) (a : α) :
    runActions step s (past ++ [a]) = step t a := by
  rw [runActions_append, h, Option.bind_some, runActions]
  cases step t a <;> rfl

/-- What a run preserves may speak of its history. -/
theorem runActions_induction {s t : σ} {actions : List α} {P : List α → σ → Prop} (hs : P [] s)
    (hstep : ∀ past a t u, P past t → step t a = some u → P (past ++ [a]) u)
    (h : runActions step s actions = some t) : P actions t := by
  induction actions using List.reverseRecOn generalizing t with
  | nil =>
    cases h
    exact hs
  | append_singleton past a ih =>
    rw [runActions_append] at h
    obtain ⟨m, hm, h⟩ := Option.bind_eq_some_iff.mp h
    obtain ⟨u, hu, ⟨⟩⟩ := Option.bind_eq_some_iff.mp h
    exact hstep past a m _ (ih hm) hu

/-- Every listed action that a run gets to is taken after a history and from a state with `P`. -/
def Along (step : σ → α → Option σ) (s : σ) (P : List α → σ → α → Prop) (actions : List α) :
    Prop :=
  ∀ past a rest, actions = past ++ a :: rest → ∀ t, runActions step s past = some t → P past t a

theorem along_congr {s : σ} {P Q : List α → σ → α → Prop}
    (h : ∀ past a t, runActions step s past = some t → (P past t a ↔ Q past t a))
    (actions : List α) : Along step s P actions ↔ Along step s Q actions :=
  forall₄_congr fun past a _ _ => forall₂_congr fun t ht => h past a t ht

theorem along_of_forall {s : σ} {P : List α → σ → α → Prop} {actions : List α}
    (h : ∀ a ∈ actions, ∀ past t, P past t a) : Along step s P actions := by
  rintro past a rest rfl t -
  exact h a (by simp) past t

/-- Every state that a run through the listed actions gets to has `P`. -/
def Throughout (step : σ → α → Option σ) (s : σ) (P : σ → Prop) (actions : List α) : Prop :=
  ∀ past, past <+: actions → ∀ t, runActions step s past = some t → P t

/-- What every step taken keeps holds throughout. -/
theorem Along.throughout {s : σ} {P : σ → Prop} {Q : σ → α → Prop} {actions : List α}
    (h : Along step s (fun _ => Q) actions) (hs : P s)
    (hstep : ∀ t a u, P t → Q t a → step t a = some u → P u) : Throughout step s P actions := by
  intro past
  induction past using List.reverseRecOn with
  | nil =>
    rintro - t ⟨⟩
    exact hs
  | append_singleton past a ih =>
    rintro ⟨rest, rfl⟩ u hu
    rw [runActions_append] at hu
    obtain ⟨t, ht, hu⟩ := Option.bind_eq_some_iff.mp hu
    obtain ⟨u, hnext, ⟨⟩⟩ := Option.bind_eq_some_iff.mp hu
    have hpast : past <+: past ++ [a] ++ rest := by
      rw [List.append_assoc]
      exact List.prefix_append past _
    exact hstep t a u (ih hpast t ht) (h past a rest (by simp) t ht) hnext

/-- What holds at first holds throughout exactly if every step taken keeps it. -/
theorem throughout_iff_along {s : σ} {P : σ → Prop} {Q : σ → α → Prop} (hs : P s)
    (hstep : ∀ t a, P t → (Q t a ↔ ∀ u, step t a = some u → P u)) (actions : List α) :
    Throughout step s P actions ↔ Along step s (fun _ => Q) actions := by
  constructor
  · rintro h past a rest rfl t ht
    rw [hstep t a (h past (List.prefix_append past _) t ht)]
    intro u hu
    apply h (past ++ [a])
    · exact ⟨rest, by simp⟩
    · rw [runActions_concat ht, hu]
  · exact fun h => h.throughout hs fun t a u ht hq hu => (hstep t a ht).mp hq u hu

/-- Two conditions that agree where an invariant holds, and keep it, agree along a run. -/
theorem along_iff_of_invariant {s : σ} {I : σ → Prop} {P Q : σ → α → Prop} (hs : I s)
    (hiff : ∀ t a, I t → (P t a ↔ Q t a))
    (hstep : ∀ t a u, I t → Q t a → step t a = some u → I u) (actions : List α) :
    Along step s (fun _ => P) actions ↔ Along step s (fun _ => Q) actions := by
  constructor
  · intro h past a rest heq t ht
    have hinv : Throughout step s I actions :=
      h.throughout hs fun t a u ht hp => hstep t a u ht ((hiff t a ht).mp hp)
    exact (hiff t a (hinv past (heq ▸ List.prefix_append past _) t ht)).mp (h past a rest heq t ht)
  · intro h past a rest heq t ht
    have hinv : Throughout step s I actions := h.throughout hs hstep
    exact (hiff t a (hinv past (heq ▸ List.prefix_append past _) t ht)).mpr (h past a rest heq t ht)

theorem Run.of_runActions {s t : σ} {actions : List α} (h : runActions step s actions = some t)
    (hok : ∀ s, ∀ a ∈ actions, ok s a) : Run step ok s t := by
  induction actions generalizing s with
  | nil =>
    cases h
    exact .refl
  | cons a rest ih =>
    obtain ⟨m, hm, hrest⟩ := Option.bind_eq_some_iff.mp h
    have hfirst : Run step ok s m := .tail .refl (hok s a (by simp)) hm
    exact hfirst.trans (ih hrest fun s b hb => hok s b (by simp [hb]))

/-- A run, with the number of its steps that charge and of those that spend. -/
inductive CountedRun (step : σ → α → Option σ) (ok : σ → α → Prop) (charges spends : σ → α → Bool)
    (s : σ) : σ → Nat → Nat → Prop
  | refl : CountedRun step ok charges spends s s 0 0
  | tail {t u : σ} {a : α} {charged spent : Nat}
      (h : CountedRun step ok charges spends s t charged spent) (hok : ok t a)
      (hstep : step t a = some u) :
      CountedRun step ok charges spends s u (charged + (charges t a).toNat)
        (spent + (spends t a).toNat)

variable {charges spends : σ → α → Bool}

theorem CountedRun.run {s t : σ} {charged spent : Nat}
    (h : CountedRun step ok charges spends s t charged spent) : Run step ok s t := by
  induction h with
  | refl => exact .refl
  | tail _ hok hstep ih => exact ih.tail hok hstep

/-- What is spent comes out of a reserve, which a charge fills up by at most `credit`. -/
theorem CountedRun.bounded {P : σ → Prop} {reserve : σ → Nat} {credit : Nat} {s t : σ}
    {charged spent : Nat} (h : CountedRun step ok charges spends s t charged spent) (hs : P s)
    (hstep : ∀ t a u, P t → ok t a → step t a = some u →
      P u ∧ (spends t a).toNat + reserve u ≤ (charges t a).toNat * credit + reserve t) :
    P t ∧ spent + reserve t ≤ charged * credit + reserve s := by
  induction h with
  | refl => exact ⟨hs, by omega⟩
  | @tail t u a charged spent _ hok hnext ih =>
    obtain ⟨ht, hle⟩ := ih
    obtain ⟨hu, hone⟩ := hstep t a u ht hok hnext
    refine ⟨hu, ?_⟩
    calc spent + (spends t a).toNat + reserve u
        = spent + ((spends t a).toNat + reserve u) := Nat.add_assoc ..
      _ ≤ spent + ((charges t a).toNat * credit + reserve t) := Nat.add_le_add_left hone _
      _ = (spent + reserve t) + (charges t a).toNat * credit := by omega
      _ ≤ (charged * credit + reserve s) + (charges t a).toNat * credit :=
          Nat.add_le_add_right hle _
      _ = (charged + (charges t a).toNat) * credit + reserve s := by
          rw [Nat.add_mul]
          omega

/-- Take the listed actions and go on counting. -/
def runCounted (step : σ → α → Option σ) (charges spends : σ → α → Bool) :
    σ × Nat × Nat → List α → Option (σ × Nat × Nat)
  | r, [] => some r
  | (s, charged, spent), a :: rest => (step s a).bind fun t =>
    runCounted step charges spends
      (t, charged + (charges s a).toNat, spent + (spends s a).toNat) rest

theorem CountedRun.of_runCounted {s t u : σ} {charged spent charged' spent' : Nat}
    {actions : List α} (hs : CountedRun step ok charges spends s t charged spent)
    (h : runCounted step charges spends (t, charged, spent) actions = some (u, charged', spent'))
    (hok : ∀ t, ∀ a ∈ actions, ok t a) :
    CountedRun step ok charges spends s u charged' spent' := by
  induction actions generalizing t charged spent with
  | nil =>
    cases h
    exact hs
  | cons a rest ih =>
    obtain ⟨m, hm, hrest⟩ := Option.bind_eq_some_iff.mp h
    exact ih (hs.tail (hok t a (by simp)) hm) hrest fun t b hb => hok t b (by simp [hb])

/-- Take the listed actions as long as they meet `ok`. -/
def runWhile (step : σ → α → Option σ) (ok : σ → α → Prop) [∀ s a, Decidable (ok s a)] :
    σ → List α → Option σ
  | s, [] => some s
  | s, a :: rest => if ok s a then (step s a).bind fun t => runWhile step ok t rest else none

theorem Run.of_runWhile [∀ s a, Decidable (ok s a)] {s t : σ} {actions : List α}
    (h : runWhile step ok s actions = some t) : Run step ok s t := by
  induction actions generalizing s with
  | nil =>
    cases h
    exact .refl
  | cons a rest ih =>
    obtain ⟨hok, h⟩ := Option.ite_none_right_eq_some.mp h
    obtain ⟨m, hm, hrest⟩ := Option.bind_eq_some_iff.mp h
    have hfirst : Run step ok s m := .tail .refl hok hm
    exact hfirst.trans (ih hrest)

end ParLib.Foundations
