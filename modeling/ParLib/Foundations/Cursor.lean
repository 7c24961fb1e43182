import Mathlib

/-!
# Reading with a bare cursor

A cursor is a position in a memory without ends: reading it never fails, and
whether a reader stays inside the part that it was given is a question about
the accesses it makes. `Reads d text` answers it once and for all by a
declarative format: `text bs a` says that the bytes `bs` are a text of the
value `a`. A reader may ask for what cannot be had, and be killed: a value is
of use only if the reader was not. `Safe d text` says that no text kills it.
-/

namespace ParLib.Foundations

set_option autoImplicit false

inductive Access
  | read (offset : Int)
  | move (distance : Int)
  deriving DecidableEq, Repr

/-- A read of the first `length` bytes, or a move that is not backwards. -/
def Access.Inside (length : Int) : Access → Prop
  | .read offset => 0 ≤ offset ∧ offset < length
  | .move distance => 0 ≤ distance

/-- `log` is the history of the accesses and is read by no function; once `crashed` is set,
nothing that follows happens. -/
structure Cursor (β : Type) where
  memory : Int → β
  pos : Int
  log : List Access
  crashed : Bool

def Reader (β α : Type) := Cursor β → α × Cursor β

namespace Reader

variable {β α γ σ : Type}

instance : Monad (Reader β) where
  pure a s := (a, s)
  bind d f s := f (d s).1 (d s).2

def window (memory : Int → β) (pos : Int) (n : Nat) : List β :=
  (List.range n).map fun i : Nat => memory (pos + i)

/-- Copy `n` bytes one by one, then move by `n`; a negative `n` copies nothing. -/
def take (n : Int) : Reader β (List β) := fun s =>
  (window s.memory s.pos n.toNat,
    { s with
      pos := s.pos + n
      log := s.log ++ ((List.range n.toNat).map fun i : Nat => .read (s.pos + i)) ++ [.move n] })

def require (ok : Bool) : Reader β Unit := fun s => ((), { s with crashed := s.crashed || !ok })

/-- Read `n` items, each taken into the accumulator at once. -/
def loop (d : Reader β α) (push : σ → α → σ) : Nat → σ → Reader β σ
  | 0, acc => pure acc
  | n + 1, acc => do
    let a ← d
    loop d push n (push acc a)

def Holds (memory : Int → β) (pos : Int) (bs : List β) : Prop := window memory pos bs.length = bs

@[simp]
theorem length_window (memory : Int → β) (pos : Int) (n : Nat) :
    (window memory pos n).length = n := by
  simp [window]

theorem window_add (memory : Int → β) (pos : Int) (m n : Nat) :
    window memory pos (m + n) = window memory pos m ++ window memory (pos + m) n := by
  rw [window, List.range_add, List.map_append, List.map_map, window, window]
  congr 2
  funext i
  simp [add_assoc]

theorem holds_append {memory : Int → β} {pos : Int} {bs cs : List β} :
    Holds memory pos (bs ++ cs) ↔ Holds memory pos bs ∧ Holds memory (pos + bs.length) cs := by
  rw [Holds, List.length_append, window_add]
  constructor
  · intro h
    exact List.append_inj h (length_window ..)
  · rintro ⟨hbs, hcs⟩
    rw [hbs, hcs]

theorem holds_window (memory : Int → β) (pos : Int) (n : Nat) :
    Holds memory pos (window memory pos n) := by
  rw [Holds, length_window]

/-- What a reader reads: from a text it reads its value and goes to its end, and it stays
inside `length` bytes just when what is there begins with a text. -/
structure Reads (d : Reader β α) (text : List β → α → Prop) : Prop where
  memory : ∀ s, (d s).2.memory = s.memory
  value : ∀ s bs a, text bs a → Holds s.memory s.pos bs →
    (d s).1 = a ∧ (d s).2.pos = s.pos + bs.length
  log : ∀ s, ∃ log, (d s).2.log = s.log ++ log ∧ ∀ length, 0 ≤ s.pos → s.pos ≤ length →
    ((∀ a ∈ log, a.Inside length) ↔
      ∃ bs a, text bs a ∧ Holds s.memory s.pos bs ∧ s.pos + bs.length ≤ length)

theorem Reads.congr {d : Reader β α} {text text' : List β → α → Prop} (h : Reads d text)
    (heq : ∀ bs a, text bs a ↔ text' bs a) : Reads d text' := by
  obtain rfl : text = text' := funext fun bs => funext fun a => propext (heq bs a)
  exact h

theorem reads_pure (a : α) : Reads (pure a : Reader β α) fun bs b => bs = [] ∧ b = a where
  memory _ := rfl
  value s bs b := by
    rintro ⟨rfl, rfl⟩ -
    exact ⟨rfl, (add_zero _).symm⟩
  log s := by
    refine ⟨[], (List.append_nil _).symm, ?_⟩
    intro length _ hpos
    simp only [List.not_mem_nil, false_implies, implies_true, true_iff]
    exact ⟨[], a, ⟨rfl, rfl⟩, rfl, by simpa using hpos⟩

theorem reads_take (n : Int) :
    Reads (take n : Reader β (List β)) fun bs as => (bs.length : Int) = n ∧ as = bs where
  memory _ := rfl
  value s bs as := by
    rintro ⟨rfl, rfl⟩ hholds
    exact ⟨hholds, rfl⟩
  log s := by
    refine ⟨_, List.append_assoc .., ?_⟩
    intro length hpos _
    constructor
    · intro h
      have hn : 0 ≤ n := h (.move n) (by simp)
      refine ⟨window s.memory s.pos n.toNat, _, ⟨?_, rfl⟩, holds_window .., ?_⟩
      · rw [length_window, Int.toNat_of_nonneg hn]
      · rw [length_window, Int.toNat_of_nonneg hn]
        rcases hn.eq_or_lt with rfl | hlt
        · simpa
        · have hlast : (Access.read (s.pos + (n.toNat - 1 : Nat))).Inside length := by
            apply h
            apply List.mem_append_left
            exact List.mem_map.mpr ⟨n.toNat - 1, by simp; omega, rfl⟩
          have := hlast.2
          omega
    · rintro ⟨bs, as, ⟨rfl, rfl⟩, -, hfits⟩ access haccess
      simp only [Int.toNat_natCast, List.mem_append, List.mem_map, List.mem_range,
        List.mem_singleton] at haccess
      rcases haccess with ⟨i, hi, rfl⟩ | rfl
      · exact ⟨by omega, by omega⟩
      · exact Int.natCast_nonneg _

theorem reads_require (ok : Bool) :
    Reads (require ok : Reader β Unit) fun bs _ => bs = [] where
  memory _ := rfl
  value s bs _ := by
    rintro rfl -
    exact ⟨rfl, (add_zero _).symm⟩
  log s := by
    refine ⟨[], (List.append_nil _).symm, ?_⟩
    intro length _ hpos
    simp only [List.not_mem_nil, false_implies, implies_true, true_iff]
    exact ⟨[], (), rfl, rfl, by simpa using hpos⟩

theorem Reads.bind {d : Reader β α} {f : α → Reader β γ} {text : List β → α → Prop}
    {text' : α → List β → γ → Prop} (h : Reads d text) (h' : ∀ a, Reads (f a) (text' a)) :
    Reads (d >>= f) fun bs c => ∃ bs₁ a bs₂, bs = bs₁ ++ bs₂ ∧ text bs₁ a ∧ text' a bs₂ c where
  memory s := ((h' _).memory _).trans (h.memory s)
  value s bs c := by
    rintro ⟨bs₁, a, bs₂, rfl, ht, ht'⟩ hholds
    obtain ⟨hfirst, hsecond⟩ := holds_append.mp hholds
    obtain ⟨ha, hpos⟩ := h.value s bs₁ a ht hfirst
    rw [← h.memory s, ← hpos] at hsecond
    obtain ⟨hc, hpos'⟩ := (h' a).value (d s).2 bs₂ c ht' hsecond
    change (f (d s).1 (d s).2).1 = c ∧ (f (d s).1 (d s).2).2.pos = _
    rw [ha, hc, hpos', hpos, List.length_append]
    exact ⟨rfl, by push_cast; ring⟩
  log s := by
    obtain ⟨log, hlog, hinside⟩ := h.log s
    obtain ⟨log', hlog', hinside'⟩ := (h' (d s).1).log (d s).2
    refine ⟨log ++ log', ?_, ?_⟩
    · change (f (d s).1 (d s).2).2.log = _
      rw [hlog', hlog, List.append_assoc]
    intro length hpos hle
    simp only [List.mem_append, or_imp, forall_and]
    constructor
    · rintro ⟨hin, hin'⟩
      obtain ⟨bs₁, a, ht, hholds, hfits⟩ := (hinside length hpos hle).mp hin
      obtain ⟨ha, hend⟩ := h.value s bs₁ a ht hholds
      obtain ⟨bs₂, c, ht', hholds', hfits'⟩ := (hinside' length (by omega) (by omega)).mp hin'
      rw [h.memory, hend] at hholds'
      rw [ha] at ht'
      refine ⟨bs₁ ++ bs₂, c, ⟨bs₁, a, bs₂, rfl, ht, ht'⟩, holds_append.mpr ⟨hholds, hholds'⟩, ?_⟩
      rw [List.length_append]
      push_cast
      omega
    · rintro ⟨bs, c, ⟨bs₁, a, bs₂, rfl, ht, ht'⟩, hholds, hfits⟩
      obtain ⟨hfirst, hsecond⟩ := holds_append.mp hholds
      obtain ⟨ha, hend⟩ := h.value s bs₁ a ht hfirst
      rw [List.length_append] at hfits
      push_cast at hfits
      refine ⟨(hinside length hpos hle).mpr ⟨bs₁, a, ht, hfirst, by omega⟩, ?_⟩
      apply (hinside' length (by omega) (by omega)).mpr
      refine ⟨bs₂, c, ha ▸ ht', ?_, by omega⟩
      rwa [h.memory, hend]

theorem Reads.map {d : Reader β α} {text : List β → α → Prop} (h : Reads d text) (f : α → γ) :
    Reads (d >>= fun a => pure (f a)) fun bs c => ∃ a, text bs a ∧ c = f a := by
  apply (h.bind fun a => reads_pure (f a)).congr
  intro bs c
  constructor
  · rintro ⟨bs₁, a, bs₂, rfl, ht, rfl, rfl⟩
    exact ⟨a, by rwa [List.append_nil], rfl⟩
  · rintro ⟨a, ht, rfl⟩
    exact ⟨bs, a, [], (List.append_nil _).symm, ht, rfl, rfl⟩

/-- A text of each item, one after another. -/
def TextOf (text : List β → α → Prop) (bs : List β) (items : List α) : Prop :=
  ∃ parts, bs = parts.flatten ∧ List.Forall₂ text parts items

theorem textOf_nil {text : List β → α → Prop} {bs : List β} : TextOf text bs [] ↔ bs = [] := by
  constructor
  · rintro ⟨parts, rfl, hparts⟩
    rw [List.forall₂_nil_right_iff.mp hparts, List.flatten_nil]
  · rintro rfl
    exact ⟨[], rfl, .nil⟩

theorem textOf_cons {text : List β → α → Prop} {bs : List β} {a : α} {items : List α} :
    TextOf text bs (a :: items) ↔ ∃ bs₁ bs₂, bs = bs₁ ++ bs₂ ∧ text bs₁ a ∧
      TextOf text bs₂ items := by
  constructor
  · rintro ⟨parts, rfl, hparts⟩
    cases hparts with
    | cons ha hrest => exact ⟨_, _, List.flatten_cons, ha, _, rfl, hrest⟩
  · rintro ⟨bs₁, bs₂, rfl, ha, parts, rfl, hparts⟩
    exact ⟨bs₁ :: parts, List.flatten_cons.symm, .cons ha hparts⟩

theorem Reads.loop {d : Reader β α} {text : List β → α → Prop} (h : Reads d text)
    (push : σ → α → σ) (n : Nat) (acc : σ) :
    Reads (Reader.loop d push n acc) fun bs r =>
      ∃ items, items.length = n ∧ TextOf text bs items ∧ r = items.foldl push acc := by
  induction n generalizing acc with
  | zero =>
    apply (reads_pure acc).congr
    intro bs r
    constructor
    · rintro ⟨rfl, rfl⟩
      exact ⟨[], rfl, textOf_nil.mpr rfl, rfl⟩
    · rintro ⟨items, hlen, ht, rfl⟩
      obtain rfl := List.length_eq_zero_iff.mp hlen
      exact ⟨textOf_nil.mp ht, rfl⟩
  | succ n ih =>
    apply (h.bind fun a => ih (push acc a)).congr
    intro bs r
    constructor
    · rintro ⟨bs₁, a, bs₂, rfl, ha, items, rfl, hitems, rfl⟩
      exact ⟨a :: items, rfl, textOf_cons.mpr ⟨bs₁, bs₂, rfl, ha, hitems⟩, rfl⟩
    · rintro ⟨items, hlen, ht, rfl⟩
      obtain ⟨a, items, rfl⟩ := List.exists_cons_of_length_eq_add_one hlen
      obtain ⟨bs₁, bs₂, rfl, ha, hitems⟩ := textOf_cons.mp ht
      exact ⟨bs₁, a, bs₂, rfl, ha, items, by simpa using hlen, hitems, rfl⟩

/-- Reading one of these texts does not crash. -/
def Safe (d : Reader β α) (safe : List β → α → Prop) : Prop :=
  ∀ s bs a, safe bs a → Holds s.memory s.pos bs → (d s).2.crashed = s.crashed

theorem Safe.bind {d : Reader β α} {f : α → Reader β γ} {text safe : List β → α → Prop}
    {safe' : α → List β → γ → Prop} (h : Reads d text) (hsub : ∀ bs a, safe bs a → text bs a)
    (hd : Safe d safe) (hf : ∀ a, Safe (f a) (safe' a)) :
    Safe (d >>= f) fun bs c => ∃ bs₁ a bs₂, bs = bs₁ ++ bs₂ ∧ safe bs₁ a ∧ safe' a bs₂ c := by
  rintro s bs c ⟨bs₁, a, bs₂, rfl, ht, ht'⟩ hholds
  obtain ⟨hfirst, hsecond⟩ := holds_append.mp hholds
  obtain ⟨ha, hpos⟩ := h.value s bs₁ a (hsub bs₁ a ht) hfirst
  rw [← h.memory s, ← hpos] at hsecond
  have hrest := hf a (d s).2 bs₂ c ht' hsecond
  rw [hd s bs₁ a ht hfirst] at hrest
  change (f (d s).1 (d s).2).2.crashed = s.crashed
  rw [ha]
  exact hrest

theorem Safe.loop {d : Reader β α} {text safe : List β → α → Prop} (h : Reads d text)
    (hsub : ∀ bs a, safe bs a → text bs a) (hd : Safe d safe) (push : σ → α → σ) (n : Nat)
    (acc : σ) :
    Safe (Reader.loop d push n acc) fun bs _ =>
      ∃ items, items.length = n ∧ TextOf safe bs items := by
  induction n generalizing acc with
  | zero => exact fun _ _ _ _ _ => rfl
  | succ n ih =>
    rintro s bs r ⟨items, hlen, ht⟩ hholds
    obtain ⟨a, items, rfl⟩ := List.exists_cons_of_length_eq_add_one hlen
    obtain ⟨bs₁, bs₂, rfl, ha, hitems⟩ := textOf_cons.mp ht
    have hstep := Safe.bind h hsub hd fun a => ih (push acc a)
    exact hstep s _ r ⟨bs₁, a, bs₂, rfl, ha, items, by simpa using hlen, hitems⟩ hholds

/-- The text of what no text crashes. -/
theorem Safe.loop_any {d : Reader β α} (hd : Safe d fun _ _ => True) (push : σ → α → σ) (n : Nat)
    (acc : σ) : Safe (Reader.loop d push n acc) fun _ _ => True := by
  induction n generalizing acc with
  | zero => exact fun _ _ _ _ _ => rfl
  | succ n ih =>
    intro s _ r _ _
    have hfirst := hd s [] (d s).1 trivial rfl
    have hrest := ih (push acc (d s).1) (d s).2 [] r trivial rfl
    exact hrest.trans hfirst

end Reader

end ParLib.Foundations
