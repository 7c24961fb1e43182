import Mathlib

/-!
# Search stacks and their division

A stack keeps its bottom at the front of `data` and its top at the back.
`getParallelStacks` halves all stacks round by round, until there are `count`
of them. The stacks of a round are shared between `pars` and `newPars`, so
halving a stack in place is seen in both lists.
-/

namespace ParLib

set_option autoImplicit false

universe u

structure ParallelStack (T : Type u) where
  data : List T
  deriving DecidableEq, Repr

namespace ParallelStack

variable {T : Type u}

def empty (s : ParallelStack T) : Bool := s.data.isEmpty

def push (s : ParallelStack T) (item : T) : ParallelStack T := ⟨s.data ++ [item]⟩

def top? (s : ParallelStack T) : Option T := s.data.getLast?

def pop (s : ParallelStack T) : ParallelStack T := ⟨s.data.dropLast⟩

def size (s : ParallelStack T) : Nat := s.data.length

/-- The kept stack and the given one, as in all the splits. -/
def giveTopHalf (s : ParallelStack T) : ParallelStack T × ParallelStack T :=
  let newData := (List.range (s.size - s.size / 2)).filterMap fun i => s.data[i + s.size / 2]?
  (⟨s.data.take (s.size / 2)⟩, ⟨newData⟩)

/-- `rest` is an `int`, and compared with the size as a 64-bit number; `none` is the
`length_error` of a vector with a negative size. -/
def giveTopQuarter (s : ParallelStack T) : Option (ParallelStack T × ParallelStack T) :=
  let rest := (Int32.ofNat (s.size - s.size / 4)).toInt
  let rest := if rest % 2 ^ 64 = s.size then rest - 1 else rest
  if rest < 0 then none
  else
    let newData := (List.range rest.toNat).filterMap fun i => s.data[i + s.size - rest.toNat]?
    some (⟨newData⟩, ⟨s.data.take (s.size / 4)⟩)

/-- The items at odd positions, which `giveInterleaved` gives away. -/
def newDataA (data : List T) : List T :=
  (List.range (data.length / 2)).filterMap fun i => data[i * 2 + 1]?

/-- The items at even positions, which `giveInterleaved` keeps. -/
def newDataB (data : List T) : List T :=
  (List.range (data.length - data.length / 2)).filterMap fun i => data[i * 2]?

def giveInterleaved (s : ParallelStack T) : ParallelStack T × ParallelStack T :=
  (⟨newDataB s.data⟩, ⟨newDataA s.data⟩)

@[simp]
theorem newDataA_nil : newDataA ([] : List T) = [] := by simp [newDataA]

@[simp]
theorem newDataB_nil : newDataB ([] : List T) = [] := by simp [newDataB]

@[simp]
theorem newDataA_singleton (a : T) : newDataA [a] = [] := by simp [newDataA]

@[simp]
theorem newDataB_singleton (a : T) : newDataB [a] = [a] := by simp [newDataB]

@[simp]
theorem newDataA_cons_cons (a b : T) (data : List T) :
    newDataA (a :: b :: data) = b :: newDataA data := by
  have hlen : (a :: b :: data).length / 2 = data.length / 2 + 1 := by simp; omega
  rw [newDataA, hlen, List.range_succ_eq_map, List.filterMap_cons, List.filterMap_map]
  simp [newDataA, Nat.add_mul]

@[simp]
theorem newDataB_cons_cons (a b : T) (data : List T) :
    newDataB (a :: b :: data) = a :: newDataB data := by
  have hlen : (a :: b :: data).length - (a :: b :: data).length / 2 =
      data.length - data.length / 2 + 1 := by simp; omega
  rw [newDataB, hlen, List.range_succ_eq_map, List.filterMap_cons, List.filterMap_map]
  simp [newDataB, Nat.add_mul]

/-- Interleaved halving neither loses nor copies an item. -/
theorem newDataB_add_newDataA (data : List T) :
    (newDataB data : Multiset T) + (newDataA data : Multiset T) = data := by
  induction data using List.twoStepInduction with
  | nil => simp
  | singleton a => simp
  | cons_cons a b data ih =>
    rw [newDataA_cons_cons, newDataB_cons_cons, ← Multiset.cons_coe, ← Multiset.cons_coe,
      Multiset.cons_add, Multiset.add_cons, ih, Multiset.cons_coe, Multiset.cons_coe]

theorem newDataB_eq_nil_iff (data : List T) : newDataB data = [] ↔ data = [] := by
  rcases data with _ | ⟨a, _ | ⟨b, data⟩⟩ <;> simp

theorem newDataA_eq_nil_iff (data : List T) : newDataA data = [] ↔ data.length ≤ 1 := by
  rcases data with _ | ⟨a, _ | ⟨b, data⟩⟩ <;> simp

theorem mem_newDataA_or_newDataB {data : List T} {a : T} :
    a ∈ newDataB data ∨ a ∈ newDataA data ↔ a ∈ data := by
  rw [← Multiset.mem_coe, ← Multiset.mem_coe, ← Multiset.mem_add, newDataB_add_newDataA,
    Multiset.mem_coe]

end ParallelStack

open ParallelStack

variable {T : Type u}

/-- The loop over `pars` in one round, at its `i`-th stack with `todo` stacks to go;
the flag reports the early return. -/
def divideLoop (count i : Nat) : Nat → List (ParallelStack T) → Bool × List (ParallelStack T)
  | 0, newPars => (false, newPars)
  | todo + 1, newPars =>
    match newPars[i]? with
    | none => (false, newPars)
    | some stack =>
      let newPars := newPars.set i stack.giveInterleaved.1 ++ [stack.giveInterleaved.2]
      if newPars.length = count then (true, newPars) else divideLoop count (i + 1) todo newPars

/-- The outer loop; every round that does not return doubles the list, so `count`
rounds are more than it can take. -/
def divideRounds (count : Nat) : Nat → List (ParallelStack T) → List (ParallelStack T)
  | 0, pars => pars
  | rounds + 1, pars =>
    if pars.length ≠ 0 ∧ pars.length < count then
      match divideLoop count 0 pars.length pars with
      | (true, newPars) => newPars
      | (false, newPars) => divideRounds count rounds newPars
    else pars

def getParallelStacks (states : List T) (count : Nat) : List (ParallelStack T) :=
  divideRounds count count [⟨states⟩]

def contents (pars : List (ParallelStack T)) : Multiset T :=
  (pars.map fun s => (s.data : Multiset T)).sum

@[simp]
theorem contents_nil : contents ([] : List (ParallelStack T)) = 0 := rfl

@[simp]
theorem contents_cons (s : ParallelStack T) (pars : List (ParallelStack T)) :
    contents (s :: pars) = (s.data : Multiset T) + contents pars := rfl

@[simp]
theorem contents_append (pars pars' : List (ParallelStack T)) :
    contents (pars ++ pars') = contents pars + contents pars' := by
  simp [contents]

theorem mem_contents {pars : List (ParallelStack T)} {a : T} :
    a ∈ contents pars ↔ ∃ s ∈ pars, a ∈ s.data := by
  induction pars with
  | nil => simp
  | cons s pars ih => simp [ih]

theorem contents_halve (newPars : List (ParallelStack T)) (i : Nat) (stack : ParallelStack T)
    (h : newPars[i]? = some stack) :
    contents (newPars.set i stack.giveInterleaved.1 ++ [stack.giveInterleaved.2]) =
      contents newPars := by
  induction newPars generalizing i with
  | nil => cases h
  | cons head tail ih =>
    cases i with
    | zero =>
      cases h
      simp only [List.set_cons_zero, List.cons_append, contents_cons, contents_append,
        contents_nil, add_zero, giveInterleaved]
      rw [add_comm (contents tail), ← add_assoc, newDataB_add_newDataA]
    | succ i =>
      rw [List.set_cons_succ, List.cons_append, contents_cons, ih i (by simpa using h),
        contents_cons]

theorem divideLoop_contents (count i todo : Nat) (newPars : List (ParallelStack T)) :
    contents (divideLoop count i todo newPars).2 = contents newPars := by
  induction todo generalizing i newPars with
  | zero => rfl
  | succ todo ih =>
    simp only [divideLoop]
    split
    · rfl
    · rename_i stack hstack
      split
      · exact contents_halve newPars i stack hstack
      · rw [ih, contents_halve newPars i stack hstack]

theorem divideRounds_contents (count rounds : Nat) (pars : List (ParallelStack T)) :
    contents (divideRounds count rounds pars) = contents pars := by
  induction rounds generalizing pars with
  | zero => rfl
  | succ rounds ih =>
    rw [divideRounds]
    split
    · have hloop := divideLoop_contents count 0 pars.length pars
      split
      · rename_i newPars heq
        rwa [heq] at hloop
      · rename_i newPars heq
        rw [ih]
        rwa [heq] at hloop
    · rfl

theorem getParallelStacks_contents (states : List T) (count : Nat) :
    contents (getParallelStacks states count) = states := by
  rw [getParallelStacks, divideRounds_contents]
  simp [contents]

theorem mem_getParallelStacks {states : List T} {count : Nat} {a : T} :
    (∃ s ∈ getParallelStacks states count, a ∈ s.data) ↔ a ∈ states := by
  rw [← mem_contents, getParallelStacks_contents, Multiset.mem_coe]

theorem divideLoop_length (count i todo : Nat) (newPars : List (ParallelStack T))
    (hi : i + todo ≤ newPars.length) (hlt : newPars.length < count) :
    if (divideLoop count i todo newPars).1 then
      (divideLoop count i todo newPars).2.length = count
    else (divideLoop count i todo newPars).2.length = newPars.length + todo ∧
      newPars.length + todo < count := by
  induction todo generalizing i newPars with
  | zero => simpa [divideLoop] using hlt
  | succ todo ih =>
    have hget : newPars[i]? = some newPars[i] := List.getElem?_eq_getElem (by omega)
    simp only [divideLoop, hget]
    split_ifs with hcount hflag hflag
    · exact hcount
    · exact absurd rfl hflag
    · have hlen : (newPars.set i newPars[i].giveInterleaved.1 ++
          [newPars[i].giveInterleaved.2]).length = newPars.length + 1 := by simp
      have h := ih (i + 1) (newPars.set i newPars[i].giveInterleaved.1 ++
        [newPars[i].giveInterleaved.2]) (by omega) (by omega)
      rwa [if_pos hflag] at h
    · have hlen : (newPars.set i newPars[i].giveInterleaved.1 ++
          [newPars[i].giveInterleaved.2]).length = newPars.length + 1 := by simp
      have h := ih (i + 1) (newPars.set i newPars[i].giveInterleaved.1 ++
        [newPars[i].giveInterleaved.2]) (by omega) (by omega)
      rw [if_neg hflag] at h
      omega

theorem divideRounds_length (count rounds : Nat) (pars : List (ParallelStack T))
    (hpos : 0 < pars.length) (hle : pars.length ≤ count) (hfuel : count ≤ pars.length + rounds) :
    (divideRounds count rounds pars).length = count := by
  induction rounds generalizing pars with
  | zero =>
    rw [divideRounds]
    omega
  | succ rounds ih =>
    rw [divideRounds]
    by_cases hlt : pars.length < count
    · rw [if_pos ⟨by omega, hlt⟩]
      have hloop := divideLoop_length count 0 pars.length pars (by omega) hlt
      split
      · rename_i newPars heq
        rw [heq] at hloop
        simpa using hloop
      · rename_i newPars heq
        rw [heq] at hloop
        have hlen : newPars.length = pars.length + pars.length ∧
          pars.length + pars.length < count := by simpa using hloop
        exact ih newPars (by omega) (by omega) (by omega)
    · rw [if_neg (by omega)]
      omega

theorem getParallelStacks_length (states : List T) (count : Nat) (hcount : 1 ≤ count) :
    (getParallelStacks states count).length = count :=
  divideRounds_length count count [⟨states⟩] (by simp) (by simpa) (by simp)

@[simp]
theorem getParallelStacks_two (states : List T) :
    getParallelStacks states 2 = [⟨newDataB states⟩, ⟨newDataA states⟩] := rfl

end ParLib
