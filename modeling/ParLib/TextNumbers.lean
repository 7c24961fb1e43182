import ParLib.Foundations.LittleEndian

/-!
# Numbers in texts

`>>` skips blanks, takes a sign and the digits after it, and cuts what is out
of range to the nearest number of the type; without digits it stores 0. A
stream that has met its end or an error stores nothing any more.
-/

namespace ParLib

set_option autoImplicit false

open Foundations

def isSpace (c : Byte) : Bool := c = 32 ∨ (9 ≤ c ∧ c ≤ 13)

def isDigit (c : Byte) : Bool := 48 ≤ c ∧ c ≤ 57

def decimalValue (digits : List Byte) : Nat :=
  digits.foldl (fun num d => 10 * num + (d.val - 48)) 0

/-- What `>>` stores in an `int` that is 0 before. -/
def extractInt (text : List Byte) : Int :=
  let text := text.dropWhile isSpace
  let digits := if text.head? = some 43 ∨ text.head? = some 45 then text.tail else text
  let num := decimalValue (digits.takeWhile isDigit)
  if text.head? = some 45 then max (-2 ^ 31) (-num) else min (2 ^ 31 - 1) num

/-- `std::to_string`; a number has no more digits than its successor counts. -/
def decimalText : Nat → Nat → List Byte
  | 0, _ => []
  | fuel + 1, num =>
    (if num < 10 then [] else decimalText fuel (num / 10)) ++ [Fin.ofNat 256 (48 + num % 10)]

/-- `good` is false once the end was met or a number was not read. -/
structure IStream where
  rest : List Byte
  good : Bool
  deriving DecidableEq, Repr

namespace IStream

def ofText (text : List Byte) : IStream := ⟨text, true⟩

/-- `>>` into a variable with the value `val`. `store` says what a sign and a number become in
the variable's type, and whether they fit. -/
def extract {α : Type} (store : Bool → Nat → α × Bool) (is : IStream) (val : α) : α × IStream :=
  let text := is.rest.dropWhile isSpace
  if is.good = false ∨ text = [] then (val, ⟨text, false⟩)
  else
    let digits := if text.head? = some 43 ∨ text.head? = some 45 then text.tail else text
    let stored := store (text.head? = some 45) (decimalValue (digits.takeWhile isDigit))
    let rest := digits.dropWhile isDigit
    (stored.1, ⟨rest, stored.2 ∧ digits.takeWhile isDigit ≠ [] ∧ rest ≠ []⟩)

def storeInt (negative : Bool) (num : Nat) : Int × Bool :=
  if negative then (max (-2 ^ 31) (-num), num ≤ 2 ^ 31) else (min (2 ^ 31 - 1) num, num < 2 ^ 31)

/-- A sign negates an unsigned number in its own type. -/
def storeUInt32 (negative : Bool) (num : Nat) : UInt32 × Bool :=
  if 2 ^ 32 ≤ num then (0xFFFFFFFF, false)
  else (if negative then -UInt32.ofNat num else UInt32.ofNat num, true)

def nextInt (is : IStream) (val : Int) : Int × IStream := is.extract storeInt val

def nextUInt32 (is : IStream) (val : UInt32) : UInt32 × IStream := is.extract storeUInt32 val

end IStream

/-- A decimal number: digits, leading zeros allowed, with their value. -/
def IsNumeral (digits : List Byte) (num : Nat) : Prop :=
  digits ≠ [] ∧ (∀ d ∈ digits, isDigit d = true) ∧ decimalValue digits = num

section Digits

theorem isDigit_iff {c : Byte} : isDigit c = true ↔ 48 ≤ c.val ∧ c.val ≤ 57 := by
  rw [isDigit, decide_eq_true_eq]
  exact Iff.rfl

theorem isSpace_iff {c : Byte} : isSpace c = true ↔ c.val = 32 ∨ 9 ≤ c.val ∧ c.val ≤ 13 := by
  rw [isSpace, decide_eq_true_eq, Fin.ext_iff]
  exact Iff.rfl

theorem isSpace_of_isDigit {c : Byte} (h : isDigit c = true) : isSpace c = false := by
  rw [isDigit_iff] at h
  rw [← Bool.not_eq_true, isSpace_iff]
  omega

theorem isDigit_of_isSpace {c : Byte} (h : isSpace c = true) : isDigit c = false := by
  rw [isSpace_iff] at h
  rw [← Bool.not_eq_true, isDigit_iff]
  omega

theorem decimalValue_append_singleton (digits : List Byte) (d : Byte) :
    decimalValue (digits ++ [d]) = 10 * decimalValue digits + (d.val - 48) := by
  rw [decimalValue, List.foldl_append]
  rfl

theorem isNumeral_decimalText {fuel num : Nat} (h : num < fuel) :
    IsNumeral (decimalText fuel num) num := by
  induction fuel generalizing num with
  | zero => exact absurd h (Nat.not_lt_zero num)
  | succ fuel ih =>
    have hdigit : (Fin.ofNat 256 (48 + num % 10)).val = 48 + num % 10 := by
      rw [Fin.val_ofNat, Nat.mod_eq_of_lt (by omega)]
    have hlast : isDigit (Fin.ofNat 256 (48 + num % 10)) = true := by
      rw [isDigit_iff, hdigit]
      omega
    rw [decimalText]
    split
    · rename_i hsmall
      refine ⟨by simp, by simpa using hlast, ?_⟩
      rw [decimalValue_append_singleton, hdigit]
      change 10 * 0 + _ = num
      omega
    · rename_i hlarge
      obtain ⟨-, hdigits, hvalue⟩ := ih (show num / 10 < fuel by omega)
      refine ⟨by simp, ?_, ?_⟩
      · intro d hd
        cases List.mem_append.mp hd with
        | inl hd => exact hdigits d hd
        | inr hd => rwa [List.mem_singleton.mp hd]
      · rw [decimalValue_append_singleton, hvalue, hdigit]
        omega

variable {digits : List Byte} {num : Nat}

/-- A number ends where no digit follows. -/
theorem takeWhile_isDigit {rest : List Byte} (h : IsNumeral digits num)
    (hend : ∀ c ∈ rest.head?, isDigit c = false) :
    (digits ++ rest).takeWhile isDigit = digits ∧ (digits ++ rest).dropWhile isDigit = rest := by
  have hstop : rest.takeWhile isDigit = [] ∧ rest.dropWhile isDigit = rest := by
    cases rest with
    | nil => exact ⟨rfl, rfl⟩
    | cons c rest =>
      have hc : isDigit c = false := hend c rfl
      rw [List.takeWhile_cons, List.dropWhile_cons, hc]
      exact ⟨rfl, rfl⟩
  rw [List.takeWhile_append_of_pos h.2.1, List.dropWhile_append_of_pos h.2.1, hstop.1, hstop.2,
    List.append_nil]
  exact ⟨rfl, rfl⟩

theorem IsNumeral.head (h : IsNumeral digits num) (rest : List Byte) :
    ∃ d, (digits ++ rest).head? = some d ∧ isDigit d = true := by
  obtain ⟨d, more, rfl⟩ := List.exists_cons_of_ne_nil h.1
  exact ⟨d, rfl, h.2.1 d List.mem_cons_self⟩

/-- Digits are neither blanks nor signs. -/
theorem IsNumeral.unsigned (h : IsNumeral digits num) (rest : List Byte) :
    (digits ++ rest).dropWhile isSpace = digits ++ rest ∧
      (digits ++ rest).head? ≠ some 43 ∧ (digits ++ rest).head? ≠ some 45 := by
  obtain ⟨d, hhead, hd⟩ := h.head rest
  have hvalue := isDigit_iff.mp hd
  refine ⟨?_, ?_, ?_⟩
  · obtain ⟨more, hmore⟩ := List.head?_eq_some_iff.mp hhead
    rw [hmore, List.dropWhile_cons, isSpace_of_isDigit hd]
    rfl
  · rw [hhead, ne_eq, Option.some.injEq, Fin.ext_iff]
    change ¬ d.val = 43
    omega
  · rw [hhead, ne_eq, Option.some.injEq, Fin.ext_iff]
    change ¬ d.val = 45
    omega

theorem extractInt_of_isNumeral (h : IsNumeral digits num) (hnum : num < 2 ^ 31) :
    extractInt digits = num := by
  obtain ⟨hspace, hplus, hminus⟩ := h.unsigned []
  have htake : digits.takeWhile isDigit = digits := List.takeWhile_eq_self_iff.mpr h.2.1
  rw [List.append_nil] at hspace hplus hminus
  rw [extractInt]
  simp only [hspace, hplus, hminus, or_self, if_false, htake, h.2.2]
  omega

end Digits

/-- A text that lists decimal numbers, with blanks between them and around. -/
inductive NumbersText : List Byte → List Nat → Prop
  | nil {blanks : List Byte} (hblanks : ∀ c ∈ blanks, isSpace c = true) : NumbersText blanks []
  | cons {blanks digits rest : List Byte} {num : Nat} {nums : List Nat}
      (hblanks : ∀ c ∈ blanks, isSpace c = true) (hdigits : IsNumeral digits num)
      (hend : ∀ c ∈ rest.head?, isSpace c = true) (hrest : NumbersText rest nums) :
      NumbersText (blanks ++ (digits ++ rest)) (num :: nums)

theorem NumbersText.ne_nil {text : List Byte} {num : Nat} {nums : List Nat}
    (h : NumbersText text (num :: nums)) : text ≠ [] := by
  cases h with
  | cons hblanks hdigits hend hrest => simp [hdigits.1]

/-- The numbers with a blank before each. -/
def spacedText (nums : List Nat) : List Byte :=
  nums.flatMap fun num => 32 :: decimalText (num + 1) num

theorem spacedText_cons (num : Nat) (nums : List Nat) :
    spacedText (num :: nums) = [32] ++ (decimalText (num + 1) num ++ spacedText nums) := by
  rw [spacedText, List.flatMap_cons, spacedText]
  rfl

theorem numbersText_spacedText (nums : List Nat) : NumbersText (spacedText nums) nums := by
  induction nums with
  | nil => exact .nil (by simp [spacedText])
  | cons num nums ih =>
    have hend : ∀ c ∈ (spacedText nums).head?, isSpace c = true := by
      cases nums with
      | nil => simp [spacedText]
      | cons num nums =>
        rw [spacedText_cons]
        rintro c ⟨⟩
        rfl
    rw [spacedText_cons]
    exact .cons (by simp [isSpace]) (isNumeral_decimalText (Nat.lt_succ_self num)) hend ih

namespace IStream

/-- Each `>>` takes one number from a list of numbers. -/
theorem extract_numbersText {α : Type} (store : Bool → Nat → α × Bool) (val : α)
    {text : List Byte} {num : Nat} {nums : List Nat} (h : NumbersText text (num :: nums)) :
    ∃ rest, NumbersText rest nums ∧
      (ofText text).extract store val =
        ((store false num).1, ⟨rest, (store false num).2 ∧ rest ≠ []⟩) := by
  cases h with
  | @cons blanks digits rest _ _ hblanks hdigits hend hrest =>
    obtain ⟨hspace, hplus, hminus⟩ := hdigits.unsigned rest
    obtain ⟨htake, hdrop⟩ := takeWhile_isDigit hdigits fun c hc => isDigit_of_isSpace (hend c hc)
    have htext : (blanks ++ (digits ++ rest)).dropWhile isSpace = digits ++ rest := by
      rw [List.dropWhile_append_of_pos hblanks, hspace]
    have hne : digits ++ rest ≠ [] := by simp [hdigits.1]
    refine ⟨rest, hrest, ?_⟩
    simp only [extract, ofText, htext, hne, hplus, hminus, htake, hdrop, hdigits.1, hdigits.2.2,
      or_self, if_false, decide_false, ne_eq, not_false_eq_true, true_and, Bool.true_eq_false]

end IStream

end ParLib
