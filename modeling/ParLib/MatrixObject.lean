import ParLib.Foundations.Heap
import ParLib.Matrix
import ParLib.TextNumbers

/-!
# Matrices in memory

A `Matrix` object has a size and a pointer to an array of pointers to rows.
`clear` releases them by the recorded size and changes neither field. `none`
stands for undefined behaviour: a pointer or an index that is not good. What
new memory holds (`junk`) and what a variable holds before it is read
(`stale`) are inputs.
-/

namespace ParLib

set_option autoImplicit false

open Foundations

structure Memory where
  rows : Heap (List UInt8)
  arrays : Heap (List Nat)

namespace Memory

def empty : Memory := ⟨.empty, .empty⟩

/-- `array[i][j]` -/
def load (mem : Memory) (array : Option Nat) (i j : Nat) : Option UInt8 := do
  let a ← array
  let ptrs ← mem.arrays.read a
  let p ← ptrs[i]?
  let row ← mem.rows.read p
  row[j]?

/-- `array[i][j] = val` -/
def store (mem : Memory) (array : Option Nat) (i j : Nat) (val : UInt8) : Option Memory := do
  let a ← array
  let ptrs ← mem.arrays.read a
  let p ← ptrs[i]?
  let row ← mem.rows.read p
  if j < row.length then
    let rows ← mem.rows.write p (row.set j val)
    return { mem with rows := rows }
  else none

/-- The allocation of a number of rows, one after another. -/
def newRows (junk : Nat → Nat → UInt8) (size : Nat) (rows : Heap (List UInt8)) :
    Nat → List Nat × Heap (List UInt8)
  | 0 => ([], rows)
  | i + 1 =>
    let (ptrs, rows) := newRows junk size rows i
    (ptrs ++ [rows.fresh], rows.new ((List.range size).map (junk rows.fresh)))

section Fill

variable {τ : Type} (array : Option Nat) (next : Memory → τ → Nat → Nat → Option (UInt8 × τ))

/-- `array[i][j] = ...`, with the value that `next` yields. -/
def fillEntry (i : Nat) (s : Memory × τ) (j : Nat) : Option (Memory × τ) := do
  let (val, t) ← next s.1 s.2 i j
  let mem ← s.1.store array i j val
  return (mem, t)

/-- The two loops that write every entry of a matrix. -/
def fill (size : Nat) (s : Memory × τ) : Option (Memory × τ) :=
  forRange size (fun s i => forRange size (fillEntry array next i) s) s

end Fill

end Memory

structure MatrixObject where
  size : UInt32
  array : Option Nat
  deriving DecidableEq, Repr

namespace MatrixObject

variable (junk : Nat → Nat → UInt8)

def new : MatrixObject := ⟨0, none⟩

def clear (m : MatrixObject) (mem : Memory) : Option Memory :=
  if m.size = 0 then some mem
  else match m.array with
    | none => some mem
    | some a => do
      let ptrs ← mem.arrays.read a
      let rows ← forRange m.size.toNat (fun rows i => ptrs[i]?.bind rows.delete) mem.rows
      let arrays ← mem.arrays.delete a
      return ⟨rows, arrays⟩

/-- The function `initialize`. -/
def initializeArray (size : UInt32) (m : MatrixObject) (mem : Memory) :
    Option (MatrixObject × Memory) := do
  let mem ← m.clear mem
  let (ptrs, rows) := Memory.newRows junk size.toNat mem.rows size.toNat
  return (⟨size, some mem.arrays.fresh⟩, ⟨rows, mem.arrays.new ptrs⟩)

/-- `operator=`, from another object. -/
def assign (m matrix : MatrixObject) (mem : Memory) : Option (MatrixObject × Memory) := do
  let mem ← m.clear mem
  if matrix.size = 0 then return (m, mem)
  else
    let (m, mem) ← m.initializeArray junk matrix.size mem
    let (mem, _) ← Memory.fill m.array
      (fun mem t i j => (mem.load matrix.array i j).map fun val => (val, t)) m.size.toNat (mem, ())
    return (m, mem)

/-- The size is read into the field before the old rows are released. -/
def fromStream (stale : Nat → Nat → Int) (is : IStream) (m : MatrixObject) (mem : Memory) :
    Option (MatrixObject × Memory) := do
  let (size, is) := is.nextUInt32 m.size
  let (m, mem) ← { m with size := size }.initializeArray junk size mem
  let (mem, _) ← Memory.fill m.array
    (fun _ is i j =>
      let (val, is) := is.nextInt (stale i j)
      some (UInt8.ofInt val, is)) m.size.toNat (mem, is)
  return (m, mem)

end MatrixObject

namespace Memory

theorem newRows_spec (junk : Nat → Nat → UInt8) (size : Nat) (rows : Heap (List UInt8)) (n : Nat) :
    (newRows junk size rows n).1 = List.range' rows.fresh n ∧
      (newRows junk size rows n).2.fresh = rows.fresh + n ∧
      ∀ q, (newRows junk size rows n).2.read q =
        if q ∈ List.range' rows.fresh n then some ((List.range size).map (junk q))
        else rows.read q := by
  induction n with
  | zero => exact ⟨rfl, rfl, fun q => by simp [newRows]⟩
  | succ n ih =>
    obtain ⟨hptrs, hfresh, hread⟩ := ih
    simp only [newRows, hptrs, hfresh, List.range'_1_concat]
    refine ⟨trivial, ?_, ?_⟩
    · rw [Heap.fresh_new, hfresh, Nat.add_assoc]
    · intro q
      rw [Heap.read_new, hfresh, hread]
      by_cases hq : q = rows.fresh + n
      · simp [hq]
      · simp [hq]

variable {mem : Memory} {a : Nat} {ptrs : List Nat}

theorem load_eq (ha : mem.arrays.read a = some ptrs) (i j : Nat) :
    mem.load (some a) i j = ((ptrs[i]?).bind mem.rows.read).bind (·[j]?) := by
  simp only [load, ha, Option.bind_eq_bind, Option.bind_some, Option.bind_assoc]

theorem exists_store (ha : mem.arrays.read a = some ptrs) {i j p : Nat} (hp : ptrs[i]? = some p)
    {row : List UInt8} (hrow : mem.rows.read p = some row) (hj : j < row.length) (val : UInt8) :
    ∃ mem', mem.store (some a) i j val = some mem' ∧ mem'.arrays = mem.arrays ∧
      mem'.rows.fresh = mem.rows.fresh ∧
      ∀ q, mem'.rows.read q = if q = p then some (row.set j val) else mem.rows.read q := by
  obtain ⟨rows, hwrite, hfresh, hread⟩ := Heap.exists_replace hrow (some (row.set j val))
  have hwrite' : mem.rows.write p (row.set j val) = some rows := hwrite
  refine ⟨{ mem with rows := rows }, ?_, rfl, hfresh, hread⟩
  simp only [store, ha, hp, hrow, if_pos hj, hwrite', Option.bind_eq_bind, Option.bind_some,
    Option.pure_def]

/-- The first `i` rows of a matrix and `j` entries of the next have been written, with values
that are `ok` there. -/
structure Filled (ok : Nat → Nat → UInt8 → Prop) (start : Memory) (ptrs : List Nat)
    (i j : Nat) (mem : Memory) : Prop where
  arrays : mem.arrays = start.arrays
  fresh : mem.rows.fresh = start.rows.fresh
  others : ∀ q, q ∉ ptrs → mem.rows.read q = start.rows.read q
  rows : ∀ r p, ptrs[r]? = some p → ∃ row, mem.rows.read p = some row ∧
    row.length = ptrs.length ∧
    ∀ c val, row[c]? = some val → r < i ∨ r = i ∧ c < j → ok r c val

variable {ok : Nat → Nat → UInt8 → Prop} {start : Memory} {i j : Nat}

theorem Filled.store (h : Filled ok start ptrs i j mem) (ha : start.arrays.read a = some ptrs)
    (hnodup : ptrs.Nodup) (hi : i < ptrs.length) (hj : j < ptrs.length) {val : UInt8}
    (hval : ok i j val) :
    ∃ mem', mem.store (some a) i j val = some mem' ∧ Filled ok start ptrs i (j + 1) mem' := by
  have hp : ptrs[i]? = some ptrs[i] := List.getElem?_eq_getElem hi
  obtain ⟨row, hrow, hlen, hok⟩ := h.rows i ptrs[i] hp
  obtain ⟨mem', hstore, harrays, hfresh, hread⟩ := exists_store
    (by rw [h.arrays, ha]) hp hrow (by rw [hlen]; exact hj) val
  refine ⟨mem', hstore, harrays.trans h.arrays, hfresh.trans h.fresh, ?_, ?_⟩
  · intro q hq
    have hne : q ≠ ptrs[i] := by
      rintro rfl
      exact hq (List.getElem_mem hi)
    rw [hread, if_neg hne, h.others q hq]
  · intro r p hr
    rw [hread]
    split
    · rename_i heq
      obtain rfl : r = i := by
        obtain ⟨hr', hpr⟩ := List.getElem?_eq_some_iff.mp hr
        exact hnodup.getElem_inj_iff.mp (hpr.trans heq)
      refine ⟨row.set j val, rfl, by rw [List.length_set, hlen], ?_⟩
      intro c val' hc hdone
      cases getElem?_set_cases hc with
      | inl hself =>
        obtain ⟨rfl, rfl⟩ := hself
        exact hval
      | inr hold => exact hok c val' hold.2 (by omega)
    · rename_i hne
      obtain ⟨row', hrow', hlen', hok'⟩ := h.rows r p hr
      refine ⟨row', hrow', hlen', ?_⟩
      intro c val' hc hdone
      have hri : r ≠ i := by
        rintro rfl
        rw [hp] at hr
        exact hne (Option.some.inj hr).symm
      exact hok' c val' hc (by omega)

theorem Filled.nextRow (h : Filled ok start ptrs i ptrs.length mem) :
    Filled ok start ptrs (i + 1) 0 mem where
  arrays := h.arrays
  fresh := h.fresh
  others := h.others
  rows r p hr := by
    obtain ⟨row, hrow, hlen, hok⟩ := h.rows r p hr
    refine ⟨row, hrow, hlen, ?_⟩
    intro c val hc hdone
    have hlt := (List.getElem?_eq_some_iff.mp hc).1
    exact hok c val hc (by omega)

/-- The loops write what `next` yields. `T` is what is known of its state before each entry. -/
theorem exists_fill {τ : Type} (next : Memory → τ → Nat → Nat → Option (UInt8 × τ)) (t : τ)
    (T : Nat → Nat → τ → Prop) (ha : start.arrays.read a = some ptrs) (hnodup : ptrs.Nodup)
    (hstart : Filled ok start ptrs 0 0 start) (ht : T 0 0 t)
    (hrow : ∀ i t, T i ptrs.length t → T (i + 1) 0 t)
    (hnext : ∀ mem t, ∀ i < ptrs.length, ∀ j < ptrs.length, Filled ok start ptrs i j mem →
      T i j t → ∃ val t', next mem t i j = some (val, t') ∧ ok i j val ∧ T i (j + 1) t') :
    ∃ s, fill (some a) next ptrs.length (start, t) = some s ∧
      Filled ok start ptrs ptrs.length 0 s.1 := by
  have hentry : ∀ i < ptrs.length, ∀ j < ptrs.length, ∀ s : Memory × τ,
      Filled ok start ptrs i j s.1 ∧ T i j s.2 → ∃ s', fillEntry (some a) next i s j = some s' ∧
        Filled ok start ptrs i (j + 1) s'.1 ∧ T i (j + 1) s'.2 := by
    rintro i hi j hj ⟨mem, t⟩ ⟨hfilled, ht⟩
    obtain ⟨val, t', hnext', hval, ht'⟩ := hnext mem t i hi j hj hfilled ht
    obtain ⟨mem', hstore, hfilled'⟩ := hfilled.store ha hnodup hi hj hval
    refine ⟨(mem', t'), ?_, hfilled', ht'⟩
    simp only [fillEntry, hnext', hstore, Option.bind_eq_bind, Option.bind_some, Option.pure_def]
  have hline : ∀ i < ptrs.length, ∀ s : Memory × τ,
      Filled ok start ptrs i 0 s.1 ∧ T i 0 s.2 →
      ∃ s', forRange ptrs.length (fillEntry (some a) next i) s = some s' ∧
        Filled ok start ptrs (i + 1) 0 s'.1 ∧ T (i + 1) 0 s'.2 := by
    intro i hi s hs
    obtain ⟨s', hs', hfilled, ht'⟩ := forRange_of_invariant
      (fun j (s : Memory × τ) => Filled ok start ptrs i j s.1 ∧ T i j s.2) hs (hentry i hi)
    exact ⟨s', hs', hfilled.nextRow, hrow i s'.2 ht'⟩
  obtain ⟨s, hs, hfilled, -⟩ := forRange_of_invariant (s := (start, t))
    (fun i (s : Memory × τ) => Filled ok start ptrs i 0 s.1 ∧ T i 0 s.2) ⟨hstart, ht⟩ hline
  exact ⟨s, hs, hfilled⟩

end Memory

end ParLib
