import ParLib.Foundations.Runs
import ParLib.MatrixObject

/-!
# What a matrix owns

`clear` releases the rows and keeps the size, so that the next `clear` of the
same object releases them once more, and `fromStream` has the new size in
place before it lets go of the old rows. An object that holds no row yet is
safe from both.
-/

namespace ParLib

set_option autoImplicit false

open Foundations

namespace Memory

/-- What the array of an object points to. -/
def ptrs (mem : Memory) (m : MatrixObject) : List Nat := (m.array.bind mem.arrays.read).getD []

/-- The rows that an object owns: it points to them, and they are allocated. -/
def owned (mem : Memory) (m : MatrixObject) : List Nat :=
  (mem.ptrs m).filter fun p => (mem.rows.read p).isSome

/-- As many distinct rows as the size says, and as many entries in each. -/
structure OwnsItsSize (mem : Memory) (m : MatrixObject) : Prop where
  nodup : (mem.owned m).Nodup
  size : (mem.owned m).length = m.size.toNat
  entries : ∀ p ∈ mem.owned m, ∃ row, mem.rows.read p = some row ∧ row.length = m.size.toNat

/-- The object has no array, or one with a pointer to an allocated row for each index. -/
structure Sound (mem : Memory) (m : MatrixObject) : Prop where
  array : ∀ a, m.array = some a → mem.arrays.read a = some (mem.ptrs m)
  size : (mem.ptrs m).length = m.size.toNat
  nodup : (mem.ptrs m).Nodup
  rows : ∀ p ∈ mem.ptrs m, ∃ row, mem.rows.read p = some row ∧ row.length = m.size.toNat

/-- Two objects have nothing in common. -/
structure Apart (mem : Memory) (m matrix : MatrixObject) : Prop where
  rows : ∀ p ∈ mem.ptrs matrix, p ∉ mem.ptrs m
  array : ∀ a, matrix.array = some a → m.array ≠ some a

variable {mem : Memory} {m : MatrixObject}

theorem Apart.symm {matrix : MatrixObject} (h : mem.Apart m matrix) : mem.Apart matrix m where
  rows p hp hp' := h.rows p hp' hp
  array a ha ha' := h.array a ha' ha

theorem ptrs_of_none (h : m.array = none) : mem.ptrs m = [] := by
  rw [ptrs, h]
  rfl

theorem ptrs_of_read {a : Nat} {ps : List Nat} (ha : m.array = some a)
    (hread : mem.arrays.read a = some ps) : mem.ptrs m = ps := by
  rw [ptrs, ha, Option.bind_some, hread]
  rfl

theorem Sound.isSome (h : mem.Sound m) : ∀ p ∈ mem.ptrs m, (mem.rows.read p).isSome = true := by
  intro p hp
  obtain ⟨row, hrow, -⟩ := h.rows p hp
  rw [hrow]
  rfl

theorem Sound.owned_eq (h : mem.Sound m) : mem.owned m = mem.ptrs m :=
  List.filter_eq_self.mpr h.isSome

theorem Sound.ownsItsSize (h : mem.Sound m) : mem.OwnsItsSize m where
  nodup := by
    rw [h.owned_eq]
    exact h.nodup
  size := by rw [h.owned_eq, h.size]
  entries := by
    rw [h.owned_eq]
    exact h.rows

theorem Sound.load_eq (h : mem.Sound m) (i j : Nat) :
    mem.load m.array i j = (((mem.ptrs m)[i]?).bind mem.rows.read).bind (·[j]?) := by
  cases ha : m.array with
  | none =>
    rw [ptrs_of_none ha]
    rfl
  | some a => exact Memory.load_eq (h.array a ha) i j

theorem Sound.exists_load (h : mem.Sound m) {i j : Nat} (hi : i < m.size.toNat)
    (hj : j < m.size.toNat) : ∃ val, mem.load m.array i j = some val := by
  rw [← h.size] at hi
  obtain ⟨row, hrow, hlen⟩ := h.rows _ (List.getElem_mem hi)
  rw [← hlen] at hj
  refine ⟨row[j], ?_⟩
  rw [h.load_eq, List.getElem?_eq_getElem hi, Option.bind_some, hrow, Option.bind_some,
    List.getElem?_eq_getElem hj]

theorem Sound.lt_of_load (h : mem.Sound m) {i j : Nat} {val : UInt8}
    (hload : mem.load m.array i j = some val) : i < m.size.toNat ∧ j < m.size.toNat := by
  rw [h.load_eq] at hload
  obtain ⟨row, hrow, hval⟩ := Option.bind_eq_some_iff.mp hload
  obtain ⟨p, hp, hrow⟩ := Option.bind_eq_some_iff.mp hrow
  obtain ⟨row', hrow', hlen⟩ := h.rows p (List.mem_of_getElem? hp)
  rw [hrow] at hrow'
  cases hrow'
  rw [← h.size]
  have hi := (List.getElem?_eq_some_iff.mp hp).1
  have hj := (List.getElem?_eq_some_iff.mp hval).1
  exact ⟨hi, by rwa [h.size, ← hlen]⟩

theorem sound_new : mem.Sound .new where
  array := by rintro a ⟨⟩
  size := rfl
  nodup := List.nodup_nil
  rows := by simp [ptrs, MatrixObject.new]

end Memory

namespace MatrixObject

open Memory

variable {junk : Nat → Nat → UInt8} {mem : Memory} {m : MatrixObject} {size : UInt32}

/-- What `clear` does by a size that is not above the real one. -/
theorem exists_clear (h : mem.Sound m) (hsize : m.array = none ∨ size ≤ m.size) :
    ∃ mem', { m with size := size }.clear mem = some mem' ∧
      mem'.rows.fresh = mem.rows.fresh ∧ mem'.arrays.fresh = mem.arrays.fresh ∧
      (∀ q, mem'.rows.read q =
        if q ∈ (mem.ptrs m).take size.toNat then none else mem.rows.read q) ∧
      ∀ b, mem'.arrays.read b =
        if size ≠ 0 ∧ m.array = some b then none else mem.arrays.read b := by
  cases eq_or_ne size 0 with
  | inl hzero => exact ⟨mem, by simp [clear, hzero], rfl, rfl, by simp [hzero], by simp [hzero]⟩
  | inr hzero =>
    cases ha : m.array with
    | none => exact ⟨mem, by simp [clear], rfl, rfl, by simp [ptrs_of_none ha], by simp⟩
    | some a =>
      have hle : size.toNat ≤ (mem.ptrs m).length := by
        rw [h.size]
        refine UInt32.le_iff_toNat_le.mp (hsize.resolve_left ?_)
        simp [ha]
      obtain ⟨rows, hrows, hfresh, hread⟩ := Heap.exists_deleteAll hle h.nodup h.isSome
      obtain ⟨arrays, harrays, hfresh', hread'⟩ := Heap.exists_replace (h.array a ha) none
      have hdelete : mem.arrays.delete a = some arrays := harrays
      refine ⟨⟨rows, arrays⟩, ?_, hfresh, hfresh', hread, ?_⟩
      · simp only [clear, hzero, if_false, h.array a ha, hrows, hdelete,
          Option.bind_eq_bind, Option.bind_some, Option.pure_def]
      · intro b
        rw [hread']
        simp only [hzero, ne_eq, not_false_eq_true, true_and, Option.some.injEq, eq_comm]

/-- By a size above the real one `clear` goes beyond the array. -/
theorem clear_eq_none (h : mem.Sound m) {a : Nat} (ha : m.array = some a) (hsize : m.size < size) :
    { m with size := size }.clear mem = none := by
  have hlt := UInt32.lt_iff_toNat_lt.mp hsize
  have hzero : size ≠ 0 := by
    rintro rfl
    exact absurd hlt (Nat.not_lt_zero _)
  have hout : (mem.ptrs m)[m.size.toNat]? = none := by
    rw [List.getElem?_eq_none]
    exact h.size.le
  have hloop : forRange size.toNat (fun rows i => (mem.ptrs m)[i]?.bind rows.delete) mem.rows =
      none := forRange_eq_none hlt (fun rows => by rw [hout]; rfl) mem.rows
  simp only [clear, hzero, if_false, ha, h.array a ha, hloop, Option.bind_eq_bind,
    Option.bind_some, Option.bind_none]

/-- What `initialize` leaves of an object whose size field already was `dirty`. -/
structure Initialized (mem : Memory) (m : MatrixObject) (dirty newSize : UInt32) (mem' : Memory)
    (m' : MatrixObject) : Prop where
  size : m'.size = newSize
  array : m'.array = some mem.arrays.fresh
  ptrs : mem'.arrays.read mem.arrays.fresh = some (List.range' mem.rows.fresh newSize.toNat)
  arrays : ∀ b, b ≠ mem.arrays.fresh → mem'.arrays.read b =
    if dirty ≠ 0 ∧ m.array = some b then none else mem.arrays.read b
  newRows : ∀ q ∈ List.range' mem.rows.fresh newSize.toNat,
    ∃ row, mem'.rows.read q = some row ∧ row.length = newSize.toNat
  oldRows : ∀ q, q ∉ List.range' mem.rows.fresh newSize.toNat → mem'.rows.read q =
    if q ∈ (mem.ptrs m).take dirty.toNat then none else mem.rows.read q

theorem exists_initialized (junk : Nat → Nat → UInt8) (h : mem.Sound m) {dirty : UInt32}
    (hdirty : m.array = none ∨ dirty ≤ m.size) (size : UInt32) :
    ∃ m' mem', { m with size := dirty }.initializeArray junk size mem = some (m', mem') ∧
      Initialized mem m dirty size mem' m' := by
  obtain ⟨mem₁, hclear, hrows, harrays, hread, hread'⟩ := exists_clear h hdirty
  obtain ⟨hptrs, -, hnew⟩ := newRows_spec junk size.toNat mem₁.rows size.toNat
  refine ⟨_, _, by simp only [initializeArray, hclear, Option.bind_eq_bind, Option.bind_some]; rfl,
    rfl, by rw [harrays], ?_, ?_, ?_, ?_⟩
  · rw [Heap.read_new, if_pos harrays.symm, hptrs, hrows]
  · intro b hb
    rw [Heap.read_new, if_neg (by rwa [harrays]), hread']
  · intro q hq
    rw [← hrows] at hq
    rw [hnew, if_pos hq]
    exact ⟨_, rfl, by simp⟩
  · intro q hq
    rw [← hrows] at hq
    rw [hnew, if_neg hq, hread]

/-- An object has been changed, and the memory with it; nothing else has. -/
structure Replaces (mem : Memory) (m : MatrixObject) (mem' : Memory) (m' : MatrixObject) :
    Prop where
  rows : ∀ q row, mem.rows.read q = some row → q ∉ mem.ptrs m → mem'.rows.read q = some row
  arrays : ∀ b ps, mem.arrays.read b = some ps → m.array ≠ some b → mem'.arrays.read b = some ps
  ptrs : ∀ p ∈ mem'.ptrs m', p ∈ mem.ptrs m ∨ mem.rows.fresh ≤ p
  array : ∀ a, m'.array = some a → m.array = some a ∨ mem.arrays.fresh ≤ a

theorem Replaces.refl : Replaces mem m mem m where
  rows _ _ hrow _ := hrow
  arrays _ _ hps _ := hps
  ptrs _ hp := .inl hp
  array _ ha := .inl ha

/-- New rows are not among those that another object had before. -/
theorem Replaces.apart {m' matrix : MatrixObject} {mem' : Memory} (h : Replaces mem m mem' m')
    (hmatrix : mem.Sound matrix) (hapart : mem.Apart m matrix)
    (hptrs : mem'.ptrs matrix = mem.ptrs matrix) : mem'.Apart m' matrix := by
  constructor
  · intro p hp hp'
    rw [hptrs] at hp
    obtain ⟨row, hrow, -⟩ := hmatrix.rows p hp
    cases h.ptrs p hp' with
    | inl hold => exact hapart.rows p hp hold
    | inr hnew => exact Nat.not_lt.mpr hnew (Heap.lt_fresh hrow)
  · intro a ha ha'
    cases h.array a ha' with
    | inl hold => exact hapart.array a ha hold
    | inr hnew => exact Nat.not_lt.mpr hnew (Heap.lt_fresh (hmatrix.array a ha))

/-- No row is allocated that the object has let go. -/
def Releases (mem : Memory) (m : MatrixObject) (mem' : Memory) (m' : MatrixObject) : Prop :=
  ∀ q, (mem'.rows.read q).isSome = true →
    q ∈ mem'.ptrs m' ∨ (mem.rows.read q).isSome = true ∧ q ∉ mem.ptrs m

/-- An object that has nothing in common with the changed one is as it was. -/
theorem Replaces.other {m' matrix : MatrixObject} {mem' : Memory} (h : Replaces mem m mem' m')
    (hmatrix : mem.Sound matrix) (hapart : mem.Apart m matrix) :
    mem'.Sound matrix ∧ mem'.ptrs matrix = mem.ptrs matrix ∧
      ∀ i j, mem'.load matrix.array i j = mem.load matrix.array i j := by
  have harray' : ∀ a, matrix.array = some a → mem'.arrays.read a = some (mem.ptrs matrix) :=
    fun a ha => h.arrays a _ (hmatrix.array a ha) (hapart.array a ha)
  have hptrs : mem'.ptrs matrix = mem.ptrs matrix := by
    cases ha : matrix.array with
    | none => rw [ptrs_of_none ha, ptrs_of_none ha]
    | some a => exact ptrs_of_read ha (harray' a ha)
  have hread : ∀ p ∈ mem.ptrs matrix, mem'.rows.read p = mem.rows.read p := by
    intro p hp
    obtain ⟨row, hrow, -⟩ := hmatrix.rows p hp
    rw [h.rows p row hrow (hapart.rows p hp), hrow]
  have hsound : mem'.Sound matrix := by
    constructor
    · rwa [hptrs]
    · rw [hptrs, hmatrix.size]
    · rw [hptrs]
      exact hmatrix.nodup
    · rw [hptrs]
      intro p hp
      rw [hread p hp]
      exact hmatrix.rows p hp
  refine ⟨hsound, hptrs, ?_⟩
  intro i j
  rw [hsound.load_eq, hmatrix.load_eq, hptrs]
  cases hp : (mem.ptrs matrix)[i]? with
  | none => rfl
  | some p => rw [Option.bind_some, Option.bind_some, hread p (List.mem_of_getElem? hp)]

section Initialized

variable {dirty : UInt32} {mem' mem'' : Memory} {m' : MatrixObject}
  {ok : Nat → Nat → UInt8 → Prop} {i j : Nat}

theorem Initialized.start (h : Initialized mem m dirty size mem' m') :
    Filled ok mem' (List.range' mem.rows.fresh size.toNat) 0 0 mem' where
  arrays := rfl
  fresh := rfl
  others _ _ := rfl
  rows r p hr := by
    obtain ⟨row, hrow, hlen⟩ := h.newRows p (List.mem_of_getElem? hr)
    exact ⟨row, hrow, by rw [hlen, List.length_range'], by omega⟩

theorem Initialized.ptrs_eq (h : Initialized mem m dirty size mem' m')
    (hfilled : Filled ok mem' (List.range' mem.rows.fresh size.toNat) i j mem'') :
    mem''.ptrs m' = List.range' mem.rows.fresh size.toNat := by
  apply ptrs_of_read h.array
  rw [hfilled.arrays, h.ptrs]

theorem Initialized.sound (h : Initialized mem m dirty size mem' m')
    (hfilled : Filled ok mem' (List.range' mem.rows.fresh size.toNat) i j mem'') :
    mem''.Sound m' := by
  have hptrs := h.ptrs_eq hfilled
  constructor
  · intro a ha
    rw [h.array] at ha
    cases ha
    rw [hptrs, hfilled.arrays, h.ptrs]
  · rw [hptrs, List.length_range', h.size]
  · rw [hptrs]
    exact List.nodup_range'
  · rw [hptrs]
    intro p hp
    obtain ⟨r, hr⟩ := List.getElem?_of_mem hp
    obtain ⟨row, hrow, hlen, -⟩ := hfilled.rows r p hr
    exact ⟨row, hrow, by rw [hlen, List.length_range', h.size]⟩

theorem Initialized.replaces (h : Initialized mem m dirty size mem' m')
    (hfilled : Filled ok mem' (List.range' mem.rows.fresh size.toNat) i j mem'') :
    Replaces mem m mem'' m' := by
  constructor
  · intro q row hrow hq
    have hlt := Heap.lt_fresh hrow
    have hnew : q ∉ List.range' mem.rows.fresh size.toNat := by
      rw [List.mem_range'_1]
      omega
    rw [hfilled.others q hnew, h.oldRows q hnew,
      if_neg fun htake => hq (List.mem_of_mem_take htake),
      hrow]
  · intro b ps hps hb
    have hlt := Heap.lt_fresh hps
    rw [hfilled.arrays, h.arrays b (by omega), if_neg fun hdirty => hb hdirty.2, hps]
  · rw [h.ptrs_eq hfilled]
    intro p hp
    exact .inr (List.mem_range'_1.mp hp).1
  · intro a ha
    rw [h.array] at ha
    cases ha
    exact .inr le_rfl

theorem Initialized.load (h : Initialized mem m dirty size mem' m')
    (hfilled : Filled ok mem' (List.range' mem.rows.fresh size.toNat) size.toNat 0 mem'')
    {val : UInt8} (hload : mem''.load m'.array i j = some val) : ok i j val := by
  have hsound := h.sound hfilled
  obtain ⟨hi, hj⟩ := hsound.lt_of_load hload
  rw [hsound.load_eq, h.ptrs_eq hfilled] at hload
  obtain ⟨row, hrow, hval⟩ := Option.bind_eq_some_iff.mp hload
  obtain ⟨p, hp, hrow⟩ := Option.bind_eq_some_iff.mp hrow
  obtain ⟨row', hrow', -, hok⟩ := hfilled.rows i p hp
  rw [hrow] at hrow'
  cases hrow'
  rw [h.size] at hi
  exact hok j val hval (.inl hi)

/-- With the old size every old row is released. -/
theorem Initialized.releases (h : Initialized mem m dirty size mem' m') (hsound : mem.Sound m)
    (hdirty : m.array = none ∨ dirty = m.size)
    (hfilled : Filled ok mem' (List.range' mem.rows.fresh size.toNat) i j mem'') :
    Releases mem m mem'' m' := by
  have hall : (mem.ptrs m).take dirty.toNat = mem.ptrs m := by
    cases hdirty with
    | inl hnone => rw [ptrs_of_none hnone, List.take_nil]
    | inr heq => rw [heq, ← hsound.size, List.take_length]
  intro q hq
  rw [h.ptrs_eq hfilled]
  by_cases hnew : q ∈ List.range' mem.rows.fresh size.toNat
  · exact .inl hnew
  · rw [hfilled.others q hnew, h.oldRows q hnew, hall] at hq
    split at hq
    · cases hq
    · rename_i hptr
      exact .inr ⟨hq, hptr⟩

/-- With a smaller one a row is left behind. -/
theorem Initialized.leaves_row (h : Initialized mem m dirty size mem' m') (hsound : mem.Sound m)
    (hdirty : dirty < m.size)
    (hfilled : Filled ok mem' (List.range' mem.rows.fresh size.toNat) i j mem'') :
    ∃ p ∈ mem.ptrs m, p ∉ mem''.ptrs m' ∧ (mem''.rows.read p).isSome = true := by
  have hlt := UInt32.lt_iff_toNat_lt.mp hdirty
  have hlen := hsound.size
  have hi : dirty.toNat < (mem.ptrs m).length := by omega
  have hmem := List.getElem_mem hi
  obtain ⟨row, hrow, -⟩ := hsound.rows _ hmem
  have hold := Heap.lt_fresh hrow
  have hnew : (mem.ptrs m)[dirty.toNat] ∉ List.range' mem.rows.fresh size.toNat := by
    rw [List.mem_range'_1]
    omega
  have hkept : (mem.ptrs m)[dirty.toNat] ∉ (mem.ptrs m).take dirty.toNat := by
    intro htake
    obtain ⟨r, hr, heq⟩ := List.mem_take_iff_getElem.mp htake
    have hsame := hsound.nodup.getElem_inj_iff.mp heq
    omega
  refine ⟨_, hmem, by rwa [h.ptrs_eq hfilled], ?_⟩
  rw [hfilled.others _ hnew, h.oldRows _ hnew, if_neg hkept, hrow]
  rfl

end Initialized

theorem exists_initializeArray (junk : Nat → Nat → UInt8) (h : mem.Sound m) (size : UInt32) :
    ∃ m' mem', m.initializeArray junk size mem = some (m', mem') ∧ mem'.Sound m' ∧
      Replaces mem m mem' m' ∧ Releases mem m mem' m' := by
  obtain ⟨m', mem', heq, hinit⟩ := exists_initialized junk h (.inr (UInt32.le_refl m.size)) size
  have hstart : Filled (fun _ _ _ => True) mem' _ 0 0 mem' := hinit.start
  exact ⟨m', mem', heq, hinit.sound hstart, hinit.replaces hstart,
    hinit.releases h (.inr rfl) hstart⟩

/-- After `clear` an object that had rows has the pointer and the size, but no array. -/
theorem exists_clear_array (h : mem.Sound m) (hsize : m.size ≠ 0) :
    ∃ a mem', m.array = some a ∧ m.clear mem = some mem' ∧ mem'.arrays.read a = none := by
  obtain ⟨mem', hclear, -, -, -, hread⟩ := exists_clear h (.inr (UInt32.le_refl m.size))
  cases ha : m.array with
  | none =>
    have hlen := h.size
    rw [ptrs_of_none ha] at hlen
    exact absurd (UInt32.toNat_inj.mp hlen.symm) hsize
  | some a => exact ⟨a, mem', rfl, hclear, by rw [hread, if_pos ⟨hsize, ha⟩]⟩

theorem not_ownsItsSize_clear {mem' : Memory} (h : mem.Sound m) (hsize : m.size ≠ 0)
    (hclear : m.clear mem = some mem') : ¬ mem'.OwnsItsSize m := by
  obtain ⟨a, mem₁, ha, heq, hread⟩ := exists_clear_array h hsize
  obtain rfl : mem₁ = mem' := Option.some.inj (heq.symm.trans hclear)
  intro howns
  have hlen := howns.size
  rw [owned, ptrs, ha, Option.bind_some, hread] at hlen
  exact hsize (UInt32.toNat_inj.mp hlen.symm)

/-- From an empty object only `clear` has an effect, and from another one `initialize` goes
through the array that `clear` has deleted. -/
theorem not_ownsItsSize_assign {matrix m' : MatrixObject} {mem' : Memory} (h : mem.Sound m)
    (hsize : m.size ≠ 0) (hassign : m.assign junk matrix mem = some (m', mem')) :
    ¬ mem'.OwnsItsSize m' := by
  obtain ⟨a, mem₁, ha, hclear, hread⟩ := exists_clear_array h hsize
  have hdouble : m.clear mem₁ = none := by
    simp only [clear, hsize, if_false, ha, hread, Option.bind_eq_bind, Option.bind_none]
  cases eq_or_ne matrix.size 0 with
  | inl hzero =>
    simp only [assign, hclear, hzero, if_true, Option.bind_eq_bind, Option.bind_some,
      Option.pure_def, Option.some.injEq, Prod.mk.injEq] at hassign
    obtain ⟨rfl, rfl⟩ := hassign
    exact not_ownsItsSize_clear h hsize hclear
  | inr hzero =>
    simp only [assign, hclear, hzero, if_false, initializeArray, hdouble, Option.bind_eq_bind,
      Option.bind_some, Option.bind_none, reduceCtorEq] at hassign

theorem clear_of_size_eq_zero (hempty : m.size = 0) : m.clear mem = some mem := by
  rw [clear, if_pos hempty]

theorem load_of_size_eq_zero (h : mem.Sound m) (hempty : m.size = 0) (i j : Nat) :
    mem.load m.array i j = none := by
  rw [Option.eq_none_iff_forall_ne_some]
  intro val hload
  have hlt := (h.lt_of_load hload).1
  rw [hempty] at hlt
  exact Nat.not_lt_zero _ hlt

/-- The loops of `operator=` read the entries of the other object, which stay. -/
theorem Initialized.exists_copy {dirty : UInt32} {m' matrix : MatrixObject} {mem₁ : Memory}
    (h : Initialized mem m dirty matrix.size mem₁ m') (hmatrix : mem.Sound matrix)
    (hapart : mem.Apart m matrix) :
    ∃ s, Memory.fill m'.array
        (fun mem t i j => (mem.load matrix.array i j).map fun val => (val, t)) m'.size.toNat
        (mem₁, ()) = some s ∧
      Filled (fun i j val => mem.load matrix.array i j = some val) mem₁
        (List.range' mem.rows.fresh matrix.size.toNat) matrix.size.toNat 0 s.1 := by
  have hstart : Filled (fun i j val => mem.load matrix.array i j = some val) mem₁ _ 0 0 mem₁ :=
    h.start
  have hnext : ∀ (mem' : Memory) (t : Unit),
      ∀ i < (List.range' mem.rows.fresh matrix.size.toNat).length,
      ∀ j < (List.range' mem.rows.fresh matrix.size.toNat).length,
      Filled (fun i j val => mem.load matrix.array i j = some val) mem₁
        (List.range' mem.rows.fresh matrix.size.toNat) i j mem' → True →
      ∃ val t', (mem'.load matrix.array i j).map (fun val => (val, t)) = some (val, t') ∧
        mem.load matrix.array i j = some val ∧ True := by
    intro mem' t i hi j hj hfilled _
    rw [List.length_range'] at hi hj
    obtain ⟨val, hval⟩ := hmatrix.exists_load hi hj
    obtain ⟨-, -, hload⟩ := (h.replaces hfilled).other hmatrix hapart
    exact ⟨val, t, by rw [hload, hval]; rfl, hval, trivial⟩
  obtain ⟨s, hs, hfilled⟩ := exists_fill
    (fun mem t i j => (mem.load matrix.array i j).map fun val => (val, t)) ()
    (fun _ _ _ => True) h.ptrs List.nodup_range' hstart trivial (fun _ _ _ => trivial) hnext
  rw [List.length_range'] at hs hfilled
  rw [h.array, h.size]
  exact ⟨s, hs, hfilled⟩

/-- After the loops the objects have the same entries. -/
theorem Initialized.load_eq {dirty : UInt32} {m' matrix : MatrixObject} {mem₁ mem' : Memory}
    (h : Initialized mem m dirty matrix.size mem₁ m') (hmatrix : mem.Sound matrix)
    (hfilled : Filled (fun i j val => mem.load matrix.array i j = some val) mem₁
      (List.range' mem.rows.fresh matrix.size.toNat) matrix.size.toNat 0 mem') (i j : Nat) :
    mem'.load m'.array i j = mem.load matrix.array i j := by
  cases hload : mem'.load m'.array i j with
  | some val => exact (h.load hfilled hload).symm
  | none =>
    symm
    rw [Option.eq_none_iff_forall_ne_some]
    intro val hval
    obtain ⟨hi, hj⟩ := hmatrix.lt_of_load hval
    rw [← h.size] at hi hj
    obtain ⟨val', hval'⟩ := (h.sound hfilled).exists_load hi hj
    rw [hload] at hval'
    cases hval'

/-- An object without rows takes over the size and the entries of another one. -/
theorem exists_assign (junk : Nat → Nat → UInt8) {matrix : MatrixObject} (h : mem.Sound m)
    (hmatrix : mem.Sound matrix) (hapart : mem.Apart m matrix) (hempty : m.size = 0) :
    ∃ m' mem', m.assign junk matrix mem = some (m', mem') ∧ mem'.Sound m' ∧
      Replaces mem m mem' m' ∧ Releases mem m mem' m' ∧ m'.size = matrix.size ∧
      ∀ i j, mem'.load m'.array i j = mem'.load matrix.array i j := by
  have hclear : m.clear mem = some mem := clear_of_size_eq_zero hempty
  cases eq_or_ne matrix.size 0 with
  | inl hzero =>
    refine ⟨m, mem, ?_, h, .refl, ?_, by rw [hempty, hzero], ?_⟩
    · simp only [assign, hclear, hzero, if_true, Option.bind_eq_bind, Option.bind_some,
        Option.pure_def]
    · intro q hq
      have hptrs : mem.ptrs m = [] := by
        apply List.eq_nil_of_length_eq_zero
        rw [h.size, hempty]
        rfl
      exact .inr ⟨hq, by simp [hptrs]⟩
    · intro i j
      rw [load_of_size_eq_zero h hempty, load_of_size_eq_zero hmatrix hzero]
  | inr hsize =>
    obtain ⟨m', mem₁, heq, hinit⟩ := exists_initialized junk h (.inr (UInt32.le_refl m.size))
      matrix.size
    obtain ⟨s, hs, hfilled⟩ := hinit.exists_copy hmatrix hapart
    have hreplaces := hinit.replaces hfilled
    refine ⟨m', s.1, ?_, hinit.sound hfilled, hreplaces, hinit.releases h (.inr rfl) hfilled,
      hinit.size, ?_⟩
    · simp only [assign, hclear, hsize, if_false, heq, hs, Option.bind_eq_bind,
        Option.bind_some, Option.pure_def]
    · intro i j
      obtain ⟨-, -, hload⟩ := hreplaces.other hmatrix hapart
      rw [hinit.load_eq hmatrix hfilled, hload]

/-- A stream whose size is not above that of the rows to be released. `T` is what is known of
the stream before each entry. -/
theorem exists_fromStream (junk : Nat → Nat → UInt8) (stale : Nat → Nat → Int) (is : IStream)
    (h : mem.Sound m) (hsize : m.array = none ∨ (is.nextUInt32 m.size).1 ≤ m.size)
    (ok : Nat → Nat → UInt8 → Prop) (T : Nat → Nat → IStream → Prop)
    (ht : T 0 0 (is.nextUInt32 m.size).2)
    (hrow : ∀ i is', T i (is.nextUInt32 m.size).1.toNat is' → T (i + 1) 0 is')
    (hnext : ∀ i < (is.nextUInt32 m.size).1.toNat, ∀ j < (is.nextUInt32 m.size).1.toNat, ∀ is',
      T i j is' → ok i j (UInt8.ofInt (is'.nextInt (stale i j)).1) ∧
        T i (j + 1) (is'.nextInt (stale i j)).2) :
    ∃ m' mem₁ mem', m.fromStream junk stale is mem = some (m', mem') ∧
      Initialized mem m (is.nextUInt32 m.size).1 (is.nextUInt32 m.size).1 mem₁ m' ∧
      Filled ok mem₁ (List.range' mem.rows.fresh (is.nextUInt32 m.size).1.toNat)
        (is.nextUInt32 m.size).1.toNat 0 mem' := by
  obtain ⟨m', mem₁, heq, hinit⟩ := exists_initialized junk h hsize (is.nextUInt32 m.size).1
  have hstart : Filled ok mem₁ _ 0 0 mem₁ := hinit.start
  obtain ⟨s, hs, hfilled⟩ := exists_fill
    (fun _ is i j => some (UInt8.ofInt (is.nextInt (stale i j)).1, (is.nextInt (stale i j)).2))
    (is.nextUInt32 m.size).2 T hinit.ptrs List.nodup_range' hstart ht
    (by rwa [List.length_range']) (by
      intro _ is' i hi j hj _ hT
      rw [List.length_range'] at hi hj
      exact ⟨_, _, rfl, hnext i hi j hj is' hT⟩)
  rw [List.length_range'] at hs hfilled
  refine ⟨m', mem₁, s.1, ?_, hinit, hfilled⟩
  simp only [fromStream, heq, hinit.size, hinit.array, hs, Option.bind_eq_bind, Option.bind_some,
    Option.pure_def]

/-- Any values are entries. -/
theorem exists_fromStream_filled (junk : Nat → Nat → UInt8) (stale : Nat → Nat → Int)
    (is : IStream) (h : mem.Sound m) (hsize : m.array = none ∨ (is.nextUInt32 m.size).1 ≤ m.size) :
    ∃ m' mem₁ mem', m.fromStream junk stale is mem = some (m', mem') ∧
      Initialized mem m (is.nextUInt32 m.size).1 (is.nextUInt32 m.size).1 mem₁ m' ∧
      Filled (fun _ _ _ => True) mem₁ (List.range' mem.rows.fresh (is.nextUInt32 m.size).1.toNat)
        (is.nextUInt32 m.size).1.toNat 0 mem' :=
  exists_fromStream junk stale is h hsize (fun _ _ _ => True) (fun _ _ _ => True) trivial
    (fun _ _ _ => trivial) (fun _ _ _ _ _ _ => ⟨trivial, trivial⟩)

theorem fromStream_eq_none (junk : Nat → Nat → UInt8) (stale : Nat → Nat → Int) {is : IStream}
    (h : mem.Sound m) {a : Nat} (ha : m.array = some a)
    (hsize : m.size < (is.nextUInt32 m.size).1) : m.fromStream junk stale is mem = none := by
  simp only [fromStream, initializeArray, clear_eq_none h ha hsize, Option.bind_eq_bind,
    Option.bind_none]

end MatrixObject

end ParLib
