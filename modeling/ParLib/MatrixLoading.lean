import ParLib.MatrixOwnership

/-!
# Loading a matrix

`fromStream` takes the numbers of the text row by row and keeps the low eight
bits of each, so that a weight from 256 on becomes another one, and a multiple
of 256 no edge at all.
-/

namespace ParLib

set_option autoImplicit false

open Foundations Memory

/-- The rows of an object, as a value. -/
structure Memory.Holds (mem : Memory) (m : MatrixObject) (M : Matrix) : Prop where
  size : M.size = m.size.toNat
  array : (mem.ptrs m).map mem.rows.read = M.array.map some

/-- The set that `getNeigh` returns, with its elements as it stores them. -/
def Matrix.neighIds (M : Matrix) (idx : Nat) : List Int32 := (M.getNeigh idx).map Int32.ofNat

/-- The matrix has the listed entries, row by row, and the edges that they say. An `int` names
the row whose neighbours are asked for. -/
structure Matrix.KeepsGraph (M : Matrix) (n : Nat) (weights : List Nat) : Prop where
  size : M.size = n
  entries : ∀ i < n, ∀ j < n, (M.get i j).toNat = weights.getD (i * n + j) 0
  neigh : ∀ i < n, i < 2 ^ 31 → ∀ j : Nat,
    (∃ id ∈ M.neighIds i, id.toInt = j) ↔ j < n ∧ 0 < weights.getD (i * n + j) 0

/-- A size and weights that the types of the fields and of the columns can hold. -/
structure FitsMatrix (n : Nat) (weights : List Nat) : Prop where
  size : n < 2 ^ 32
  entries : ∀ w ∈ weights, w < 256
  columns : ∀ i < n, i < 2 ^ 31 → ∀ j < n, 2 ^ 31 ≤ j → weights.getD (i * n + j) 0 = 0

variable {n : Nat} {weights : List Nat}

theorem entry_lt {i j : Nat} (hi : i < n) (hj : j < n) : i * n + j < n * n := by
  calc i * n + j < i * n + n := Nat.add_lt_add_left hj _
    _ = (i + 1) * n := (Nat.succ_mul i n).symm
    _ ≤ n * n := Nat.mul_le_mul_right n hi

theorem exists_entry {k : Nat} (hk : k < n * n) : ∃ i < n, ∃ j < n, k = i * n + j := by
  have hn : 0 < n := by
    rw [Nat.pos_iff_ne_zero]
    rintro rfl
    exact Nat.not_lt_zero k hk
  refine ⟨k / n, Nat.div_lt_of_lt_mul hk, k % n, Nat.mod_lt k hn, ?_⟩
  rw [Nat.mul_comm]
  exact (Nat.div_add_mod k n).symm

/-- An id that a column becomes is the column below `2 ^ 31` only. -/
theorem toInt_ofNat_eq {c j : Nat} (hc : c < 2 ^ 31) : (Int32.ofNat c).toInt = j ↔ c = j := by
  rw [Int32.toInt_ofNat_of_lt hc]
  exact Int.ofNat_inj

theorem Matrix.KeepsGraph.fits {M : Matrix} {m : MatrixObject} {mem : Memory}
    (h : M.KeepsGraph n weights) (hholds : mem.Holds m M) (hlength : weights.length = n * n) :
    FitsMatrix n weights where
  size := by
    rw [← h.size, hholds.size]
    exact m.size.toNat_lt
  entries w hw := by
    obtain ⟨k, hk, rfl⟩ := List.mem_iff_getElem.mp hw
    obtain ⟨i, hi, j, hj, rfl⟩ := exists_entry (hlength ▸ hk)
    have hentry := h.entries i hi j hj
    rw [List.getD_eq_getElem _ _ hk] at hentry
    rw [← hentry]
    exact (M.get i j).toNat_lt
  columns i hi hint j hj hlarge := by
    by_contra hpos
    obtain ⟨id, -, hid⟩ := (h.neigh i hi hint j).mpr ⟨hj, Nat.pos_of_ne_zero hpos⟩
    have hlt := id.toInt_lt
    omega

/-- The matrix of the numbers, each cut to eight bits. -/
def Matrix.ofWeights (n : Nat) (weights : List Nat) : Matrix :=
  .ofFn n fun i j => UInt8.ofNat (weights.getD (i * n + j) 0)

theorem FitsMatrix.toNat_get (h : FitsMatrix n weights) (hlength : weights.length = n * n)
    {i j : Nat} (hi : i < n) (hj : j < n) :
    ((Matrix.ofWeights n weights).get i j).toNat = weights.getD (i * n + j) 0 := by
  have hk : i * n + j < weights.length := by
    rw [hlength]
    exact entry_lt hi hj
  have hlt : weights.getD (i * n + j) 0 < 256 := by
    rw [List.getD_eq_getElem _ _ hk]
    exact h.entries _ (List.getElem_mem hk)
  rw [Matrix.ofWeights, Matrix.get_ofFn _ hi hj, UInt8.toNat_ofNat', Nat.mod_eq_of_lt hlt]

theorem FitsMatrix.keepsGraph (h : FitsMatrix n weights) (hlength : weights.length = n * n) :
    (Matrix.ofWeights n weights).KeepsGraph n weights where
  size := rfl
  entries i hi j hj := h.toNat_get hlength hi hj
  neigh i hi hint j := by
    have hedge : ∀ c, c ∈ (Matrix.ofWeights n weights).getNeigh i ↔
        c < n ∧ 0 < weights.getD (i * n + c) 0 := by
      intro c
      rw [Matrix.mem_getNeigh]
      refine and_congr_right fun hc => ?_
      rw [← h.toNat_get hlength hi hc]
      exact UInt8.lt_iff_toNat_lt
    have hcolumn : ∀ c, c ∈ (Matrix.ofWeights n weights).getNeigh i → c < 2 ^ 31 := by
      intro c hc
      obtain ⟨hlt, hpos⟩ := (hedge c).mp hc
      by_contra hlarge
      rw [h.columns i hi hint c hlt (not_lt.mp hlarge)] at hpos
      exact Nat.lt_irrefl 0 hpos
    rw [← hedge]
    constructor
    · rintro ⟨id, hid, heq⟩
      obtain ⟨c, hc, rfl⟩ := List.mem_map.mp hid
      exact (toInt_ofNat_eq (hcolumn c hc)).mp heq ▸ hc
    · intro hj
      exact ⟨Int32.ofNat j, List.mem_map_of_mem hj, (toInt_ofNat_eq (hcolumn j hj)).mpr rfl⟩

/-- The text left before an entry lists the numbers from it on. -/
structure Lists (weights : List Nat) (k : Nat) (is : IStream) : Prop where
  rest : NumbersText is.rest (weights.drop k)
  good : k < weights.length → is.good = true

theorem lists_of_numbersText {rest : List Byte} {k : Nat} {stored : Bool}
    (h : NumbersText rest (weights.drop k)) (hstored : stored = true) :
    Lists weights k ⟨rest, stored ∧ rest ≠ []⟩ where
  rest := h
  good hk := by
    rw [List.drop_eq_getElem_cons hk] at h
    rw [hstored]
    exact decide_eq_true ⟨rfl, h.ne_nil⟩

theorem Lists.nextInt {k : Nat} {is : IStream} (h : Lists weights k is) (hk : k < weights.length)
    (hint : weights[k] < 2 ^ 31) (val : Int) :
    (is.nextInt val).1 = weights[k] ∧ Lists weights (k + 1) (is.nextInt val).2 := by
  have htext : NumbersText is.rest (weights[k] :: weights.drop (k + 1)) := by
    rw [← List.drop_eq_getElem_cons hk]
    exact h.rest
  have his : is = .ofText is.rest := congrArg (IStream.mk is.rest) (h.good hk)
  obtain ⟨rest, hrest, heq⟩ := IStream.extract_numbersText IStream.storeInt val htext
  have hfits : (IStream.storeInt false weights[k]).2 = true := decide_eq_true hint
  rw [his, IStream.nextInt, heq]
  refine ⟨?_, lists_of_numbersText hrest hfits⟩
  change min (2 ^ 31 - 1) (weights[k] : Int) = _
  omega

theorem ofInt_natCast (w : Nat) : UInt8.ofInt w = UInt8.ofNat w := by
  have hmod : ((w : Int) % 2 ^ 8).toNat = w % 2 ^ 8 := by omega
  rw [UInt8.ofInt, hmod, UInt8.ofNat_mod_size]

theorem nextUInt32_lists {text : List Byte} (htext : NumbersText text (n :: weights))
    (hn : n < 2 ^ 32) (val : UInt32) :
    ((IStream.ofText text).nextUInt32 val).1 = UInt32.ofNat n ∧
      Lists weights 0 ((IStream.ofText text).nextUInt32 val).2 := by
  have hstore : IStream.storeUInt32 false n = (UInt32.ofNat n, true) := if_neg (not_le.mpr hn)
  obtain ⟨rest, hrest, heq⟩ := IStream.extract_numbersText IStream.storeUInt32 val htext
  rw [IStream.nextUInt32, heq, hstore]
  exact ⟨rfl, lists_of_numbersText hrest rfl⟩

/-- The rows of a filled matrix are the lists of its values. -/
theorem Memory.Filled.map_read {start mem : Memory} {ptrs : List Nat} {f : Nat → Nat → UInt8}
    (h : Filled (fun i j val => val = f i j) start ptrs n 0 mem) (hlen : ptrs.length = n) :
    ptrs.map mem.rows.read = (Matrix.ofFn n f).array.map some := by
  subst hlen
  rw [Matrix.ofFn]
  apply List.ext_getElem
  · simp
  · intro r hr hr'
    rw [List.length_map] at hr
    obtain ⟨row, hrow, hlen, hok⟩ := h.rows r ptrs[r] (List.getElem?_eq_getElem hr)
    have hrow' : row = (List.range ptrs.length).map (f r) := by
      apply List.ext_getElem
      · rw [hlen, List.length_map, List.length_range]
      · intro c hc hc'
        have hval := hok c row[c] (List.getElem?_eq_getElem hc) (.inl hr)
        rw [hval, List.getElem_map, List.getElem_range]
    rw [List.getElem_map, hrow, hrow', List.getElem_map, List.getElem_map, List.getElem_range]

/-- A text that fits is loaded, whatever the memory and the variables hold before. -/
theorem exists_load_ofWeights (junk : Nat → Nat → UInt8) (stale : Nat → Nat → Int) (mem : Memory)
    {text : List Byte} (htext : NumbersText text (n :: weights)) (hn : n < 2 ^ 32)
    (hlength : weights.length = n * n) (hint : ∀ w ∈ weights, w < 2 ^ 31) :
    ∃ m mem', MatrixObject.new.fromStream junk stale (.ofText text) mem = some (m, mem') ∧
      mem'.Holds m (.ofWeights n weights) := by
  obtain ⟨hsize, hlists⟩ := nextUInt32_lists htext hn MatrixObject.new.size
  have hnat : (UInt32.ofNat n).toNat = n := UInt32.toNat_ofNat_of_lt hn
  have hnew : mem.Sound .new := sound_new
  obtain ⟨m, mem₁, mem', heq, hinit, hfilled⟩ :=
    MatrixObject.exists_fromStream junk stale (.ofText text) hnew (.inl rfl)
      (fun i j val => val = UInt8.ofNat (weights.getD (i * n + j) 0))
      (fun i j is => Lists weights (i * n + j) is)
      (by rwa [Nat.zero_mul]) (by
        intro i is h
        rwa [hsize, hnat, ← Nat.succ_mul] at h) (by
        intro i hi j hj is h
        rw [hsize, hnat] at hi hj
        have hk : i * n + j < weights.length := by
          rw [hlength]
          exact entry_lt hi hj
        obtain ⟨hval, hlists'⟩ := h.nextInt hk (hint _ (List.getElem_mem hk)) (stale i j)
        refine ⟨?_, hlists'⟩
        rw [hval, List.getD_eq_getElem _ _ hk, ofInt_natCast])
  rw [hsize, hnat] at hfilled
  rw [hsize] at hinit
  refine ⟨m, mem', heq, ?_, ?_⟩
  · rw [hinit.size, hnat]
    rfl
  · rw [hinit.ptrs_eq (by rwa [hnat]), hnat, hfilled.map_read List.length_range']
    rfl

/-- A fresh matrix keeps the graph of the text exactly if the size and the numbers fit. -/
theorem loading_keeps_graph_iff (junk : Nat → Nat → UInt8) (stale : Nat → Nat → Int)
    (mem : Memory) {text : List Byte} {n : Nat} {weights : List Nat}
    (htext : NumbersText text (n :: weights)) (hlength : weights.length = n * n)
    (hint : ∀ w ∈ weights, w < 2 ^ 31) :
    (∃ m mem' M, MatrixObject.new.fromStream junk stale (.ofText text) mem = some (m, mem') ∧
      mem'.Holds m M ∧ M.KeepsGraph n weights) ↔ FitsMatrix n weights := by
  constructor
  · rintro ⟨m, mem', M, -, hholds, hkeeps⟩
    exact hkeeps.fits hholds hlength
  · intro hfits
    obtain ⟨m, mem', heq, hholds⟩ :=
      exists_load_ofWeights junk stale mem htext hfits.size hlength hint
    exact ⟨m, mem', .ofWeights n weights, heq, hholds, hfits.keepsGraph hlength⟩

theorem loading_keeps_graph_iff_edge :
    ∃ m mem' M, MatrixObject.new.fromStream (fun _ _ => 0) (fun _ _ => 0)
        (.ofText (spacedText [2, 0, 3, 3, 0])) .empty = some (m, mem') ∧
      mem'.Holds m M ∧ M.KeepsGraph 2 [0, 3, 3, 0] :=
  (loading_keeps_graph_iff _ _ _ (numbersText_spacedText _) rfl (by decide)).mpr
    ⟨by decide, by decide, fun _ _ _ _ _ _ => by omega⟩

theorem weight_256_is_not_kept :
    ¬ ∀ (junk : Nat → Nat → UInt8) (stale : Nat → Nat → Int) (mem : Memory) (text : List Byte)
      (n : Nat) (weights : List Nat), NumbersText text (n :: weights) → 1 ≤ n →
      weights.length = n * n → (∀ w ∈ weights, w < 2 ^ 31) →
      ∃ m mem' M, MatrixObject.new.fromStream junk stale (.ofText text) mem = some (m, mem') ∧
        mem'.Holds m M ∧ M.KeepsGraph n weights := by
  intro h
  obtain ⟨m, mem', M, -, hholds, hkeeps⟩ := h (fun _ _ => 0) (fun _ _ => 0) .empty
    (spacedText [1, 256]) 1 [256] (numbersText_spacedText _) le_rfl rfl (by decide)
  have hlt := (hkeeps.fits hholds rfl).entries 256 (by simp)
  exact Nat.lt_irrefl 256 hlt

end ParLib
