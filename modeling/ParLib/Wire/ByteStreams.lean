import ParLib.Foundations.Cursor
import ParLib.Foundations.LittleEndian

/-!
# The byte streams of message payloads

`ByteOutputStream` appends to a vector. `ByteInputStream` is a pointer into
the received content that knows neither the content's length nor its end.
Numbers are written as the machine lays them out, least significant byte first.
-/

namespace ParLib.Wire

set_option autoImplicit false

open Foundations Reader

abbrev Bytes := List Byte

def int32Bytes (num : Int32) : Bytes := littleEndian 4 num.toUInt32.toNat

def int32OfBytes (raw : Bytes) : Int32 := (UInt32.ofNat (ofLittleEndian raw)).toInt32

/-- `static_cast<int32_t>` of a size. -/
def int32OfSize (size : Nat) : Int32 := Int32.ofNat size

structure ByteOutputStream where
  data : Bytes

namespace ByteOutputStream

def empty : ByteOutputStream := ⟨[]⟩

def putInt32 (bos : ByteOutputStream) (num : Int32) : ByteOutputStream :=
  (int32Bytes num).foldl (fun bos b => ⟨bos.data ++ [b]⟩) bos

def putString (bos : ByteOutputStream) (str : Bytes) : ByteOutputStream :=
  str.foldl (fun bos b => ⟨bos.data ++ [b]⟩) (bos.putInt32 (int32OfSize str.length))

def putIntArray (bos : ByteOutputStream) (arr : List Int32) : ByteOutputStream :=
  arr.foldl putInt32 (bos.putInt32 (int32OfSize arr.length))

def putIntArrayArray (bos : ByteOutputStream) (arr : List (List Int32)) : ByteOutputStream :=
  arr.foldl putIntArray (bos.putInt32 (int32OfSize arr.length))

end ByteOutputStream

abbrev ByteInputStream := Cursor Byte

namespace ByteInputStream

/-- The memory around a received content. -/
def contentMemory (content : Bytes) (outside : Int → Byte) : Int → Byte
  | .ofNat i => content.getD i (outside i)
  | .negSucc i => outside (.negSucc i)

/-- A stream at the start of the content. -/
def ofContent (content : Bytes) (outside : Int → Byte) : ByteInputStream :=
  ⟨contentMemory content outside, 0, [], false⟩

def nextInt32 : Reader Byte Int32 := do
  let raw ← take 4
  return int32OfBytes raw

/-- A C string ends at its first NUL. -/
def cString (str : Bytes) : Bytes := str.takeWhile (· ≠ 0)

/-- `malloc(len + 1)`. A negative size is too big as a `size_t`, and what is written goes
through the null pointer that comes back. -/
def allocate (len : Int32) : Reader Byte Unit := require (0 ≤ (len + 1).toInt)

/-- For a negative length nothing is copied into the allocation: `scratch` is what the
string is then made from. -/
def nextString (scratch : Bytes) : Reader Byte Bytes := do
  let len ← nextInt32
  allocate len
  let str ← take len.toInt
  return if len.toInt < 0 then scratch else cString str

def nextIntArray : Reader Byte (List Int32) := do
  let len ← nextInt32
  loop nextInt32 (fun ret num => ret ++ [num]) len.toInt.toNat []

def nextIntArrayArray : Reader Byte (List (List Int32)) := do
  let len ← nextInt32
  loop nextIntArray (fun ret arr => ret ++ [arr]) len.toInt.toNat []

theorem window_contentMemory (content : Bytes) (outside : Int → Byte) {n : Nat}
    (h : n ≤ content.length) : window (contentMemory content outside) 0 n = content.take n := by
  apply List.ext_getElem
  · simp [h]
  · intro i hi hi'
    rw [List.length_take, lt_min_iff] at hi'
    rw [List.getElem_take]
    simp only [window, zero_add, List.getElem_map, List.getElem_range]
    change content.getD i _ = _
    rw [List.getD_eq_getElem?_getD, List.getElem?_eq_getElem hi'.2]
    rfl

theorem holds_contentMemory {content bs : Bytes} {outside : Int → Byte} :
    bs.length ≤ content.length ∧ Holds (contentMemory content outside) 0 bs ↔ bs <+: content := by
  constructor
  · rintro ⟨hlen, h⟩
    rw [Holds, window_contentMemory content outside hlen] at h
    exact List.prefix_iff_eq_take.mpr h.symm
  · intro h
    refine ⟨h.length_le, ?_⟩
    rw [Holds, window_contentMemory content outside h.length_le]
    exact (List.prefix_iff_eq_take.mp h).symm

theorem value_ofContent {α : Type} {d : Reader Byte α} {text : Bytes → α → Prop}
    (h : Reads d text) {content : Bytes} {a : α} (ha : text content a) (outside : Int → Byte) :
    (d (ofContent content outside)).1 = a :=
  (h.value (ofContent content outside) content a ha
    (holds_contentMemory.mpr (List.prefix_refl content)).2).1

end ByteInputStream

section Numbers

@[simp]
theorem length_int32Bytes (num : Int32) : (int32Bytes num).length = 4 := length_littleEndian ..

@[simp]
theorem int32OfBytes_int32Bytes (num : Int32) : int32OfBytes (int32Bytes num) = num := by
  rw [int32OfBytes, int32Bytes, ofLittleEndian_littleEndian,
    Nat.mod_eq_of_lt (show num.toUInt32.toNat < 256 ^ 4 from num.toUInt32.toNat_lt),
    UInt32.ofNat_toNat]
  rfl

theorem int32Bytes_int32OfBytes {raw : Bytes} (h : raw.length = 4) :
    int32Bytes (int32OfBytes raw) = raw := by
  have hlt : ofLittleEndian raw < 256 ^ 4 := by
    rw [← h]
    exact ofLittleEndian_lt raw
  have hsame : (int32OfBytes raw).toUInt32.toNat = ofLittleEndian raw := by
    rw [int32OfBytes, UInt32.toUInt32_toInt32, UInt32.toNat_ofNat_of_lt' hlt]
  rw [int32Bytes, hsame, ← h, littleEndian_ofLittleEndian]

theorem toInt_int32OfSize {size : Nat} (h : size < 2 ^ 31) :
    (int32OfSize size).toInt = size := by
  rw [int32OfSize]
  exact Int32.toInt_ofNat_of_lt h

end Numbers

/-- The four bytes of a number. -/
def Int32Text (bs : Bytes) (num : Int32) : Prop := bs = int32Bytes num

/-- A count, and as many items as it says; none if it is negative. -/
def ArrayText {α : Type} (text : Bytes → α → Prop) (bs : Bytes) (items : List α) : Prop :=
  ∃ count rest, bs = int32Bytes count ++ rest ∧ items.length = count.toInt.toNat ∧
    TextOf text rest items

/-- A length that is not negative, and as many characters as it says. -/
def StringText (bs : Bytes) (str : Bytes) : Prop :=
  ∃ len chars, bs = int32Bytes len ++ chars ∧ (chars.length : Int) = len.toInt ∧
    str = ByteInputStream.cString chars

theorem reads_nextInt32 : Reads ByteInputStream.nextInt32 Int32Text := by
  apply ((reads_take 4).map int32OfBytes).congr
  intro bs num
  constructor
  · rintro ⟨raw, ⟨hlen, rfl⟩, rfl⟩
    exact (int32Bytes_int32OfBytes (by exact_mod_cast hlen)).symm
  · rintro rfl
    exact ⟨_, ⟨by simp, rfl⟩, (int32OfBytes_int32Bytes num).symm⟩

theorem reads_nextString (scratch : Bytes) :
    Reads (ByteInputStream.nextString scratch) StringText := by
  apply (reads_nextInt32.bind fun len => (reads_require _).bind fun _ =>
    (reads_take len.toInt).map fun str =>
      if len.toInt < 0 then scratch else ByteInputStream.cString str).congr
  intro bs str
  constructor
  · rintro ⟨_, len, _, rfl, rfl, _, _, _, rfl, rfl, chars, ⟨hlen, rfl⟩, rfl⟩
    exact ⟨len, _, rfl, hlen, if_neg (by omega)⟩
  · rintro ⟨len, chars, rfl, hlen, rfl⟩
    exact ⟨_, len, chars, rfl, rfl, [], (), chars, rfl, rfl, chars, ⟨hlen, rfl⟩,
      (if_neg (by omega)).symm⟩

/-- The text of a string that can be read: with a NUL at its end its length is still an `int`. -/
def ShortStringText (bs : Bytes) (str : Bytes) : Prop :=
  StringText bs str ∧ bs.length < 2 ^ 31 + 3

theorem allocate_iff {len : Int32} (hlen : 0 ≤ len.toInt) :
    0 ≤ (len + 1).toInt ↔ len.toInt < 2 ^ 31 - 1 := by
  have hlt := Int32.toInt_lt len
  have hone : (1 : Int32).toInt = 1 := rfl
  rw [Int32.toInt_add, hone, Int.bmod_def]
  omega

theorem crashed_nextString (scratch : Bytes) (s : ByteInputStream) :
    (ByteInputStream.nextString scratch s).2.crashed =
      (s.crashed || !decide (0 ≤ ((ByteInputStream.nextInt32 s).1 + 1).toInt)) := rfl

theorem safe_nextString (scratch : Bytes) :
    Safe (ByteInputStream.nextString scratch) ShortStringText := by
  rintro s _ _ ⟨⟨len, chars, rfl, hlen, rfl⟩, hshort⟩ hholds
  have hread := (reads_nextInt32.value s (int32Bytes len) len rfl (holds_append.mp hholds).1).1
  rw [List.length_append, length_int32Bytes] at hshort
  have hfits : 0 ≤ (len + 1).toInt := (allocate_iff (by omega)).mpr (by omega)
  rw [crashed_nextString, hread, decide_eq_true hfits]
  exact Bool.or_false _

theorem reads_array {α : Type} {d : Reader Byte α} {text : Bytes → α → Prop}
    (h : Reads d text) : Reads (ByteInputStream.nextInt32 >>= fun len =>
      loop d (fun ret a => ret ++ [a]) len.toInt.toNat []) (ArrayText text) := by
  have hpush : ∀ (items acc : List α),
      items.foldl (fun ret a => ret ++ [a]) acc = acc ++ items := by
    intro items
    induction items with
    | nil => simp
    | cons a items ih => intro acc; rw [List.foldl_cons, ih]; simp
  apply (reads_nextInt32.bind fun len => h.loop (fun ret a => ret ++ [a]) len.toInt.toNat []).congr
  intro bs items
  constructor
  · rintro ⟨_, len, rest, rfl, rfl, items, hlen, ht, rfl⟩
    rw [hpush, List.nil_append]
    exact ⟨len, rest, rfl, hlen, ht⟩
  · rintro ⟨len, rest, rfl, hlen, ht⟩
    exact ⟨_, len, rest, rfl, rfl, items, hlen, ht, by rw [hpush, List.nil_append]⟩

theorem safe_nextIntArrayArray :
    Safe ByteInputStream.nextIntArrayArray fun _ _ => True := by
  have harray : Safe ByteInputStream.nextIntArray fun _ _ => True := fun s bs a _ _ =>
    Safe.loop_any (fun _ _ _ _ _ => rfl) _ _ _ (ByteInputStream.nextInt32 s).2 [] a trivial rfl
  exact fun s bs a _ _ =>
    harray.loop_any _ _ _ (ByteInputStream.nextInt32 s).2 [] a trivial rfl

theorem reads_nextIntArray : Reads ByteInputStream.nextIntArray (ArrayText Int32Text) :=
  reads_array reads_nextInt32

theorem reads_nextIntArrayArray :
    Reads ByteInputStream.nextIntArrayArray (ArrayText (ArrayText Int32Text)) :=
  reads_array reads_nextIntArray

end ParLib.Wire
