import ParLib.Wire.ByteStreams

/-!
# Receiving a message

`Message::Receive` makes two calls of `TCPSocket::Receive`, one for the 12
bytes of the header and one for the content, and each of these calls `recv`
until it has what it was asked for. The content's length is an unsigned
64-bit number in the header, an `int` while the content is read (its counter
wraps like one), and compared with the header's again afterwards.
-/

namespace ParLib.Wire

set_option autoImplicit false

open Foundations

/-- `length` is the one in the header. -/
structure Message where
  type : Int32
  length : UInt64
  content : Bytes
  deriving DecidableEq, Repr

def Message.new (type : Int32) (content : Bytes) : Message where
  type := type
  length := UInt64.ofNat content.length
  content := content

/-- The content has the length that the header says, and an `int` can hold it. -/
def Message.Sized (m : Message) : Prop :=
  m.content.length = m.length.toNat ∧ m.length.toNat < 2 ^ 31

theorem Message.sized_new {type : Int32} {content : Bytes} (h : content.length < 2 ^ 31) :
    (Message.new type content).Sized := by
  have hlength : (UInt64.ofNat content.length).toNat = content.length :=
    UInt64.toNat_ofNat_of_lt' (by
      change _ < 2 ^ 64
      omega)
  exact ⟨hlength.symm, hlength ▸ h⟩

def headerSize : Nat := 12

def headerBytes (type : Int32) (length : UInt64) : Bytes :=
  littleEndian 4 type.toUInt32.toNat ++ littleEndian 8 length.toNat

/-- What goes over the connection for a message. -/
def Message.frame (m : Message) : Bytes := headerBytes m.type m.length ++ m.content

def headerType (header : Bytes) : Int32 := int32OfBytes (header.take 4)

def headerLength (header : Bytes) : UInt64 := UInt64.ofNat (ofLittleEndian (header.drop 4))

/-- `static_cast<int>` of a header's length. -/
def narrow (length : UInt64) : Int32 := length.toUInt32.toInt32

/-- The result of `TCPSocket::Receive` is converted back to be compared with the length. -/
def widen (recvd : Int32) : UInt64 := recvd.toInt64.toUInt64

/-- `Message::Send` and `Message::Receive` compare the number of bytes that they have moved with
the length in the header. -/
def Message.Passes (m : Message) : Prop := widen (narrow m.length) = m.length

instance (m : Message) : Decidable m.Passes := inferInstanceAs (Decidable (_ = _))

/-- A call of `Message::Receive` that waits for bytes. -/
inductive Receiving
  | header (got : Bytes)
  | content (header got : Bytes)
  deriving DecidableEq, Repr

inductive Outcome
  | waits (r : Receiving)
  | returns (msg : Option Message)
  deriving DecidableEq, Repr

namespace Receiving

def start : Receiving := .header []

/-- What the running `TCPSocket::Receive` has in its buffer. -/
def got : Receiving → Bytes
  | .header got | .content _ got => got

/-- What the running `TCPSocket::Receive` was asked for. -/
def length : Receiving → Int32
  | .header _ => int32OfSize headerSize
  | .content head _ => narrow (headerLength head)

/-- The bytes that the call has taken so far. -/
def bytes : Receiving → Bytes
  | .header got => got
  | .content head got => head ++ got

/-- How many bytes the next `recv` asks for; as a size, a negative number is a huge one. -/
def requested (r : Receiving) : Int32 := r.length - int32OfSize r.got.length

/-- A successful `recv` delivers a byte at least, at most the requested number, and
at most what its result can say. -/
def Accepts (r : Receiving) (chunk : Bytes) : Prop :=
  chunk ≠ [] ∧ chunk.length < 2 ^ 31 ∧ (0 ≤ r.requested → chunk.length ≤ r.requested.toInt)

instance (r : Receiving) (chunk : Bytes) : Decidable (r.Accepts chunk) :=
  inferInstanceAs (Decidable (_ ∧ _ ∧ (_ → _)))

/-- The loop for the content, from its test on. -/
def continueContent (head got : Bytes) : Outcome :=
  if int32OfSize got.length = narrow (headerLength head) then
    if widen (narrow (headerLength head)) = headerLength head then
      .returns (some ⟨headerType head, headerLength head, got⟩)
    else .returns none
  else .waits (.content head got)

/-- One successful `recv`. -/
def recv : Receiving → Bytes → Outcome
  | .header got, chunk =>
    if (got ++ chunk).length = headerSize then continueContent (got ++ chunk) []
    else .waits (.header (got ++ chunk))
  | .content head got, chunk => continueContent head (got ++ chunk)

/-- The result after a failed `recv`: its -1 is compared with the length as well. -/
def failed : Receiving → Option Message
  | .header _ => none
  | .content head got =>
    if widen (-1) = headerLength head then some ⟨headerType head, headerLength head, got⟩
    else none

end Receiving

section Headers

theorem length_headerBytes (type : Int32) (length : UInt64) :
    (headerBytes type length).length = headerSize := by
  rw [headerBytes, List.length_append, length_littleEndian, length_littleEndian, headerSize]

theorem headerBytes_ne_nil (type : Int32) (length : UInt64) : headerBytes type length ≠ [] := by
  apply List.ne_nil_of_length_pos
  rw [length_headerBytes]
  decide

@[simp]
theorem headerType_headerBytes (type : Int32) (length : UInt64) :
    headerType (headerBytes type length) = type := by
  rw [headerType, headerBytes, List.take_left' (length_littleEndian ..)]
  exact int32OfBytes_int32Bytes type

@[simp]
theorem headerLength_headerBytes (type : Int32) (length : UInt64) :
    headerLength (headerBytes type length) = length := by
  rw [headerLength, headerBytes, List.drop_left' (length_littleEndian ..),
    ofLittleEndian_littleEndian,
    Nat.mod_eq_of_lt (show length.toNat < 256 ^ 8 from length.toNat_lt), UInt64.ofNat_toNat]

theorem headerBytes_of_header {header : Bytes} (h : header.length = headerSize) :
    headerBytes (headerType header) (headerLength header) = header := by
  have htake : (header.take 4).length = 4 := by
    rw [List.length_take, h]
    rfl
  have hdrop : (header.drop 4).length = 8 := by
    rw [List.length_drop, h]
    rfl
  have htype : littleEndian 4 (headerType header).toUInt32.toNat = header.take 4 :=
    int32Bytes_int32OfBytes htake
  have hlt : ofLittleEndian (header.drop 4) < 256 ^ 8 := by
    rw [← hdrop]
    exact ofLittleEndian_lt _
  have hlength : littleEndian 8 (headerLength header).toNat = header.drop 4 := by
    rw [headerLength, UInt64.toNat_ofNat_of_lt' hlt, ← hdrop, littleEndian_ofLittleEndian]
  rw [headerBytes, htype, hlength, List.take_append_drop]

/-- Nothing else starts with the frame of a message. -/
theorem frame_append_inj {m m' : Message} (hm : m.Sized) (hm' : m'.Sized) {bs bs' : Bytes}
    (h : m.frame ++ bs = m'.frame ++ bs') : m = m' ∧ bs = bs' := by
  rw [Message.frame, Message.frame, List.append_assoc, List.append_assoc] at h
  obtain ⟨hheader, hrest⟩ := List.append_inj h (by
    rw [length_headerBytes, length_headerBytes])
  have htype := congrArg headerType hheader
  have hlength := congrArg headerLength hheader
  rw [headerType_headerBytes, headerType_headerBytes] at htype
  rw [headerLength_headerBytes, headerLength_headerBytes] at hlength
  obtain ⟨hcontent, hbs⟩ := List.append_inj hrest (by rw [hm.1, hm'.1, hlength])
  refine ⟨?_, hbs⟩
  cases m
  cases m'
  simp only at htype hlength hcontent
  rw [htype, hlength, hcontent]

theorem toInt_narrow {length : UInt64} (h : length.toNat < 2 ^ 31) :
    (narrow length).toInt = length.toNat := by
  have hlow : length.toUInt32.toNat = length.toNat := by
    rw [UInt64.toNat_toUInt32]
    omega
  change length.toUInt32.toBitVec.toInt = _
  rw [BitVec.toInt_eq_toNat_of_lt]
  · exact congrArg _ hlow
  · change 2 * length.toUInt32.toNat < 2 ^ 32
    omega

theorem widen_narrow {length : UInt64} (h : length.toNat < 2 ^ 31) :
    widen (narrow length) = length := by
  have hint : (narrow length).toInt64.toBitVec.toInt = length.toNat := by
    change (narrow length).toInt64.toInt = _
    rw [Int32.toInt_toInt64, toInt_narrow h]
  rw [BitVec.toInt_eq_toNat_cond] at hint
  apply UInt64.toNat_inj.mp
  change (narrow length).toInt64.toBitVec.toNat = _
  have hlt := (narrow length).toInt64.toBitVec.isLt
  split at hint <;> omega

theorem Message.passes_new_iff {type : Int32} {content : Bytes} (h : content.length < 2 ^ 32) :
    (Message.new type content).Passes ↔ content.length < 2 ^ 31 := by
  have hlength : (UInt64.ofNat content.length).toNat = content.length :=
    UInt64.toNat_ofNat_of_lt' (show content.length < 2 ^ 64 by omega)
  constructor
  · intro hpasses
    by_contra hlong
    -- as an `int` the length is negative, so what comes back is above any such length
    have hint : (narrow (UInt64.ofNat content.length)).toInt < 0 := by
      change (UInt64.ofNat content.length).toUInt32.toBitVec.toInt < 0
      have hlow : (UInt64.ofNat content.length).toUInt32.toBitVec.toNat = content.length := by
        change (UInt64.ofNat content.length).toUInt32.toNat = content.length
        rw [UInt64.toNat_toUInt32, hlength]
        omega
      rw [BitVec.toInt_eq_toNat_cond, hlow]
      omega
    have hwide : (narrow (UInt64.ofNat content.length)).toInt64.toBitVec.toInt < 0 := by
      change (narrow (UInt64.ofNat content.length)).toInt64.toInt < 0
      rwa [Int32.toInt_toInt64]
    have hback :
        (narrow (UInt64.ofNat content.length)).toInt64.toBitVec.toNat = content.length := by
      have hsame := congrArg UInt64.toNat (show widen (narrow (UInt64.ofNat content.length)) =
        UInt64.ofNat content.length from hpasses)
      rw [hlength] at hsame
      exact hsame
    rw [BitVec.toInt_eq_toNat_cond, hback] at hwide
    omega
  · intro hshort
    exact widen_narrow (hlength.symm ▸ hshort)

theorem int32OfSize_eq_narrow {size : Nat} {length : UInt64} (hsize : size < 2 ^ 31)
    (hlength : length.toNat < 2 ^ 31) : int32OfSize size = narrow length ↔ size = length.toNat := by
  rw [← Int32.toInt_inj, toInt_int32OfSize hsize, toInt_narrow hlength]
  exact Int.natCast_inj

end Headers

namespace Receiving

/-- The call is in one of its loops, with a length that an `int` can hold. -/
def InLoop : Receiving → Prop
  | .header got => got.length < headerSize
  | .content head got => head.length = headerSize ∧ (headerLength head).toNat < 2 ^ 31 ∧
      got.length < (headerLength head).toNat

theorem inLoop_start : start.InLoop := by
  change 0 < 12
  omega

theorem InLoop.got_lt {r : Receiving} (h : r.InLoop) :
    (r.got.length : Int) < r.length.toInt ∧ r.length.toInt < 2 ^ 31 := by
  cases r with
  | header got =>
    have hsize : (int32OfSize headerSize).toInt = 12 := toInt_int32OfSize (by decide)
    have hgot : got.length < 12 := h
    rw [length, hsize, Receiving.got]
    omega
  | content head got =>
    obtain ⟨-, hfits, hgot⟩ := h
    rw [length, toInt_narrow hfits, Receiving.got]
    omega

/-- If the bytes complete a header, it announces a length that an `int` can hold. -/
def HeaderFits : Receiving → Bytes → Prop
  | .header got, chunk => (got ++ chunk).length = headerSize →
    (headerLength (got ++ chunk)).toNat < 2 ^ 31
  | .content _ _, _ => True

instance : ∀ (r : Receiving) (chunk : Bytes), Decidable (r.HeaderFits chunk)
  | .header _, _ => inferInstanceAs (Decidable (_ → _))
  | .content _ _, _ => inferInstanceAs (Decidable True)

theorem InLoop.failed_eq {r : Receiving} (h : r.InLoop) : r.failed = none := by
  cases r with
  | header got => rfl
  | content head got =>
    apply if_neg
    intro hlength
    have hfits := h.2.1
    rw [← hlength] at hfits
    exact absurd hfits (by decide)

/-- `recv` never delivers more than is missing. -/
theorem Accepts.length_le {r : Receiving} {chunk : Bytes} (h : r.Accepts chunk)
    (hloop : r.InLoop) : (r.got.length : Int) + chunk.length ≤ r.length.toInt := by
  obtain ⟨hgot, hlength⟩ := hloop.got_lt
  have hrecvd : (int32OfSize r.got.length).toInt = r.got.length := toInt_int32OfSize (by omega)
  have hnonneg : 0 ≤ int32OfSize r.got.length := by
    rw [Int32.le_iff_toInt_le, hrecvd]
    exact Int.natCast_nonneg _
  have hle : int32OfSize r.got.length ≤ r.length := by
    rw [Int32.le_iff_toInt_le, hrecvd]
    omega
  have hrequested : r.requested.toInt = r.length.toInt - r.got.length := by
    rw [requested, Int32.toInt_sub_of_le _ _ hnonneg hle, hrecvd]
  have hasked := h.2.2 (by
    rw [Int32.le_iff_toInt_le, hrequested]
    change 0 ≤ _
    omega)
  omega

/-- A single byte is always accepted. -/
theorem InLoop.accepts_one {r : Receiving} (h : r.InLoop) (b : Byte) : r.Accepts [b] := by
  obtain ⟨hgot, hlength⟩ := h.got_lt
  have hrecvd : (int32OfSize r.got.length).toInt = r.got.length := toInt_int32OfSize (by omega)
  have hnonneg : 0 ≤ int32OfSize r.got.length := by
    rw [Int32.le_iff_toInt_le, hrecvd]
    exact Int.natCast_nonneg _
  have hle : int32OfSize r.got.length ≤ r.length := by
    rw [Int32.le_iff_toInt_le, hrecvd]
    omega
  refine ⟨List.cons_ne_nil b [], by simp, fun _ => ?_⟩
  rw [requested, Int32.toInt_sub_of_le _ _ hnonneg hle, hrecvd, List.length_singleton]
  omega

theorem continueContent_of_fits {head got : Bytes} (hlength : (headerLength head).toNat < 2 ^ 31)
    (hgot : got.length ≤ (headerLength head).toNat) :
    continueContent head got = if got.length = (headerLength head).toNat then
      .returns (some ⟨headerType head, headerLength head, got⟩)
    else .waits (.content head got) := by
  rw [continueContent, widen_narrow hlength, if_pos rfl]
  simp only [int32OfSize_eq_narrow (show got.length < 2 ^ 31 by omega) hlength]

/-- What one `recv` does to the bytes: they are still waited on, or they are a frame. -/
theorem recv_cases {r : Receiving} {chunk : Bytes} (h : r.Accepts chunk) (hloop : r.InLoop)
    (hheader : r.HeaderFits chunk) :
    (∃ r', r.recv chunk = .waits r' ∧ r'.InLoop ∧ r'.bytes = r.bytes ++ chunk) ∨
      ∃ m : Message, r.recv chunk = .returns (some m) ∧ m.frame = r.bytes ++ chunk ∧
        m.Sized := by
  have hle := h.length_le hloop
  have hcontent : ∀ head got : Bytes, head.length = headerSize →
      (headerLength head).toNat < 2 ^ 31 → got.length ≤ (headerLength head).toNat →
      (∃ r', continueContent head got = .waits r' ∧ r'.InLoop ∧ r'.bytes = head ++ got) ∨
        ∃ m : Message, continueContent head got = .returns (some m) ∧ m.frame = head ++ got ∧
          m.Sized := by
    intro head got hhead hfits hgot
    rw [continueContent_of_fits hfits hgot]
    split
    · rename_i hdone
      refine .inr ⟨_, rfl, ?_, hdone, hfits⟩
      rw [Message.frame, headerBytes_of_header hhead]
    · rename_i hmissing
      exact .inl ⟨_, rfl, ⟨hhead, hfits, by omega⟩, rfl⟩
  cases r with
  | header got =>
    rw [recv]
    split
    · rename_i hdone
      have hbytes := hcontent (got ++ chunk) [] hdone (hheader hdone) (by simp)
      rwa [List.append_nil] at hbytes
    · rename_i hmissing
      have hsize : (int32OfSize headerSize).toInt = 12 := toInt_int32OfSize (by decide)
      rw [length, hsize, Receiving.got] at hle
      refine .inl ⟨_, rfl, ?_, rfl⟩
      rw [headerSize, List.length_append] at hmissing
      rw [InLoop, headerSize, List.length_append]
      omega
  | content head got =>
    obtain ⟨hhead, hfits, -⟩ := hloop
    rw [length, toInt_narrow hfits, Receiving.got] at hle
    have hbytes := hcontent head (got ++ chunk) hhead hfits (by
      rw [List.length_append]
      omega)
    rwa [← List.append_assoc] at hbytes

end Receiving

end ParLib.Wire
