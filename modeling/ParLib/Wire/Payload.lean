import ParLib.Wire.AssignmentFormat

/-!
# Decoding a payload

`Computation::OnMessage` hands the content of a message to a stream and never
looks at its length. Decoding stays inside the content just when the content
begins with a text in the format of the message's type.
-/

namespace ParLib.Wire

set_option autoImplicit false

open Foundations Reader ByteInputStream

def messageTypeStackAssignment : Int32 := 6

def messageTypeAssignmentFinished : Int32 := 7

def messageTypeDivideWith : Int32 := 8

/-- What `OnMessage` reads of a message's content before it acts on it. -/
def readPayload (scratch : Bytes) (type : Int32) : Reader Byte Unit :=
  if type = messageTypeStackAssignment then do
    let _ ← StackAssignment.empty.deserialize scratch
    return ()
  else if type = messageTypeAssignmentFinished then do
    let _ ← nextInt32
    return ()
  else if type = messageTypeDivideWith then do
    let _ ← nextString scratch
    return ()
  else return ()

/-- The accesses of `OnMessage` to the memory around a content. -/
def payloadLog (scratch : Bytes) (type : Int32) (content : Bytes) (outside : Int → Byte) :
    List Access :=
  (readPayload scratch type (ofContent content outside)).2.log

/-- A complete payload of the type, as its own counts and lengths say. -/
def PayloadText (type : Int32) (bs : Bytes) : Prop :=
  if type = messageTypeStackAssignment then ∃ entries, ArrayText EntryText bs entries
  else if type = messageTypeAssignmentFinished then ∃ best, Int32Text bs best
  else if type = messageTypeDivideWith then ∃ id, StringText bs id
  else bs = []

theorem reads_discard {α : Type} {d : Reader Byte α} {text : Bytes → α → Prop}
    (h : Reads d text) : Reads (d >>= fun _ => pure ()) fun bs _ => ∃ a, text bs a := by
  apply (h.map fun _ => ()).congr
  intro bs _
  simp

theorem reads_readPayload (scratch : Bytes) (type : Int32) :
    Reads (readPayload scratch type) fun bs _ => PayloadText type bs := by
  unfold readPayload PayloadText
  split_ifs with hassignment hfinished hdivide
  · apply (reads_discard (reads_deserialize scratch .empty)).congr
    intro bs _
    simp
  · exact reads_discard reads_nextInt32
  · exact reads_discard (reads_nextString scratch)
  · apply (reads_pure ()).congr
    intro bs _
    simp

theorem payload_decoding_stays_inside_iff (scratch : Bytes) (type : Int32) (content : Bytes)
    (outside : Int → Byte) :
    (∀ a ∈ payloadLog scratch type content outside, a.Inside content.length) ↔
      ∃ bs, bs <+: content ∧ PayloadText type bs := by
  obtain ⟨log, hlog, hinside⟩ := (reads_readPayload scratch type).log (ofContent content outside)
  have hsame : payloadLog scratch type content outside = log := hlog
  rw [hsame, hinside content.length le_rfl (Int.natCast_nonneg _)]
  constructor
  · rintro ⟨bs, -, htext, hholds, hfits⟩
    refine ⟨bs, holds_contentMemory.mp ⟨?_, hholds⟩, htext⟩
    simpa [ofContent] using hfits
  · rintro ⟨bs, hprefix, htext⟩
    obtain ⟨hlen, hholds⟩ := holds_contentMemory.mpr hprefix
    exact ⟨bs, (), htext, hholds, by simpa [ofContent] using hlen⟩

/-- A table that announces an entry and ends there. -/
theorem truncated_assignment_read_past_its_end :
    ¬ ∀ (scratch : Bytes) (type : Int32) (content : Bytes) (outside : Int → Byte),
      type = messageTypeStackAssignment ∨ type = messageTypeAssignmentFinished ∨
        type = messageTypeDivideWith →
      ∀ a ∈ payloadLog scratch type content outside, a.Inside content.length := by
  intro h
  have hread := h [] messageTypeStackAssignment (int32Bytes 1) (fun _ => 0) (.inl rfl) (.read 4)
    (by decide +kernel)
  exact absurd hread.2 (by decide)

end ParLib.Wire
