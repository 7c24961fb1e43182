import ParLib.Wire.Payload
import ParLib.Wire.Receive
import ParLib.Job.Computation

/-!
# The messages of the computation as bytes

A vertex is an `int32_t` in memory and in the payloads. `MessageFactory` writes
a message, `OnMessage` reads it; what is read is what was written, whatever
lies around the content in memory.
-/

namespace ParLib.Job

set_option autoImplicit false

open Foundations Wire ByteInputStream

section Entries

universe u v w

variable {α : Type u} {β : Type v} {γ : Type w}

/-- The map with every value replaced. -/
def mapEntries (f : β → γ) (m : AList fun _ : α => β) : AList fun _ : α => γ :=
  ⟨m.entries.map (.map id fun _ => f), List.NodupKeys.map₂ (fun _ => f) _ m.nodupKeys⟩

theorem lookup_mapEntries [DecidableEq α] (f : β → γ) (m : AList fun _ : α => β) (k : α) :
    (mapEntries f m).lookup k = (m.lookup k).map f :=
  List.dlookup_map₂ (f := fun _ => f) k

end Entries

/-- `push_back` of an unsigned vertex. -/
def int32OfVertex (v : Nat) : Int32 := (UInt32.ofNat v).toInt32

/-- The vertex as the unsigned number that `sum` makes of it. -/
def vertexOfInt32 (num : Int32) : Nat := num.toUInt32.toNat

theorem vertexOfInt32_int32OfVertex {v : Nat} (h : v < 2 ^ 32) :
    vertexOfInt32 (int32OfVertex v) = v := by
  rw [vertexOfInt32, int32OfVertex, UInt32.toUInt32_toInt32]
  exact UInt32.toNat_ofNat_of_lt' h

def StackAssignment.toWire (a : StackAssignment) : Wire.StackAssignment :=
  ⟨mapEntries (List.map (List.map int32OfVertex)) a.assignments⟩

def StackAssignment.ofWire (a : Wire.StackAssignment) : StackAssignment :=
  ⟨mapEntries (List.map (List.map vertexOfInt32)) a.assignments⟩

/-- Every vertex that the table names is a 32-bit number. -/
def StackAssignment.Narrow (a : StackAssignment) : Prop :=
  ∀ k, ∀ p ∈ a.getAssignment k, ∀ v ∈ p, v < 2 ^ 32

/-- A table that equals the written one as a map is read back as it was. -/
theorem StackAssignment.find?_ofWire {a : StackAssignment} (ha : a.Narrow)
    {b : Wire.StackAssignment} (hb : b.Equal a.toWire) (k : NetworkId) :
    (ofWire b).find? k = a.find? k := by
  have hsame : b.assignments.lookup k =
      (a.find? k).map (List.map (List.map int32OfVertex)) :=
    (hb k).trans (lookup_mapEntries _ a.assignments k)
  rw [find?, ofWire, lookup_mapEntries, hsame]
  cases hk : a.find? k with
  | none => rfl
  | some states =>
    have hstates : ∀ p ∈ states, ∀ v ∈ p, v < 2 ^ 32 := by
      have hnarrow := ha k
      rw [getAssignment, hk] at hnarrow
      exact hnarrow
    rw [Option.map_some, Option.map_some, List.map_map]
    congr 1
    conv_rhs => rw [← List.map_id states]
    apply List.map_congr_left
    intro p hp
    rw [Function.comp_apply, List.map_map, id_eq]
    conv_rhs => rw [← List.map_id p]
    apply List.map_congr_left
    exact fun v hv => vertexOfInt32_int32OfVertex (hstates p hp v hv)

namespace Message

def messageTypeTerminate : Int32 := 9

def createStackAssignmentMessage (order : List Entry) : Wire.Message :=
  .new messageTypeStackAssignment (Wire.StackAssignment.serialize order .empty).data

def createAssignmentFinishedMessage (bestFound : Int32) : Wire.Message :=
  .new messageTypeAssignmentFinished (ByteOutputStream.empty.putInt32 bestFound).data

def createDivideWithMessage (id : NetworkId) : Wire.Message :=
  .new messageTypeDivideWith (ByteOutputStream.empty.putString id).data

def createTerminateMessage : Wire.Message := .new messageTypeTerminate []

/-- What `MessageFactory` may make of a message; an assignment is written in an order of
its map. -/
def BuiltAs : Message → Wire.Message → Prop
  | .stackAssignment assign _, m =>
    ∃ order, assign.toWire.IsOrder order ∧ m = createStackAssignmentMessage order
  | .assignmentFinished best, m => m = createAssignmentFinishedMessage best
  | .terminate, m => m = createTerminateMessage
  | .divideWith id, m => m = createDivideWithMessage id

/-- Ids without NUL, and sizes that fit into an `int`. -/
def Encodable : Message → Prop
  | .stackAssignment assign _ => assign.toWire.Encodable
  | .divideWith id => 0 ∉ id ∧ id.length < 2 ^ 31
  | .assignmentFinished _ | .terminate => True

instance (msg : Message) : Decidable msg.Encodable :=
  match msg with
  | .stackAssignment assign _ => inferInstanceAs (Decidable assign.toWire.Encodable)
  | .divideWith id => inferInstanceAs (Decidable (0 ∉ id ∧ id.length < 2 ^ 31))
  | .assignmentFinished _ | .terminate => inferInstanceAs (Decidable True)

/-- The message with its map written from front to back. -/
def build : Message → Wire.Message
  | .stackAssignment assign _ => createStackAssignmentMessage assign.toWire.assignments.entries
  | .assignmentFinished best => createAssignmentFinishedMessage best
  | .terminate => createTerminateMessage
  | .divideWith id => createDivideWithMessage id

theorem builtAs_build (msg : Message) : msg.BuiltAs msg.build := by
  cases msg with
  | stackAssignment assign resent => exact ⟨_, List.Perm.refl _, rfl⟩
  | assignmentFinished best | terminate | divideWith id => rfl

def Narrow : Message → Prop
  | .stackAssignment assign _ => assign.Narrow
  | .assignmentFinished _ | .terminate | .divideWith _ => True

/-- With a NUL at its end, the length of every id is still an `int`. -/
def Readable : Message → Prop
  | .stackAssignment assign _ => assign.toWire.ShortIds
  | .divideWith id => id.length < 2 ^ 31 - 1
  | .assignmentFinished _ | .terminate => True

/-- Reading the message ends the process. -/
def kills (scratch : Bytes) (outside : Int → Byte) (m : Wire.Message) : Bool :=
  (readPayload scratch m.type (ofContent m.content outside)).2.crashed

/-- What the bytes of a message say; other types are ignored. -/
def parse (scratch : Bytes) (outside : Int → Byte) (m : Wire.Message) : Option Message :=
  let bis := ofContent m.content outside
  if m.type = messageTypeStackAssignment then
    some (.stackAssignment (.ofWire (Wire.StackAssignment.empty.deserialize scratch bis).1) false)
  else if m.type = messageTypeAssignmentFinished then
    some (.assignmentFinished (nextInt32 bis).1)
  else if m.type = messageTypeTerminate then some .terminate
  else if m.type = messageTypeDivideWith then some (.divideWith (nextString scratch bis).1)
  else none

/-- What `OnMessage` makes of a received message. -/
def decode (scratch : Bytes) (outside : Int → Byte) (m : Wire.Message) : Option Message :=
  if kills scratch outside m then none else parse scratch outside m

/-- The same message; assignments are compared as maps. -/
def SameAs : Message → Message → Prop
  | .stackAssignment a _, .stackAssignment b _ => ∀ k, a.find? k = b.find? k
  | .assignmentFinished best, .assignmentFinished best' => best = best'
  | .terminate, .terminate => True
  | .divideWith id, .divideWith id' => id = id'
  | _, _ => False

theorem content_divideWith (id : NetworkId) :
    (createDivideWithMessage id).content = stringBytes id :=
  ByteOutputStream.data_putString .empty id

theorem parse_divideWith {id : NetworkId} (hlen : id.length < 2 ^ 31) (scratch : Bytes)
    (outside : Int → Byte) :
    parse scratch outside (createDivideWithMessage id) = some (.divideWith (cString id)) := by
  have hread : (nextString scratch
      (ofContent (createDivideWithMessage id).content outside)).1 = cString id := by
    rw [content_divideWith]
    exact value_ofContent (reads_nextString scratch) (stringText_stringBytes hlen) outside
  rw [← hread]
  rfl

/-- What is read of a message is what was written into it. -/
theorem parse_of_builtAs {msg : Message} {m : Wire.Message} (hbuilt : msg.BuiltAs m)
    (hencodable : msg.Encodable) (hnarrow : msg.Narrow) (scratch : Bytes) (outside : Int → Byte) :
    ∃ msg', parse scratch outside m = some msg' ∧ msg'.SameAs msg := by
  cases msg with
  | stackAssignment assign resent =>
    obtain ⟨order, horder, rfl⟩ := hbuilt
    obtain ⟨hback, -⟩ := Wire.StackAssignment.deserialize_serialize hencodable horder [] scratch
      outside
    rw [List.append_nil] at hback
    exact ⟨_, rfl, StackAssignment.find?_ofWire hnarrow hback⟩
  | assignmentFinished best =>
    cases hbuilt
    refine ⟨_, rfl, value_ofContent reads_nextInt32 ?_ outside⟩
    exact ByteOutputStream.data_putInt32 .empty best
  | terminate =>
    cases hbuilt
    exact ⟨_, rfl, trivial⟩
  | divideWith id =>
    cases hbuilt
    refine ⟨_, parse_divideWith hencodable.2 scratch outside, ?_⟩
    exact cString_of_not_mem hencodable.1

theorem not_kills_divideWith {id : NetworkId} (hlen : id.length < 2 ^ 31 - 1) (scratch : Bytes)
    (outside : Int → Byte) : kills scratch outside (createDivideWithMessage id) = false := by
  have htext : ShortStringText (createDivideWithMessage id).content (cString id) := by
    rw [content_divideWith]
    refine ⟨stringText_stringBytes (by omega), ?_⟩
    rw [stringBytes, List.length_append, length_int32Bytes]
    omega
  exact safe_nextString scratch (ofContent _ outside) _ _ htext
    (holds_contentMemory.mpr (List.prefix_refl _)).2

theorem not_kills_stackAssignment {a : Wire.StackAssignment} (ha : a.Sized) (hids : a.ShortIds)
    {order : List Entry} (horder : a.IsOrder order) (scratch : Bytes) (outside : Int → Byte) :
    kills scratch outside (createStackAssignmentMessage order) = false := by
  have hsurvives := Wire.StackAssignment.deserialize_survives ha hids horder [] scratch outside
  rw [List.append_nil] at hsurvives
  exact hsurvives

theorem not_kills_of_builtAs {msg : Message} {m : Wire.Message} (hbuilt : msg.BuiltAs m)
    (hencodable : msg.Encodable) (hreadable : msg.Readable) (scratch : Bytes)
    (outside : Int → Byte) : kills scratch outside m = false := by
  cases msg with
  | stackAssignment assign resent =>
    obtain ⟨order, horder, rfl⟩ := hbuilt
    exact not_kills_stackAssignment hencodable.sized hreadable horder scratch outside
  | assignmentFinished best | terminate =>
    cases hbuilt
    rfl
  | divideWith id =>
    cases hbuilt
    exact not_kills_divideWith hreadable scratch outside

theorem parse_of_decode {scratch : Bytes} {outside : Int → Byte} {m : Wire.Message}
    {msg : Message} (h : decode scratch outside m = some msg) :
    parse scratch outside m = some msg := (Option.ite_none_left_eq_some.mp h).2

/-- The id in a request to divide is read up to its first NUL. -/
theorem decode_divideWith {id : NetworkId} (hlen : id.length < 2 ^ 31 - 1) (scratch : Bytes)
    (outside : Int → Byte) :
    decode scratch outside (createDivideWithMessage id) = some (.divideWith (cString id)) := by
  rw [decode, not_kills_divideWith hlen, if_neg Bool.false_ne_true]
  exact parse_divideWith (by omega) scratch outside

theorem decode_of_builtAs {msg : Message} {m : Wire.Message} (hbuilt : msg.BuiltAs m)
    (hencodable : msg.Encodable) (hreadable : msg.Readable) (hnarrow : msg.Narrow)
    (scratch : Bytes) (outside : Int → Byte) :
    ∃ msg', decode scratch outside m = some msg' ∧ msg'.SameAs msg := by
  rw [decode, not_kills_of_builtAs hbuilt hencodable hreadable, if_neg Bool.false_ne_true]
  exact parse_of_builtAs hbuilt hencodable hnarrow scratch outside

end Message

end ParLib.Job
