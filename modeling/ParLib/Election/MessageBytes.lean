import ParLib.Election.NetworkManager
import ParLib.Wire.Receive

/-!
# The messages of the election as bytes

`MessageFactory` puts the id into the content as it is, and the handlers take
it out with `AsString`, whose bound is the header's length as an `int`.
-/

namespace ParLib.Election

set_option autoImplicit false

namespace Message

def messageTypeElection : Int32 := 1

def messageTypeElected : Int32 := 2

def messageTypeKnownLeader : Int32 := 3

def createElectionMessage (myId : NetworkId) : Wire.Message := .new messageTypeElection myId

def createElectedMessage (myId : NetworkId) : Wire.Message := .new messageTypeElected myId

def createKnownLeaderMessage (myId : NetworkId) : Wire.Message := .new messageTypeKnownLeader myId

/-- What `MessageFactory` makes of a message. -/
def build : Message → Wire.Message
  | .election electId => createElectionMessage electId
  | .elected electId => createElectedMessage electId
  | .knownLeader electId => createKnownLeaderMessage electId

def asString (m : Wire.Message) : Wire.Bytes := m.content.take (Wire.narrow m.length).toInt.toNat

/-- The message of a type that names an id. -/
def ofType (type : Int32) (electId : NetworkId) : Option Message :=
  if type = messageTypeElection then some (.election electId)
  else if type = messageTypeElected then some (.elected electId)
  else if type = messageTypeKnownLeader then some (.knownLeader electId)
  else none

/-- What the handlers of `OnMessage` make of a received message; none of them takes the
other types. -/
def decode (m : Wire.Message) : Option Message := ofType m.type (asString m)

theorem ofType_build (msg : Message) : ofType msg.build.type msg.build.content = some msg := by
  cases msg <;> rfl

theorem asString_of_sized {m : Wire.Message} (h : m.Sized) : asString m = m.content := by
  obtain ⟨hlength, hshort⟩ := h
  have hnarrow : (Wire.narrow m.length).toInt.toNat = m.content.length := by
    rw [Wire.toInt_narrow hshort, hlength, Int.toNat_natCast]
  rw [asString, hnarrow, List.take_length]

/-- What a handler sends in answer to `m`: `OnElectionMessage` may send `m` itself on. -/
def answer (m : Wire.Message) (msg : Message) : Wire.Message :=
  if decode m = some msg then m else msg.build

theorem build_of_decode {m : Wire.Message} (h : m.Sized) {msg : Message}
    (hmsg : decode m = some msg) : msg.build = m := by
  have hlength : UInt64.ofNat m.content.length = m.length := by
    rw [h.1, UInt64.ofNat_toNat]
  have hnew : m = .new m.type m.content := by
    rw [Wire.Message.new, hlength]
  rw [decode, asString_of_sized h, ofType] at hmsg
  rw [hnew]
  split at hmsg
  · rename_i htype
    cases hmsg
    rw [htype]
    rfl
  · split at hmsg
    · rename_i htype
      cases hmsg
      rw [htype]
      rfl
    · obtain ⟨htype, ⟨⟩⟩ := Option.ite_none_right_eq_some.mp hmsg
      rw [htype]
      rfl

/-- A message that is sent on is as good as one built anew. -/
theorem answer_eq_build {m : Wire.Message} (h : m.Sized) (msg : Message) :
    answer m msg = msg.build := by
  rw [answer]
  split
  · rename_i hmsg
    exact (build_of_decode h hmsg).symm
  · rfl

end Message

end ParLib.Election
