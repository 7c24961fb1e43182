import ParLib.Election.MessageBytes
import ParLib.Job.ByteSystem
import ParLib.Job.System

/-!
# One node of the whole program

The `NetworkManager`, the `Computation` and the queue of messages between
them. `OnMessage` runs on the receiver threads; it hands what is meant for the
computation to `_messages`, which `ReadMessages` empties. A handler returns
what it calls for on the connections.
-/

namespace ParLib.Program

set_option autoImplicit false

open Foundations

structure Call where
  conn : Nat
  type : Int32
  content : Wire.Bytes
  deriving DecidableEq, Repr

/-- The orders in which a step goes through its unordered maps. -/
structure Orders where
  clients : List NetworkId → List NetworkId
  assignment : Job.StackAssignment → List Wire.Entry
  clients_perm : ∀ ids, (clients ids).Perm ids
  isOrder : ∀ assign : Job.StackAssignment, assign.toWire.IsOrder (assignment assign)

namespace Orders

/-- `MessageFactory`, for a message of the computation. -/
def build (orders : Orders) : Job.Message → Wire.Message
  | .stackAssignment assign _ =>
    Job.Message.createStackAssignmentMessage (orders.assignment assign)
  | .assignmentFinished best => Job.Message.createAssignmentFinishedMessage best
  | .terminate => Job.Message.createTerminateMessage
  | .divideWith id => Job.Message.createDivideWithMessage id

theorem builtAs_build (orders : Orders) (msg : Job.Message) : msg.BuiltAs (orders.build msg) := by
  cases msg with
  | stackAssignment assign resent => exact ⟨_, orders.isOrder assign, rfl⟩
  | assignmentFinished best | terminate | divideWith id => rfl

def frontToBack : Orders where
  clients ids := ids
  assignment assign := assign.toWire.assignments.entries
  clients_perm _ := List.Perm.refl _
  isOrder _ := List.Perm.refl _

end Orders

/-- `messages` is the queue of the `Computation`; there is no phase until
`StartComputation` is called. -/
structure Node where
  manager : Election.NetworkManager
  computation : Job.Computation
  messages : List (NetworkId × Wire.Message)
  phase : Option Job.Phase

inductive Turn
  | discover (discovered : Bool)
  | step (electionTimeOut tenSeconds : Bool)
  | keepAlive
  | startComputation
  | first (orders : Orders) (timeUp sync : Bool)
  | compute (orders : Orders)
  | read (orders : Orders) (scratch : Wire.Bytes) (outside : Int → Byte)
  | endRead

def messageTypeKeepAlive : Int32 := 4

def messageTypeKeepAliveResp : Int32 := 5

/-- The types that `OnMessage` hands to `AddMessage`. -/
def IsJobType (type : Int32) : Prop :=
  type = Wire.messageTypeStackAssignment ∨ type = Wire.messageTypeAssignmentFinished ∨
    type = Wire.messageTypeDivideWith ∨ type = Job.Message.messageTypeTerminate

instance (type : Int32) : Decidable (IsJobType type) := inferInstanceAs (Decidable (_ ∨ _))

namespace Node

def new (matrix : Matrix) (networkId : NetworkId) : Node where
  manager := .new networkId
  computation := .new matrix
  messages := []
  phase := none

/-- `SendMsg`: nothing happens when the client is not connected. -/
def sendMsg (m : Election.NetworkManager) (destId : NetworkId) (msg : Wire.Message) : List Call :=
  match m.findClient destId with
  | none => []
  | some conn => [⟨conn, msg.type, msg.content⟩]

theorem type_of_mem_sendMsg {m : Election.NetworkManager} {destId : NetworkId}
    {msg : Wire.Message} {call : Call} (h : call ∈ sendMsg m destId msg) :
    call.type = msg.type := by
  rw [sendMsg] at h
  split at h
  · cases h
  · rw [List.mem_singleton.mp h]

/-- A handler of the election has run; `wire` makes the bytes of its messages. -/
def elect (n : Node) (wire : Election.Message → Wire.Message)
    (r : Election.NetworkManager × List Election.Send) : Node × List Call :=
  ({ n with manager := r.1 }, r.2.flatMap fun q => sendMsg r.1 q.destId (wire q.msg))

def compute (n : Node) (orders : Orders) (r : Job.Computation × List Job.Send) :
    Node × List Call :=
  ({ n with computation := r.1 },
    r.2.flatMap fun q => sendMsg n.manager q.destId (orders.build q.msg))

def onMessage (n : Node) (senderId : NetworkId) (m : Wire.Message) : Node × List Call :=
  if m.type = messageTypeKeepAlive then
    (n, sendMsg n.manager senderId (.new messageTypeKeepAliveResp []))
  else
    match Election.Message.decode m with
    | some msg => n.elect (Election.Message.answer m) (n.manager.onMessage senderId msg)
    | none =>
      if IsJobType m.type then ({ n with messages := n.messages ++ [(senderId, m)] }, [])
      else (n, [])

def net (n : Node) (orders : Orders) : Job.Net where
  networkId := n.manager.networkId
  clients := orders.clients n.manager.clientConnections.keys
  leader := n.manager.leader

/-- A turn of `MainLoop`, `KeepAliveLoop` or `ComputationLoop`, or a step of `main`. -/
def next (n : Node) : Turn → Option (Node × List Call)
  | .discover discovered =>
    some ({ n with manager := { n.manager with discovered := discovered } }, [])
  | .step electionTimeOut tenSeconds =>
    some (n.elect Election.Message.build (n.manager.step electionTimeOut tenSeconds))
  | .keepAlive =>
    some (n, n.manager.clientConnections.entries.map fun e => ⟨e.2, messageTypeKeepAlive, []⟩)
  | .startComputation =>
    if n.phase = none ∧ 1 ≤ n.manager.clientConnections.keys.length then
      some ({ n with phase := some .first }, [])
    else none
  | .first orders timeUp sync =>
    if n.phase = some .first ∧ n.computation.state ≠ .finished then
      (n.computation.firstStep (n.net orders) timeUp sync).map
        ({ n with phase := some .compute }.compute orders)
    else none
  | .compute orders =>
    if n.phase = some .compute then
      (n.computation.computeStep (n.net orders)).map
        ({ n with phase := some .read }.compute orders)
    else none
  | .read orders scratch outside =>
    match n.messages with
    | [] => none
    | (senderId, m) :: rest =>
      if n.phase = some .read then
        (Job.ByteSystem.onReceived n.computation (n.net orders) senderId scratch outside m).map
          ({ n with messages := rest }.compute orders)
      else none
  | .endRead =>
    if n.phase = some .read ∧ n.messages = [] then some ({ n with phase := some .first }, [])
    else none

/-- Nothing that the computation sends in this turn is too big, or has an id with a NUL. -/
def Encodes (n : Node) : Turn → Prop
  | .first orders timeUp sync =>
    ∀ r ∈ n.computation.firstStep (n.net orders) timeUp sync, ∀ q ∈ r.2, q.msg.Encodable
  | .read orders scratch outside =>
    ∀ e ∈ n.messages.head?, ∀ r ∈
      Job.ByteSystem.onReceived n.computation (n.net orders) e.1 scratch outside e.2,
      ∀ q ∈ r.2, q.msg.Encodable
  | .discover _ | .step _ _ | .keepAlive | .startComputation | .compute _ | .endRead => True

instance (n : Node) : DecidablePred n.Encodes
  | .first orders timeUp sync =>
    inferInstanceAs (Decidable (∀ r ∈ n.computation.firstStep (n.net orders) timeUp sync, _))
  | .read _ _ _ => inferInstanceAs (Decidable (∀ e ∈ n.messages.head?, _))
  | .discover _ | .step _ _ | .keepAlive | .startComputation | .compute _ | .endRead =>
    inferInstanceAs (Decidable True)

end Node

end ParLib.Program
