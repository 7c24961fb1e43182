import ParLib.Program.Node
import ParLib.Wire.Framing

/-!
# The whole program

Any number of nodes, and the connections between them with the bytes that are
on the way. A connection has two lines, one for each direction, with numbers
one after the other; each end knows the connection by the line that it sends
on, and the client's number is the even one. The handshake is over when a
connection appears here. Handlers run in one step, but what they send waits
until the connection's `_lock` is free, and is sent and received in parts.
-/

namespace ParLib.Program

set_option autoImplicit false

open Foundations

/-- Where the reader of a line is in `ReceiverLoop`. -/
inductive Reader
  | handshaken
  | looping
  | refused
  deriving DecidableEq, Repr

/-- One direction of a connection. `waiting` holds the types and contents that threads wait
with for `_lock`. -/
structure Line where
  src : NetworkId
  dst : NetworkId
  waiting : List (Int32 × Wire.Bytes)
  link : Wire.Link
  reader : Reader

structure System where
  nodes : NetworkId → Node
  crashed : NetworkId → Bool
  lines : List Line

inductive Action
  | turn (id : NetworkId) (t : Turn)
  | connect (client server : NetworkId)
  | register (conn : Nat)
  | discard (conn : Nat)
  | crash (id : NetworkId)
  | lock (conn index : Nat)
  | send (conn count : Nat)
  | sendFails (conn : Nat)
  | recv (conn count : Nat)
  | recvFails (conn : Nat)
  | leaveLoop (conn : Nat)

namespace Line

def new (src dst : NetworkId) : Line where
  src := src
  dst := dst
  waiting := []
  link := .start
  reader := .handshaken

def submit (l : Line) (call : Call) : Line :=
  { l with waiting := l.waiting ++ [(call.type, call.content)] }

def onLink (l : Line) (a : Wire.Link.Action) : Option Line :=
  (l.link.next a).map fun link => { l with link := link }

/-- A waiting thread gets the lock and starts to send. -/
def lock (l : Line) (index : Nat) : Option Line :=
  match l.waiting[index]? with
  | none => none
  | some (type, content) =>
    (l.link.next (.startSend type content)).map fun link =>
      { l with link := link, waiting := l.waiting.eraseIdx index }

/-- The end that reads the line has left `ReceiverLoop`. -/
def readerLeft (l : Line) : Bool := l.reader = .refused ∨ l.link.receiving = none

end Line

/-- The other line of a connection. -/
def partner (conn : Nat) : Nat := if conn % 2 = 0 then conn + 1 else conn - 1

def isClient (conn : Nat) : Bool := conn % 2 = 0

def submit (lines : List Line) (call : Call) : List Line :=
  match lines[call.conn]? with
  | none => lines
  | some l => lines.set call.conn (l.submit call)

namespace System

def start (matrix : Matrix) : System where
  nodes := .new matrix
  crashed _ := false
  lines := []

/-- A node without an id has exited in `GetNetworkId`. -/
def isUp (s : System) (id : NetworkId) : Bool := !id.isEmpty && !s.crashed id

def commit (s : System) (id : NetworkId) (r : Node × List Call) : System :=
  { s with nodes := Function.update s.nodes id r.1, lines := r.2.foldl submit s.lines }

/-- What one end of a connection does on its socket; `reads` says which end. -/
def onLine (s : System) (conn : Nat) (reads : Bool) (f : Line → Option Line) : Option System :=
  match s.lines[conn]? with
  | none => none
  | some l =>
    if s.isUp (if reads then l.dst else l.src) ∧ (reads = true → l.reader = .looping) then
      (f l).map fun l => { s with lines := s.lines.set conn l }
    else none

def next (s : System) : Action → Option System
  | .turn id t => if s.isUp id then ((s.nodes id).next t).map (s.commit id) else none
  | .connect client server =>
    if s.isUp client ∧ s.isUp server then
      some { s with lines := s.lines ++ [.new client server, .new server client] }
    else none
  | .register conn =>
    match s.lines[conn]?, s.lines[partner conn]? with
    | some l, some back =>
      if s.isUp l.src ∧ back.reader = .handshaken then
        let n := s.nodes l.src
        let added := (n.manager.addOrDiscardClient l.dst conn (isClient conn)).1
        let back := { back with reader := if added then .looping else .refused }
        some ({ s with lines := s.lines.set (partner conn) back }.commit l.src
          (n.elect Election.Message.build
            (n.manager.receiverLoopStart l.dst conn (isClient conn))))
      else none
    | _, _ => none
  | .discard conn =>
    match s.lines[conn]?, s.lines[partner conn]? with
    | some l, some back =>
      if s.isUp l.src ∧ back.readerLeft then
        let n := s.nodes l.src
        some (s.commit l.src ({ n with manager := n.manager.discardClient l.dst conn }, []))
      else none
    | _, _ => none
  | .crash id =>
    if s.isUp id then some { s with crashed := Function.update s.crashed id true } else none
  | .lock conn index => s.onLine conn false fun l => l.lock index
  | .send conn count => s.onLine conn false fun l => l.onLink (.send count)
  | .sendFails conn => s.onLine conn false fun l => l.onLink .sendFails
  | .recv conn count =>
    match s.lines[conn]? with
    | none => none
    | some l =>
      if s.isUp l.dst ∧ l.reader = .looping then
        (l.link.next (.recv count)).map fun link =>
          let t := { s with lines := s.lines.set conn { l with link := link } }
          match link.delivered[l.link.delivered.length]? with
          | none => t
          | some m => t.commit l.dst ((s.nodes l.dst).onMessage l.src m)
      else none
  | .recvFails conn => s.onLine conn true fun l => l.onLink .recvFails
  | .leaveLoop conn => s.onLine conn true fun l => l.onLink .leaveLoop

/-- Nobody goes on to send on a connection once a call of `Message::Send` has failed there,
contents are short, and what the computation sends can be encoded. -/
def Sound (s : System) : Action → Prop
  | .lock conn index => ∀ l ∈ s.lines[conn]?, l.link.sendError = false ∧
      ∀ e ∈ l.waiting[index]?, e.2.length < 2 ^ 31
  | .turn id t => (s.nodes id).Encodes t
  | .connect _ _ | .register _ | .discard _ | .crash _ | .send _ _ | .sendFails _ | .recv _ _
  | .recvFails _ | .leaveLoop _ => True

instance (s : System) : DecidablePred s.Sound
  | .lock conn index => inferInstanceAs (Decidable (∀ l ∈ s.lines[conn]?, _ ∧
      ∀ e ∈ l.waiting[index]?, _))
  | .turn id t => inferInstanceAs (Decidable ((s.nodes id).Encodes t))
  | .connect _ _ | .register _ | .discard _ | .crash _ | .send _ _ | .sendFails _ | .recv _ _
  | .recvFails _ | .leaveLoop _ => inferInstanceAs (Decidable True)

end System

end ParLib.Program
