import ParLib.Foundations.Runs
import ParLib.Election.NetworkManager

/-!
# The nodes and the messages between them

Messages in flight are delivered in any order. A node that has crashed takes
no more steps; a message to or from it may be lost. `MainLoop` and the
receiver threads run one handler at a time.
-/

namespace ParLib.Election

set_option autoImplicit false

open Foundations

structure Packet where
  src : NetworkId
  dst : NetworkId
  msg : Message
  deriving DecidableEq, Repr

structure System where
  nodes : NetworkId → NetworkManager
  packets : List Packet
  crashed : NetworkId → Bool

inductive Action
  | discover (id : NetworkId) (discovered : Bool)
  | connect (id peer : NetworkId) (conn : Nat) (isClient : Bool)
  | step (id : NetworkId) (electionTimeOut tenSeconds : Bool)
  | deliver (index : Nat)
  | discard (id peer : NetworkId) (conn : Nat)
  | crash (id : NetworkId)
  | lose (index : Nat)
  deriving DecidableEq, Repr

def Action.Within (members : Finset NetworkId) : Action → Prop
  | .discover id _ | .step id _ _ | .crash id => id ∈ members
  | .connect id peer _ _ | .discard id peer _ => id ∈ members ∧ peer ∈ members
  | .deliver _ | .lose _ => True

namespace System

def initial : System where
  nodes := NetworkManager.new
  packets := []
  crashed := fun _ => false

def commit (s : System) (id : NetworkId) (r : NetworkManager × List Send) : System :=
  { s with
    nodes := Function.update s.nodes id r.1
    packets := s.packets ++ r.2.map fun p => ⟨id, p.destId, p.msg⟩ }

/-- A node without an id has exited in `GetNetworkId`. -/
def isUp (s : System) (id : NetworkId) : Bool := !id.isEmpty && !s.crashed id

def next (s : System) : Action → Option System
  | .discover id discovered =>
    if s.isUp id then some (s.commit id ({ s.nodes id with discovered := discovered }, []))
    else none
  | .connect id peer conn isClient =>
    if s.isUp id ∧ peer ≠ [] then
      some (s.commit id ((s.nodes id).receiverLoopStart peer conn isClient))
    else none
  | .step id electionTimeOut tenSeconds =>
    if s.isUp id then some (s.commit id ((s.nodes id).step electionTimeOut tenSeconds)) else none
  | .deliver index =>
    match s.packets[index]? with
    | none => none
    | some p =>
      if s.isUp p.dst then
        some (({ s with packets := s.packets.eraseIdx index }).commit p.dst
          ((s.nodes p.dst).onMessage p.src p.msg))
      else none
  | .discard id peer conn =>
    if s.isUp id then some (s.commit id ((s.nodes id).discardClient peer conn, [])) else none
  | .crash id =>
    if s.isUp id then some { s with crashed := Function.update s.crashed id true } else none
  | .lose index =>
    match s.packets[index]? with
    | none => none
    | some p =>
      if s.crashed p.src ∨ s.crashed p.dst then
        some { s with packets := s.packets.eraseIdx index }
      else none

@[simp]
theorem commit_crashed (s : System) (id : NetworkId) (r : NetworkManager × List Send) :
    (s.commit id r).crashed = s.crashed := rfl

theorem commit_nodes_self (s : System) (id : NetworkId) (r : NetworkManager × List Send) :
    (s.commit id r).nodes id = r.1 := Function.update_self ..

theorem commit_nodes_of_ne (s : System) {id x : NetworkId} (r : NetworkManager × List Send)
    (h : x ≠ id) : (s.commit id r).nodes x = s.nodes x := Function.update_of_ne h ..

theorem mem_commit_packets {s : System} {id : NetworkId} {r : NetworkManager × List Send}
    {p : Packet} : p ∈ (s.commit id r).packets ↔
      p ∈ s.packets ∨ ∃ q ∈ r.2, p = ⟨id, q.destId, q.msg⟩ := by
  simp [commit, eq_comm]

/-- The handler that an action runs on a live node, and its result. -/
inductive NodeMove (s : System) : Action → NetworkId → NetworkManager × List Send → Prop
  | discover (id : NetworkId) (discovered : Bool) :
      NodeMove s (.discover id discovered) id ({ s.nodes id with discovered := discovered }, [])
  | connect (id peer : NetworkId) (conn : Nat) (isClient : Bool) (hpeer : peer ≠ []) :
      NodeMove s (.connect id peer conn isClient) id
        ((s.nodes id).receiverLoopStart peer conn isClient)
  | step (id : NetworkId) (electionTimeOut tenSeconds : Bool) :
      NodeMove s (.step id electionTimeOut tenSeconds) id
        ((s.nodes id).step electionTimeOut tenSeconds)
  | deliver (index : Nat) (p : Packet) (hp : s.packets[index]? = some p) :
      NodeMove s (.deliver index) p.dst ((s.nodes p.dst).onMessage p.src p.msg)
  | discard (id peer : NetworkId) (conn : Nat) :
      NodeMove s (.discard id peer conn) id ((s.nodes id).discardClient peer conn, [])

inductive Move (s : System) : Action → System → Prop
  | node {a : Action} {id : NetworkId} {rest : List Packet} {r : NetworkManager × List Send}
      (hup : s.isUp id = true) (hrest : ∀ p ∈ rest, p ∈ s.packets) (hr : NodeMove s a id r) :
      Move s a (({ s with packets := rest }).commit id r)
  | crash {id : NetworkId} (hup : s.isUp id = true) :
      Move s (.crash id) { s with crashed := Function.update s.crashed id true }
  | lose {index : Nat} : Move s (.lose index) { s with packets := s.packets.eraseIdx index }

theorem move_of_next {s t : System} {a : Action} (h : s.next a = some t) : Move s a t := by
  have hself : ∀ p ∈ s.packets, p ∈ s.packets := fun _ hp => hp
  cases a with
  | discover id discovered =>
    obtain ⟨hup, ⟨⟩⟩ := Option.ite_none_right_eq_some.mp h
    exact .node hup hself (.discover id discovered)
  | connect id peer conn isClient =>
    obtain ⟨⟨hup, hpeer⟩, ⟨⟩⟩ := Option.ite_none_right_eq_some.mp h
    exact .node hup hself (.connect id peer conn isClient hpeer)
  | step id electionTimeOut tenSeconds =>
    obtain ⟨hup, ⟨⟩⟩ := Option.ite_none_right_eq_some.mp h
    exact .node hup hself (.step id electionTimeOut tenSeconds)
  | deliver index =>
    rw [next] at h
    split at h
    · cases h
    · rename_i p hp
      obtain ⟨hup, ⟨⟩⟩ := Option.ite_none_right_eq_some.mp h
      exact .node hup (fun _ hq => List.mem_of_mem_eraseIdx hq) (.deliver index p hp)
  | discard id peer conn =>
    obtain ⟨hup, ⟨⟩⟩ := Option.ite_none_right_eq_some.mp h
    exact .node hup hself (.discard id peer conn)
  | crash id =>
    obtain ⟨hup, ⟨⟩⟩ := Option.ite_none_right_eq_some.mp h
    exact .crash hup
  | lose index =>
    rw [next] at h
    split at h
    · cases h
    · obtain ⟨-, ⟨⟩⟩ := Option.ite_none_right_eq_some.mp h
      exact .lose

/-- What is known of each node and of each packet by itself is kept by a move whose own
node and new packets satisfy it again. -/
theorem commit_local (nodeOk : NetworkId → NetworkManager → Prop) (packetOk : Packet → Prop)
    {s : System} {id : NetworkId} {rest : List Packet} {r : NetworkManager × List Send}
    (hnodes : ∀ x, x ≠ id → nodeOk x (s.nodes x)) (hpackets : ∀ p ∈ s.packets, packetOk p)
    (hrest : ∀ p ∈ rest, p ∈ s.packets) (hnode : nodeOk id r.1)
    (hsent : ∀ q ∈ r.2, packetOk ⟨id, q.destId, q.msg⟩) :
    (∀ x, nodeOk x ((({ s with packets := rest }).commit id r).nodes x)) ∧
      ∀ p ∈ (({ s with packets := rest }).commit id r).packets, packetOk p := by
  constructor
  · intro x
    by_cases hx : x = id
    · subst hx
      rwa [commit_nodes_self]
    · rw [commit_nodes_of_ne _ _ hx]
      exact hnodes x hx
  · intro p hp
    rcases mem_commit_packets.mp hp with hp | ⟨q, hq, rfl⟩
    · exact hpackets p (hrest p hp)
    · exact hsent q hq

end System

end ParLib.Election
