import ParLib.Foundations.Runs
import ParLib.Election.NetworkManager

/-!
# Two nodes that connect to each other

A connection has an end at each of its two nodes, with a thread of its own;
a node may also find itself and connect to itself. Each end goes through its
handshake, registers or is rejected, and closes its socket before it calls
`DiscardClient`. A close may be noticed at the other end at any time after it,
or not at all while a handshake there still finds what it needs.
-/

namespace ParLib.Election

set_option autoImplicit false

open Foundations

/-- The end at node `id` of the connection that `id` has opened, or its `peer`. -/
structure End where
  id : NetworkId
  peer : NetworkId
  isClient : Bool
  deriving DecidableEq, Repr

namespace End

def other (e : End) : End := ⟨e.peer, e.id, !e.isClient⟩

/-- The number of the connection among those between the two nodes. -/
def conn (e : End) : Nat := e.isClient.toNat

/-- The node with the greater id has opened the connection. -/
def OpenedByGreater (e : End) : Prop := e.id ≠ e.peer ∧ e.isClient = decide (e.peer < e.id)

theorem OpenedByGreater.other {e : End} (h : e.OpenedByGreater) : e.other.OpenedByGreater := by
  obtain ⟨hne, hclient⟩ := h
  refine ⟨hne.symm, ?_⟩
  rw [End.other, hclient]
  cases lt_or_gt_of_ne hne with
  | inl hlt => simp [hlt, hlt.not_gt]
  | inr hlt => simp [hlt, hlt.not_gt]

end End

/-- `idKnown` says whether the peer's id came before the handshake failed. -/
inductive EndState
  | handshake
  | shaken
  | registered
  | rejected
  | failed (idKnown : Bool)
  | lost
  | closed (idKnown : Bool)
  | discarded
  deriving DecidableEq, Repr

structure OpenSystem where
  nodes : NetworkId → NetworkManager
  ends : End → Option EndState

inductive OpenAction
  | openConnection (id peer : NetworkId)
  | endHandshake (e : End)
  | failHandshake (e : End) (idKnown : Bool)
  | addOrDiscard (e : End)
  | noticeClose (e : End)
  | close (e : End)
  | discard (e : End)
  deriving DecidableEq, Repr

namespace OpenSystem

def setEnd (s : OpenSystem) (e : End) (state : EndState) : OpenSystem :=
  { s with ends := Function.update s.ends e (some state) }

def setNode (s : OpenSystem) (id : NetworkId) (m : NetworkManager) : OpenSystem :=
  { s with nodes := Function.update s.nodes id m }

def isClosed (s : OpenSystem) (e : End) : Bool :=
  match s.ends e with
  | some (.closed _) | some .discarded => true
  | _ => false

def next (s : OpenSystem) : OpenAction → Option OpenSystem
  | .openConnection id peer =>
    if s.ends ⟨id, peer, true⟩ = none then
      some ((s.setEnd ⟨id, peer, true⟩ .handshake).setEnd ⟨peer, id, false⟩ .handshake)
    else none
  | .endHandshake e => if s.ends e = some .handshake then some (s.setEnd e .shaken) else none
  | .failHandshake e idKnown =>
    if s.ends e = some .handshake ∧ s.isClosed e.other then some (s.setEnd e (.failed idKnown))
    else none
  | .addOrDiscard e =>
    if s.ends e = some .shaken then
      let r := (s.nodes e.id).addOrDiscardClient e.peer e.conn e.isClient
      some ((s.setNode e.id r.2).setEnd e (if r.1 then .registered else .rejected))
    else none
  | .noticeClose e =>
    if s.ends e = some .registered ∧ s.isClosed e.other then some (s.setEnd e .lost) else none
  | .close e =>
    match s.ends e with
    | some .rejected | some .lost => some (s.setEnd e (.closed true))
    | some (.failed idKnown) => some (s.setEnd e (.closed idKnown))
    | _ => none
  | .discard e =>
    match s.ends e with
    | some (.closed idKnown) =>
      let m := s.nodes e.id
      some ((s.setNode e.id (if idKnown then m.discardClient e.peer e.conn else m)).setEnd e
        .discarded)
    | _ => none

/-- Nobody is connected yet. -/
structure Start (s : OpenSystem) : Prop where
  networkId : ∀ x, (s.nodes x).networkId = x
  clients : ∀ x, (s.nodes x).clientConnections = ∅
  ends : ∀ e, s.ends e = none

/-- The connection is registered at the end, and the node's table names it. -/
structure Holds (s : OpenSystem) (e : End) : Prop where
  registered : s.ends e = some .registered
  named : (s.nodes e.id).findClient e.peer = some e.conn

structure Sound (s : OpenSystem) : Prop where
  networkId : ∀ x, (s.nodes x).networkId = x
  own : ∀ x, (s.nodes x).findClient x = none
  kept : ∀ e, e.OpenedByGreater →
    s.ends e = none ∨ s.ends e = some .handshake ∨ s.ends e = some .shaken ∨ s.Holds e

end OpenSystem

namespace NetworkManager

theorem addOrDiscardClient_cases (m : NetworkManager) (peer : NetworkId) (conn : Nat)
    (isClient : Bool) :
    (m.addOrDiscardClient peer conn isClient = (false, m) ∧ (peer = m.networkId ∨
        (m.findClient peer).isSome = true ∧ isClient ≠ decide (peer < m.networkId))) ∨
      (m.addOrDiscardClient peer conn isClient =
        (true, { m with clientConnections := m.clientConnections.insert peer conn }) ∧
        peer ≠ m.networkId ∧
        (m.findClient peer = none ∨ isClient = decide (peer < m.networkId))) := by
  rw [addOrDiscardClient]
  by_cases hself : peer = m.networkId
  · rw [if_pos hself]
    exact .inl ⟨rfl, .inl hself⟩
  · rw [if_neg hself]
    cases hfound : m.findClient peer with
    | none => exact .inr ⟨rfl, hself, .inl rfl⟩
    | some registered =>
      by_cases hclient : decide (peer < m.networkId) = isClient
      · exact .inr ⟨if_pos hclient, hself, .inr hclient.symm⟩
      · exact .inl ⟨if_neg hclient, .inr ⟨rfl, Ne.symm hclient⟩⟩

theorem findClient_insert (m : NetworkManager) (peer k : NetworkId) (conn : Nat) :
    { m with clientConnections := m.clientConnections.insert peer conn }.findClient k =
      if k = peer then some conn else m.findClient k := by
  rw [findClient]
  split
  · rename_i h
    rw [h, AList.lookup_insert]
  · rename_i h
    rw [AList.lookup_insert_ne h]
    rfl

/-- Discarding a connection removes at most the entry that names it. -/
theorem findClient_discardClient (m : NetworkManager) (peer k : NetworkId) (conn : Nat) :
    (m.discardClient peer conn).networkId = m.networkId ∧
      ((m.discardClient peer conn).findClient k = m.findClient k ∨
        (m.discardClient peer conn).findClient k = none ∧ k = peer ∧
          m.findClient peer = some conn) := by
  rw [discardClient]
  cases hfound : m.findClient peer with
  | none => exact ⟨rfl, .inl rfl⟩
  | some registered =>
    have hlost : ∀ m' : NetworkManager, (if peer = m.leaderId then { m' with lostLeader := true }
        else m').networkId = m'.networkId ∧ (if peer = m.leaderId then
          { m' with lostLeader := true } else m').findClient k = m'.findClient k := by
      intro m'
      split <;> exact ⟨rfl, rfl⟩
    dsimp only
    rw [(hlost _).1, (hlost _).2]
    split
    · rename_i hsame
      refine ⟨rfl, ?_⟩
      rcases eq_or_ne k peer with rfl | hne
      · exact .inr ⟨AList.lookup_erase _ _, rfl, congrArg some hsame⟩
      · exact .inl (AList.lookup_erase_ne hne)
    · exact ⟨rfl, .inl rfl⟩

theorem findClient_discardClient_self {m : NetworkManager} {peer : NetworkId} {conn : Nat}
    (h : m.findClient peer = some conn) : (m.discardClient peer conn).findClient peer = none := by
  have herased : { m with clientConnections := m.clientConnections.erase peer }.findClient peer =
      none := AList.lookup_erase _ _
  rw [discardClient, h]
  dsimp only
  rw [if_pos rfl]
  split
  · exact herased
  · exact herased

end NetworkManager

namespace OpenSystem

variable {s t : OpenSystem}

theorem ends_setEnd (s : OpenSystem) (e e' : End) (state : EndState) :
    (s.setEnd e state).ends e' = if e' = e then some state else s.ends e' :=
  Function.update_apply s.ends e (some state) e'

@[simp]
theorem nodes_setEnd (s : OpenSystem) (e : End) (state : EndState) :
    (s.setEnd e state).nodes = s.nodes := rfl

@[simp]
theorem ends_setNode (s : OpenSystem) (id : NetworkId) (m : NetworkManager) :
    (s.setNode id m).ends = s.ends := rfl

theorem nodes_setNode (s : OpenSystem) (id x : NetworkId) (m : NetworkManager) :
    (s.setNode id m).nodes x = if x = id then m else s.nodes x :=
  Function.update_apply s.nodes id m x

/-- The end of the greater node's connection is open. -/
theorem Sound.not_closed (h : s.Sound) {e : End} (he : e.OpenedByGreater) :
    s.isClosed e = false := by
  rw [isClosed]
  rcases h.kept e he with hends | hends | hends | hholds
  · rw [hends]
  · rw [hends]
  · rw [hends]
  · rw [hholds.registered]

theorem Sound.loses (h : s.Sound) {e : End} {state : EndState} (hends : s.ends e = some state)
    (hstate : state ≠ .handshake ∧ state ≠ .shaken ∧ state ≠ .registered) :
    ¬ e.OpenedByGreater := by
  intro he
  rcases h.kept e he with hnone | hsame | hsame | hholds
  · rw [hends] at hnone
    cases hnone
  · rw [hends] at hsame
    exact hstate.1 (Option.some.inj hsame)
  · rw [hends] at hsame
    exact hstate.2.1 (Option.some.inj hsame)
  · rw [hholds.registered] at hends
    exact hstate.2.2 (Option.some.inj hends).symm

/-- A step that moves one end on, and leaves the nodes alone. -/
theorem Sound.setEnd (h : s.Sound) {e : End} {state : EndState}
    (hstate : e.OpenedByGreater → state = .handshake ∨ state = .shaken) :
    (s.setEnd e state).Sound := by
  refine ⟨h.networkId, h.own, ?_⟩
  intro e' he'
  rw [ends_setEnd]
  rcases eq_or_ne e' e with rfl | hne
  · rw [if_pos rfl]
    rcases hstate he' with rfl | rfl
    · exact .inr (.inl rfl)
    · exact .inr (.inr (.inl rfl))
  · rw [if_neg hne]
    rcases h.kept e' he' with hends | hends | hends | hholds
    · exact .inl hends
    · exact .inr (.inl hends)
    · exact .inr (.inr (.inl hends))
    · refine .inr (.inr (.inr ⟨?_, hholds.named⟩))
      rw [ends_setEnd, if_neg hne]
      exact hholds.registered

/-- A step of one end at its node: what it does to the table names no connection of the
node with itself, and keeps what other ends rely on. -/
theorem Sound.setNode (h : s.Sound) {e : End} {m : NetworkManager} {state : EndState}
    (hid : m.networkId = e.id) (hown : m.findClient e.id = none)
    (hself : e.OpenedByGreater → state = .registered ∧ m.findClient e.peer = some e.conn)
    (hothers : ∀ e' : End, e'.OpenedByGreater → e'.id = e.id → e' ≠ e →
      (s.nodes e.id).findClient e'.peer = some e'.conn → m.findClient e'.peer = some e'.conn) :
    ((s.setNode e.id m).setEnd e state).Sound := by
  refine ⟨?_, ?_, ?_⟩
  · intro x
    rw [nodes_setEnd, nodes_setNode]
    split
    · rename_i hx
      rw [hid, hx]
    · exact h.networkId x
  · intro x
    rw [nodes_setEnd, nodes_setNode]
    split
    · rename_i hx
      rw [hx]
      exact hown
    · exact h.own x
  · intro e' he'
    rw [ends_setEnd, ends_setNode]
    rcases eq_or_ne e' e with rfl | hne
    · obtain ⟨rfl, hnamed⟩ := hself he'
      refine .inr (.inr (.inr ⟨?_, ?_⟩))
      · rw [ends_setEnd, if_pos rfl]
      · rw [nodes_setEnd, nodes_setNode, if_pos rfl]
        exact hnamed
    · rw [if_neg hne]
      rcases h.kept e' he' with hends | hends | hends | hholds
      · exact .inl hends
      · exact .inr (.inl hends)
      · exact .inr (.inr (.inl hends))
      · refine .inr (.inr (.inr ⟨?_, ?_⟩))
        · rw [ends_setEnd, if_neg hne]
          exact hholds.registered
        · rw [nodes_setEnd, nodes_setNode]
          split
          · rename_i hid'
            apply hothers e' he' hid' hne
            rw [← hid']
            exact hholds.named
          · exact hholds.named

/-- Two ends at the same node, with the same peer, of different connections. -/
theorem conn_ne {e e' : End} (hid : e'.id = e.id) (hpeer : e'.peer = e.peer) (hne : e' ≠ e) :
    e'.isClient ≠ e.isClient ∧ e'.conn ≠ e.conn := by
  have hclient : e'.isClient ≠ e.isClient := by
    intro hclient
    apply hne
    cases e
    cases e'
    simp_all
  refine ⟨hclient, ?_⟩
  rw [End.conn, End.conn]
  cases hother : e'.isClient <;> cases hown : e.isClient <;> simp_all

theorem Sound.addOrDiscard (h : s.Sound) (e : End) :
    let r := (s.nodes e.id).addOrDiscardClient e.peer e.conn e.isClient
    ((s.setNode e.id r.2).setEnd e (if r.1 then .registered else .rejected)).Sound := by
  have hid := h.networkId e.id
  rcases (s.nodes e.id).addOrDiscardClient_cases e.peer e.conn e.isClient with
    ⟨heq, hreason⟩ | ⟨heq, hpeer, hreason⟩
  · dsimp only
    rw [heq]
    apply h.setNode hid (h.own e.id)
    · intro he
      rw [hid] at hreason
      rcases hreason with hself | ⟨-, hclient⟩
      · exact absurd hself.symm he.1
      · exact absurd he.2 hclient
    · exact fun e' _ _ _ hnamed => hnamed
  · dsimp only
    rw [heq]
    rw [hid] at hpeer hreason
    apply h.setNode
    · exact hid
    · rw [NetworkManager.findClient_insert, if_neg (Ne.symm hpeer)]
      exact h.own e.id
    · intro _
      exact ⟨rfl, (NetworkManager.findClient_insert ..).trans (if_pos rfl)⟩
    · intro e' he' hid' hne hnamed
      rw [NetworkManager.findClient_insert]
      split
      · rename_i hsame
        exfalso
        cases hreason with
        | inl hnone =>
          rw [hsame, hnone] at hnamed
          cases hnamed
        | inr hclient =>
          apply (conn_ne hid' hsame hne).1
          rw [he'.2, hclient, hid', hsame]
      · exact hnamed

theorem Sound.discard (h : s.Sound) {e : End} (idKnown : Bool) (he : ¬ e.OpenedByGreater) :
    ((s.setNode e.id (if idKnown then (s.nodes e.id).discardClient e.peer e.conn
      else s.nodes e.id)).setEnd e .discarded).Sound := by
  have hid := h.networkId e.id
  cases idKnown with
  | false =>
    exact h.setNode hid (h.own e.id) (fun he' => absurd he' he) fun e' _ _ _ hnamed => hnamed
  | true =>
    have hfind := (s.nodes e.id).findClient_discardClient e.peer
    apply h.setNode
    · rw [if_pos rfl, (hfind e.id e.conn).1, hid]
    · rw [if_pos rfl]
      rcases (hfind e.id e.conn).2 with hsame | ⟨hnone, -⟩
      · rw [hsame]
        exact h.own e.id
      · exact hnone
    · exact fun he' => absurd he' he
    · intro e' he' hid' hne hnamed
      rw [if_pos rfl]
      rcases (hfind e'.peer e.conn).2 with hsame | ⟨-, hpeer, hnamed'⟩
      · rwa [hsame]
      · rw [hpeer, hnamed'] at hnamed
        exact absurd (Option.some.inj hnamed).symm (conn_ne hid' hpeer hne).2

theorem Sound.next (h : s.Sound) {a : OpenAction} (hstep : s.next a = some t) : t.Sound := by
  cases a with
  | openConnection id peer =>
    obtain ⟨-, ⟨⟩⟩ := Option.ite_none_right_eq_some.mp hstep
    exact (h.setEnd fun _ => .inl rfl).setEnd fun _ => .inl rfl
  | endHandshake e =>
    obtain ⟨-, ⟨⟩⟩ := Option.ite_none_right_eq_some.mp hstep
    exact h.setEnd fun _ => .inr rfl
  | failHandshake e idKnown =>
    obtain ⟨⟨-, hclosed⟩, ⟨⟩⟩ := Option.ite_none_right_eq_some.mp hstep
    apply h.setEnd
    intro he
    rw [h.not_closed he.other] at hclosed
    cases hclosed
  | addOrDiscard e =>
    obtain ⟨-, ⟨⟩⟩ := Option.ite_none_right_eq_some.mp hstep
    exact h.addOrDiscard e
  | noticeClose e =>
    obtain ⟨⟨-, hclosed⟩, ⟨⟩⟩ := Option.ite_none_right_eq_some.mp hstep
    apply h.setEnd
    intro he
    rw [h.not_closed he.other] at hclosed
    cases hclosed
  | close e =>
    rw [OpenSystem.next] at hstep
    split at hstep
    · rename_i hends
      cases hstep
      exact h.setEnd fun he => absurd he (h.loses hends (by simp))
    · rename_i hends
      cases hstep
      exact h.setEnd fun he => absurd he (h.loses hends (by simp))
    · rename_i idKnown hends
      cases hstep
      exact h.setEnd fun he => absurd he (h.loses hends (by simp))
    · cases hstep
  | discard e =>
    rw [OpenSystem.next] at hstep
    split at hstep
    · rename_i idKnown hends
      cases hstep
      exact h.discard idKnown (h.loses hends (by simp))
    · cases hstep

theorem Start.sound (h : s.Start) : s.Sound where
  networkId := h.networkId
  own x := by
    rw [NetworkManager.findClient, h.clients]
    rfl
  kept e _ := .inl (h.ends e)

/-- The end has been registered or rejected, or its handshake has failed, and it has been
discarded if the connection is closed here or there. -/
def Settled (s : OpenSystem) (e : End) : Prop :=
  s.ends e = some .discarded ∨ (s.ends e = some .registered ∧ s.isClosed e.other = false)

instance (s : OpenSystem) (e : End) : Decidable (s.Settled e) :=
  inferInstanceAs (Decidable (_ ∨ _))

/-- Both ends of both connections between two nodes. -/
def BothSettled (s : OpenSystem) (x y : NetworkId) : Prop :=
  ∀ isClient, s.Settled ⟨x, y, isClient⟩ ∧ s.Settled ⟨y, x, isClient⟩

instance (s : OpenSystem) (x y : NetworkId) : Decidable (s.BothSettled x y) :=
  inferInstanceAs (Decidable (∀ _, _))

/-- The end at `x` of the connection that the greater of two nodes has opened. -/
def greaterEnd (x y : NetworkId) : End := ⟨x, y, decide (y < x)⟩

theorem both_ends_keep_the_same_connection (h : s.Start) (hrun : Run next (fun _ _ => True) s t) :
    (∀ x, (t.nodes x).findClient x = none) ∧ ∀ x y, x ≠ y →
      (∀ state ∈ t.ends (greaterEnd x y),
        state = .handshake ∨ state = .shaken ∨ state = .registered) ∧
      (t.ends (greaterEnd x y) = some .registered →
        (t.nodes x).findClient y = some (greaterEnd x y).conn) ∧
      (t.BothSettled x y → (t.nodes x).findClient y = some (greaterEnd x y).conn ∧
        (t.nodes y).findClient x = some (greaterEnd y x).conn) := by
  have ht : t.Sound := hrun.invariant h.sound fun _ _ _ hs _ hstep => hs.next hstep
  have hregistered : ∀ x y, x ≠ y → t.ends (greaterEnd x y) = some .registered →
      (t.nodes x).findClient y = some (greaterEnd x y).conn := by
    intro x y hne hends
    rcases ht.kept (greaterEnd x y) ⟨hne, rfl⟩ with hother | hother | hother | hholds
    · rw [hends] at hother
      cases hother
    · rw [hends] at hother
      cases hother
    · rw [hends] at hother
      cases hother
    · exact hholds.named
  have hsettled : ∀ x y, x ≠ y → t.Settled (greaterEnd x y) →
      t.ends (greaterEnd x y) = some .registered := by
    intro x y hne hsettled
    rcases hsettled with hends | ⟨hends, -⟩
    · exact absurd ⟨hne, rfl⟩ (ht.loses hends (by simp))
    · exact hends
  refine ⟨ht.own, ?_⟩
  intro x y hne
  refine ⟨?_, hregistered x y hne, ?_⟩
  · intro state hstate
    rcases ht.kept (greaterEnd x y) ⟨hne, rfl⟩ with hends | hends | hends | hholds
    · rw [hends] at hstate
      cases hstate
    · rw [hends] at hstate
      exact .inl (Option.some.inj hstate).symm
    · rw [hends] at hstate
      exact .inr (.inl (Option.some.inj hstate).symm)
    · rw [hholds.registered] at hstate
      exact .inr (.inr (Option.some.inj hstate).symm)
  · intro hboth
    exact ⟨hregistered x y hne (hsettled x y hne (hboth _).1),
      hregistered y x hne.symm (hsettled y x hne.symm (hboth _).2)⟩

def initial : OpenSystem where
  nodes := NetworkManager.new
  ends _ := none

theorem start_initial : initial.Start where
  networkId _ := rfl
  clients _ := rfl
  ends _ := rfl

/-- A has registered its own connection when B's comes; B rejects A's and closes it, and A
discards it last of all. -/
def crossingRun : List OpenAction :=
  [.openConnection idA idB, .openConnection idB idA,
    .endHandshake ⟨idA, idB, true⟩, .addOrDiscard ⟨idA, idB, true⟩,
    .endHandshake ⟨idB, idA, true⟩, .addOrDiscard ⟨idB, idA, true⟩,
    .endHandshake ⟨idB, idA, false⟩, .addOrDiscard ⟨idB, idA, false⟩,
    .close ⟨idB, idA, false⟩, .noticeClose ⟨idA, idB, true⟩, .close ⟨idA, idB, true⟩,
    .endHandshake ⟨idA, idB, false⟩, .addOrDiscard ⟨idA, idB, false⟩,
    .discard ⟨idB, idA, false⟩, .discard ⟨idA, idB, true⟩]

theorem crossing_connections_end_in_one :
    ∃ t, initial.Start ∧ Run next (fun _ _ => True) initial t ∧ idA ≠ idB ∧
      t.BothSettled idA idB ∧
      (t.nodes idA).findClient idB = some (greaterEnd idA idB).conn ∧
      (t.nodes idB).findClient idA = some (greaterEnd idB idA).conn := by
  obtain ⟨t, ht⟩ : ∃ t, runActions next initial crossingRun = some t :=
    Option.isSome_iff_exists.mp (by decide +kernel)
  have hchecked : ∀ t ∈ runActions next initial crossingRun, t.BothSettled idA idB := by
    decide +kernel
  have hrun : Run next (fun _ _ => True) initial t := .of_runActions ht (by simp)
  have hne : idA ≠ idB := by decide
  have hsettled := hchecked t ht
  exact ⟨t, start_initial, hrun, hne, hsettled,
    ((both_ends_keep_the_same_connection start_initial hrun).2 idA idB hne).2.2 hsettled⟩

end OpenSystem

end ParLib.Election
