import ParLib.Job.MessageBytes
import ParLib.Job.ValidPaths

/-!
# Nodes that exchange bytes

Any number of nodes, each with any clients and any leader flag at every step.
What is in flight are the bytes of messages; they may arrive in any order, or
never. The memory around a received content is arbitrary.
-/

namespace ParLib

set_option autoImplicit false

open Foundations

namespace Matrix

/-- The rows and columns that `getNeigh` reads. -/
def neighReads (M : Matrix) (idx : Nat) : List (Nat × Nat) :=
  (List.range M.size).map fun i => (idx, i)

/-- The rows and columns that `sum` reads. -/
def sumReads (M : Matrix) (vertSet : List Nat) : List (Nat × Nat) :=
  vertSet.flatMap fun t =>
    ((List.range M.size).filter fun j => (M.vertTemp vertSet).getD j 0 ≠ 0).map fun j => (t, j)

/-- `current.back()` exists, and the accesses that follow it stay inside the matrix and,
for `vertTemp`, inside one row. -/
structure InRange (M : Matrix) (current : Path) : Prop where
  back : current ≠ []
  neigh : ∀ item ∈ current.getLast?, ∀ a ∈ M.neighReads item, a.1 < M.size ∧ a.2 < M.size
  temp : ∀ i ∈ current, i < M.size
  sum : ∀ a ∈ M.sumReads current, a.1 < M.size ∧ a.2 < M.size

theorem IsSimplePath.inRange {M : Matrix} {current : Path} (h : M.IsSimplePath current) :
    M.InRange current := by
  obtain ⟨hne, -, hrange, -⟩ := h
  refine ⟨hne, ?_, hrange, ?_⟩
  · intro item hitem a ha
    obtain ⟨i, hi, rfl⟩ := List.mem_map.mp ha
    exact ⟨hrange item (List.mem_of_getLast? hitem), List.mem_range.mp hi⟩
  · intro a ha
    obtain ⟨t, ht, ha⟩ := List.mem_flatMap.mp ha
    obtain ⟨j, hj, rfl⟩ := List.mem_map.mp ha
    exact ⟨hrange t ht, List.mem_range.mp (List.mem_filter.mp hj).1⟩

end Matrix

namespace Job

structure BytePacket where
  src : NetworkId
  dst : NetworkId
  msg : Wire.Message

structure ByteSystem where
  comp : NetworkId → Computation
  packets : List BytePacket

namespace ByteSystem

def start (matrix : Matrix) : ByteSystem where
  comp _ := .new matrix
  packets := []

/-- The packet carries what a node sends. -/
structure Carries (src : NetworkId) (q : Send) (p : BytePacket) : Prop where
  src : p.src = src
  dst : p.dst = q.destId
  built : q.msg.BuiltAs p.msg
  encodable : q.msg.Encodable

def commit (s : ByteSystem) (id : NetworkId) (c : Computation) (sent : List BytePacket) :
    ByteSystem where
  comp := Function.update s.comp id c
  packets := s.packets ++ sent

/-- `OnMessage` on the bytes of a message, if the node survives them. -/
def onReceived (c : Computation) (net : Net) (senderId : NetworkId) (scratch : Wire.Bytes)
    (outside : Int → Byte) (m : Wire.Message) : Option (Computation × List Send) :=
  if Message.kills scratch outside m then none
  else
    match Message.decode scratch outside m with
    | none => some (c, [])
    | some msg => c.onMessage net senderId msg

inductive Step (s : ByteSystem) : ByteSystem → Prop
  | first {net : Net} {timeUp sync : Bool} {r : Computation × List Send} {sent : List BytePacket}
      (hr : (s.comp net.networkId).firstStep net timeUp sync = some r)
      (hsent : r.2.Forall₂ (Carries net.networkId) sent) :
      Step s (s.commit net.networkId r.1 sent)
  | compute {net : Net} {r : Computation × List Send} {sent : List BytePacket}
      (hr : (s.comp net.networkId).computeStep net = some r)
      (hsent : r.2.Forall₂ (Carries net.networkId) sent) :
      Step s (s.commit net.networkId r.1 sent)
  | receive {net : Net} {scratch : Wire.Bytes} {outside : Int → Byte} {p : BytePacket}
      {pre post sent : List BytePacket} {r : Computation × List Send}
      (hpackets : s.packets = pre ++ p :: post) (hdst : p.dst = net.networkId)
      (hr : onReceived (s.comp net.networkId) net p.src scratch outside p.msg = some r)
      (hsent : r.2.Forall₂ (Carries net.networkId) sent) :
      Step s ({ s with packets := pre ++ post }.commit net.networkId r.1 sent)
  | lose {p : BytePacket} {pre post : List BytePacket} (hpackets : s.packets = pre ++ p :: post) :
      Step s { s with packets := pre ++ post }

def Reachable (matrix : Matrix) : ByteSystem → Prop := Relation.ReflTransGen Step (start matrix)

/-- Nodes and packets hold paths only. -/
structure OnPaths (M : Matrix) (s : ByteSystem) : Prop where
  comp : ∀ x, (s.comp x).OnPaths M
  packets : ∀ p ∈ s.packets, ∀ scratch outside msg,
    Message.decode scratch outside p.msg = some msg → msg.OnPaths M

variable {M : Matrix} {s t : ByteSystem}

/-- A message about paths survives the way through the bytes. -/
theorem sameAs_decode (hM : M.size < 2 ^ 31) {src : NetworkId} {q : Send} {p : BytePacket}
    (hcarries : Carries src q p) (hq : q.msg.OnPaths M) {scratch : Wire.Bytes}
    {outside : Int → Byte} {msg : Message}
    (hmsg : Message.decode scratch outside p.msg = some msg) :
    msg.SameAs q.msg := by
  have hnarrow : q.msg.Narrow := by
    cases hsent : q.msg with
    | stackAssignment assign resent =>
      rw [hsent] at hq
      intro k path hpath v hv
      have hv' := (hq k path hpath).2.2.1 v hv
      omega
    | assignmentFinished best | terminate | divideWith id => trivial
  obtain ⟨msg', hmsg', hsame⟩ := Message.parse_of_builtAs hcarries.built hcarries.encodable hnarrow
    scratch outside
  obtain rfl : msg' = msg := Option.some.inj (hmsg'.symm.trans (Message.parse_of_decode hmsg))
  exact hsame

theorem onPaths_decode (hM : M.size < 2 ^ 31) {src : NetworkId} {q : Send} {p : BytePacket}
    (hcarries : Carries src q p) (hq : q.msg.OnPaths M) {scratch : Wire.Bytes}
    {outside : Int → Byte} {msg : Message}
    (hmsg : Message.decode scratch outside p.msg = some msg) :
    msg.OnPaths M := by
  have hsame := sameAs_decode hM hcarries hq hmsg
  cases msg with
  | stackAssignment b resent' =>
    cases hsent : q.msg with
    | stackAssignment assign resent =>
      rw [hsent] at hsame hq
      intro k path hpath
      apply hq k path
      rwa [StackAssignment.getAssignment, ← hsame k]
    | assignmentFinished best | terminate | divideWith id =>
      rw [hsent] at hsame
      exact hsame.elim
  | assignmentFinished best | terminate | divideWith id => trivial

theorem exists_carries {id : NetworkId} {sends : List Send} {sent : List BytePacket}
    (hsent : sends.Forall₂ (Carries id) sent) {p : BytePacket} (hp : p ∈ sent) :
    ∃ q ∈ sends, Carries id q p := by
  obtain ⟨i, hi, rfl⟩ := List.mem_iff_getElem.mp hp
  have hi' : i < sends.length := by rwa [hsent.length_eq]
  exact ⟨_, List.getElem_mem hi', hsent.get hi' hi⟩

theorem mem_of_mem_removed {p q : BytePacket} {pre post : List BytePacket}
    (hpackets : s.packets = pre ++ p :: post) (hq : q ∈ pre ++ post) : q ∈ s.packets := by
  rw [hpackets]
  cases List.mem_append.mp hq with
  | inl hq => exact List.mem_append_left _ hq
  | inr hq => exact List.mem_append_right _ (List.mem_cons_of_mem p hq)

theorem OnPaths.commit (hM : M.size < 2 ^ 31) (h : s.OnPaths M) {id : NetworkId}
    {r : Computation × List Send} (hr : r.1.OnPaths M ∧ ∀ q ∈ r.2, q.msg.OnPaths M)
    {sent : List BytePacket} (hsent : r.2.Forall₂ (Carries id) sent) :
    (s.commit id r.1 sent).OnPaths M := by
  obtain ⟨hc, hmsgs⟩ := hr
  constructor
  · intro x
    have hcomp : (s.commit id r.1 sent).comp = Function.update s.comp id r.1 := rfl
    rw [hcomp]
    rcases eq_or_ne x id with rfl | hne
    · rwa [Function.update_self]
    · rw [Function.update_of_ne hne]
      exact h.comp x
  · intro p hp scratch outside msg hmsg
    cases List.mem_append.mp hp with
    | inl hp => exact h.packets p hp scratch outside msg hmsg
    | inr hp =>
      obtain ⟨q, hq, hcarries⟩ := exists_carries hsent hp
      exact onPaths_decode hM hcarries (hmsgs q hq) hmsg

theorem OnPaths.removed (h : s.OnPaths M) {p : BytePacket} {pre post : List BytePacket}
    (hpackets : s.packets = pre ++ p :: post) : { s with packets := pre ++ post }.OnPaths M where
  comp := h.comp
  packets q hq := h.packets q (mem_of_mem_removed hpackets hq)

theorem OnPaths.step (hM : M.size < 2 ^ 31) (h : s.OnPaths M) (hstep : s.Step t) : t.OnPaths M := by
  cases hstep with
  | first hr hsent => exact h.commit hM ((h.comp _).firstStep hr) hsent
  | compute hr hsent => exact h.commit hM ((h.comp _).computeStep hr) hsent
  | @receive net scratch outside p pre post sent r hpackets hdst hr hsent =>
    refine (h.removed hpackets).commit hM ?_ hsent
    obtain ⟨-, hr⟩ := Option.ite_none_left_eq_some.mp hr
    split at hr
    · cases hr
      exact ⟨h.comp _, by simp⟩
    · rename_i msg hmsg
      refine (h.comp _).onMessage ?_ hr
      apply h.packets p _ scratch outside msg hmsg
      rw [hpackets]
      exact List.mem_append_right pre List.mem_cons_self
  | lose hpackets => exact h.removed hpackets

theorem Reachable.onPaths (hM : M.size < 2 ^ 31) (h : Reachable M s) : s.OnPaths M := by
  induction h with
  | refl => exact ⟨fun _ => Computation.onPaths_new M, by simp [start]⟩
  | tail _ hstep ih => exact ih.step hM hstep

/-- Whatever is on a stack, in a table or in flight is a path, so the search never leaves
the matrix: neither with what it has popped nor with what it is still to pop. -/
theorem every_state_is_a_path (hM : M.size < 2 ^ 31) (h : Reachable M s) :
    (∀ x, ∀ p ∈ (s.comp x).stack, M.IsSimplePath p) ∧
      (∀ x, ∀ table ∈ (s.comp x).currAssignment, ∀ k, ∀ p ∈ table.getAssignment k,
        M.IsSimplePath p) ∧
      (∀ packet ∈ s.packets, ∀ scratch outside assign resent,
        Message.decode scratch outside packet.msg = some (.stackAssignment assign resent) →
          ∀ k, ∀ p ∈ assign.getAssignment k, M.IsSimplePath p) ∧
      ∀ x, ∀ current ∈ (s.comp x).stack ++ (s.comp x).maximumCut.popped, M.InRange current := by
  have hpaths := h.onPaths hM
  refine ⟨fun x => (hpaths.comp x).stack, fun x => (hpaths.comp x).table, ?_, ?_⟩
  · intro packet hpacket scratch outside assign resent hmsg
    exact hpaths.packets packet hpacket scratch outside _ hmsg
  · intro x current hcurrent
    cases List.mem_append.mp hcurrent with
    | inl hcurrent => exact ((hpaths.comp x).stack current hcurrent).inRange
    | inr hcurrent => exact ((hpaths.comp x).popped current hcurrent).inRange

def packetOf (src : NetworkId) (q : Send) : BytePacket := ⟨src, q.destId, q.msg.build⟩

theorem carries_packetOf {sent : List Send} (src : NetworkId) (h : ∀ q ∈ sent, q.msg.Encodable) :
    sent.Forall₂ (Carries src) (sent.map (packetOf src)) := by
  rw [List.forall₂_map_right_iff, List.forall₂_same]
  exact fun q hq => ⟨rfl, rfl, q.msg.builtAs_build, h q hq⟩

/-- A leads, and is connected to B. -/
def netOfA : Net where
  networkId := idA
  clients := [idB]
  leader := true

/-- A deals the search out to B. -/
theorem dealt_states_are_paths :
    ∃ s, fourClique.size < 2 ^ 31 ∧ Reachable fourClique s ∧ s.packets ≠ [] ∧
      (∀ x, ∀ p ∈ (s.comp x).stack, fourClique.IsSimplePath p) ∧
      ∀ packet ∈ s.packets, ∀ scratch outside assign resent,
        Message.decode scratch outside packet.msg = some (.stackAssignment assign resent) →
          ∀ k, ∀ p ∈ assign.getAssignment k, fourClique.IsSimplePath p := by
  obtain ⟨r, hr⟩ : ∃ r, (Computation.new fourClique).firstStep netOfA false false = some r :=
    Option.isSome_iff_exists.mp (by decide +kernel)
  have hchecked : ∀ r ∈ (Computation.new fourClique).firstStep netOfA false false,
      r.2.length = 1 ∧ ∀ q ∈ r.2, q.msg.Encodable := by decide +kernel
  obtain ⟨hlen, hencodable⟩ := hchecked r hr
  have hstep : (start fourClique).Step ((start fourClique).commit netOfA.networkId r.1
      (r.2.map (packetOf idA))) := .first hr (carries_packetOf idA hencodable)
  have hreachable : Reachable fourClique _ := .single hstep
  have hpaths := every_state_is_a_path (by decide) hreachable
  refine ⟨_, by decide, hreachable, ?_, hpaths.1, hpaths.2.2.1⟩
  intro hnil
  have hpackets : r.2.map (packetOf idA) = [] := hnil
  rw [List.map_eq_nil_iff.mp hpackets] at hlen
  cases hlen

end ByteSystem

end Job

end ParLib
