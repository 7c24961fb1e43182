import ParLib.Foundations.Runs
import ParLib.Job.LeaderStep

/-!
# The nodes of a computation and the messages between them

Every node goes round `ComputationLoop`: its leader or non-leader step, a
compute step, the messages it reads. `packets` holds what has been sent and
not yet read, in sending order; a connection delivers in that order. A message
may be read as late as one likes, so the queue of arrived messages needs no
place of its own. A node that crashes stops; what it has sent may still be read.
-/

namespace ParLib.Job

set_option autoImplicit false

open Foundations

/-- Where a node is in `ComputationLoop`. -/
inductive Phase
  | first
  | compute
  | read
  deriving DecidableEq, Repr

structure Packet where
  src : NetworkId
  dst : NetworkId
  msg : Message

structure System where
  comp : NetworkId → Computation
  net : NetworkId → Net
  phase : NetworkId → Phase
  packets : List Packet
  crashed : NetworkId → Bool

inductive Action
  | first (id : NetworkId) (timeUp sync : Bool)
  | compute (id : NetworkId)
  | receive (id src : NetworkId)
  | endRead (id : NetworkId)
  | connect (id peer : NetworkId)
  | crash (id : NetworkId)
  | discard (id peer : NetworkId)
  deriving DecidableEq, Repr

def Action.node : Action → NetworkId
  | .first id _ _ | .compute id | .receive id _ | .endRead id | .connect id _ | .crash id
  | .discard id _ => id

/-- The messages that overwrite entries of the reader's table. -/
def Message.writesTable : Message → Bool
  | .stackAssignment _ _ | .assignmentFinished _ => true
  | .terminate | .divideWith _ => false

namespace Packet

def onConnection (src dst : NetworkId) (p : Packet) : Bool := p.src = src ∧ p.dst = dst

/-- What the message writes to a client's entry in the reader's table. -/
def write? (p : Packet) (k : NetworkId) : Option (List Path) :=
  match p.msg with
  | .stackAssignment assign _ => assign.find? k
  | .assignmentFinished _ => if k = p.src then some [] else none
  | .terminate | .divideWith _ => none

def entries (p : Packet) : List NetworkId :=
  match p.msg with
  | .stackAssignment assign _ => assign.getClients
  | .assignmentFinished _ => [p.src]
  | .terminate | .divideWith _ => []

theorem mem_entries {p : Packet} {k : NetworkId} : k ∈ p.entries ↔ (p.write? k).isSome = true := by
  rw [entries, write?]
  split
  · exact StackAssignment.mem_getClients
  · simp
  · simp
  · simp

theorem entries_eq_nil {p : Packet} (h : p.msg.writesTable = false) : p.entries = [] := by
  rw [entries]
  cases hmsg : p.msg with
  | stackAssignment assign resent | assignmentFinished best =>
    rw [hmsg] at h
    cases h
  | terminate | divideWith id => rfl

/-- The new work that the message brings to its reader. -/
def newWork (p : Packet) : List Path :=
  match p.msg with
  | .stackAssignment assign false => assign.getAssignment p.dst
  | _ => []

end Packet

namespace System

/-- Replace the state of a node and put what it sends on the connections. -/
def commit (s : System) (id : NetworkId) (phase : Phase) (r : Computation × List Send) : System :=
  { s with
    comp := Function.update s.comp id r.1
    phase := Function.update s.phase id phase
    packets := s.packets ++ r.2.map fun q => ⟨id, q.destId, q.msg⟩ }

def setClients (s : System) (id : NetworkId) (clients : List NetworkId) : System :=
  { s with net := Function.update s.net id { s.net id with clients := clients } }

def atPhase (s : System) (id : NetworkId) (phase : Phase) : Bool :=
  !s.crashed id && s.phase id = phase

def next (s : System) : Action → Option System
  | .first id timeUp sync =>
    if s.atPhase id .first ∧ (s.comp id).state ≠ .finished then
      ((s.comp id).firstStep (s.net id) timeUp sync).map (s.commit id .compute)
    else none
  | .compute id =>
    if s.atPhase id .compute then
      ((s.comp id).computeStep (s.net id)).map (s.commit id .read)
    else none
  | .receive id src =>
    if s.atPhase id .read then
      match s.packets.find? (Packet.onConnection src id) with
      | none => none
      | some p =>
        ((s.comp id).onMessage (s.net id) src p.msg).map
          ({ s with packets := s.packets.eraseP (Packet.onConnection src id) }.commit id .read)
    else none
  | .endRead id =>
    if s.atPhase id .read then some (s.commit id .first (s.comp id, [])) else none
  | .connect id peer =>
    if id ≠ peer ∧ peer ∉ (s.net id).clients ∧ id ∉ (s.net peer).clients ∧
        !s.crashed id ∧ !s.crashed peer then
      some ((s.setClients id (peer :: (s.net id).clients)).setClients peer
        (id :: (s.net peer).clients))
    else none
  | .crash id =>
    if s.crashed id then none
    else some { s with crashed := Function.update s.crashed id true }
  | .discard id peer =>
    if !s.crashed id ∧ s.crashed peer then
      some (s.setClients id ((s.net id).clients.erase peer))
    else none

def recorded (s : System) (x k : NetworkId) : List Path := (s.comp x).recorded k

def stack (s : System) (x : NetworkId) : List Path := (s.comp x).stack

/-- The writes of an entry that are on their way to a node, in sending order. -/
def pendingWrites (s : System) (x k : NetworkId) : List (List Path) :=
  s.packets.filterMap fun p => if p.dst = x then p.write? k else none

def Computing (s : System) (x : NetworkId) : Prop := (s.comp x).state = .computing

instance (s : System) (x : NetworkId) : Decidable (s.Computing x) :=
  inferInstanceAs (Decidable (_ = _))

@[simp]
theorem commit_packets (s : System) (id : NetworkId) (phase : Phase)
    (r : Computation × List Send) : (s.commit id phase r).packets =
      s.packets ++ r.2.map fun q => ⟨id, q.destId, q.msg⟩ := rfl

theorem mem_commit_packets {s : System} {id : NetworkId} {phase : Phase}
    {r : Computation × List Send} {p : Packet} : p ∈ (s.commit id phase r).packets ↔
      p ∈ s.packets ∨ ∃ q ∈ r.2, p = ⟨id, q.destId, q.msg⟩ := by
  rw [commit_packets, List.mem_append, List.mem_map]
  simp only [eq_comm]

theorem commit_comp_self (s : System) (id : NetworkId) (phase : Phase)
    (r : Computation × List Send) : (s.commit id phase r).comp id = r.1 := Function.update_self ..

theorem commit_comp_of_ne (s : System) {id x : NetworkId} (phase : Phase)
    (r : Computation × List Send) (h : x ≠ id) :
    (s.commit id phase r).comp x = s.comp x := Function.update_of_ne h ..

section Commit

variable (s : System) (id : NetworkId) (phase : Phase) (r : Computation × List Send)

@[simp]
theorem recorded_commit_self (k : NetworkId) :
    (s.commit id phase r).recorded id k = r.1.recorded k := by
  rw [recorded, commit_comp_self]

@[simp]
theorem stack_commit_self : (s.commit id phase r).stack id = r.1.stack := by
  rw [stack, commit_comp_self]

@[simp]
theorem computing_commit_self :
    (s.commit id phase r).Computing id ↔ r.1.state = .computing := by
  rw [Computing, commit_comp_self]

variable {id} {x : NetworkId} (hne : x ≠ id)

include hne

theorem recorded_commit_of_ne (k : NetworkId) :
    (s.commit id phase r).recorded x k = s.recorded x k := by
  rw [recorded, commit_comp_of_ne s phase r hne, recorded]

theorem stack_commit_of_ne : (s.commit id phase r).stack x = s.stack x := by
  rw [stack, commit_comp_of_ne s phase r hne, stack]

theorem computing_commit_of_ne : (s.commit id phase r).Computing x ↔ s.Computing x := by
  rw [Computing, commit_comp_of_ne s phase r hne, Computing]

end Commit

@[simp]
theorem commit_net (s : System) (id : NetworkId) (phase : Phase) (r : Computation × List Send) :
    (s.commit id phase r).net = s.net := rfl

@[simp]
theorem commit_crashed (s : System) (id : NetworkId) (phase : Phase)
    (r : Computation × List Send) : (s.commit id phase r).crashed = s.crashed := rfl

theorem commit_same (s : System) (id : NetworkId) :
    s.commit id (s.phase id) (s.comp id, []) = s := by
  simp [commit]

/-- Sending in two goes is sending once. -/
theorem commit_commit (s : System) (id : NetworkId) (phase phase' : Phase) (c c' : Computation)
    (sent sent' : List Send) : (s.commit id phase (c, sent)).commit id phase' (c', sent') =
      s.commit id phase' (c', sent ++ sent') := by
  simp [commit]

theorem pendingWrites_eq_nil {s : System} {x k : NetworkId} :
    s.pendingWrites x k = [] ↔ ∀ p ∈ s.packets, p.dst = x → k ∉ p.entries := by
  rw [pendingWrites, List.filterMap_eq_nil_iff]
  refine forall₂_congr fun p _ => ?_
  rw [Packet.mem_entries]
  by_cases hdst : p.dst = x <;> simp [hdst]

theorem pendingWrites_commit (s : System) (id : NetworkId) (phase : Phase)
    (r : Computation × List Send) (x k : NetworkId) : (s.commit id phase r).pendingWrites x k =
      s.pendingWrites x k ++ r.2.filterMap fun q =>
        if q.destId = x then (⟨id, q.destId, q.msg⟩ : Packet).write? k else none := by
  rw [pendingWrites, commit_packets, List.filterMap_append, List.filterMap_map]
  rfl

theorem pendingWrites_commit_of_none {s : System} {id x k : NetworkId} {phase : Phase}
    {r : Computation × List Send}
    (h : ∀ q ∈ r.2, q.destId = x → (⟨id, q.destId, q.msg⟩ : Packet).write? k = none) :
    (s.commit id phase r).pendingWrites x k = s.pendingWrites x k := by
  have hnone : (r.2.filterMap fun q =>
      if q.destId = x then (⟨id, q.destId, q.msg⟩ : Packet).write? k else none) = [] := by
    rw [List.filterMap_eq_nil_iff]
    intro q hq
    rw [ite_eq_right_iff]
    exact h q hq
  rw [pendingWrites_commit, hnone, List.append_nil]

inductive Move (s : System) : Action → System → Prop
  | first {id : NetworkId} {timeUp sync : Bool} {r : Computation × List Send}
      (hlive : (s.comp id).state ≠ .finished)
      (hr : Computation.FirstStep (s.comp id) (s.net id) timeUp sync r) :
      Move s (.first id timeUp sync) (s.commit id .compute r)
  | compute {id : NetworkId} {r : Computation × List Send}
      (hr : (s.comp id).computeStep (s.net id) = some r) :
      Move s (.compute id) (s.commit id .read r)
  | receive {id src : NetworkId} {pre post : List Packet} {p : Packet}
      {r : Computation × List Send} (hpackets : s.packets = pre ++ p :: post)
      (hfound : s.packets.find? (Packet.onConnection src id) = some p)
      (herase : s.packets.eraseP (Packet.onConnection src id) = pre ++ post)
      (hsrc : p.src = src) (hdst : p.dst = id)
      (hr : (s.comp id).onMessage (s.net id) src p.msg = some r) :
      Move s (.receive id src) ({ s with packets := pre ++ post }.commit id .read r)
  | endRead {id : NetworkId} : Move s (.endRead id) (s.commit id .first (s.comp id, []))
  | connect {id peer : NetworkId} (hne : id ≠ peer)
      (hnew : peer ∉ (s.net id).clients ∧ id ∉ (s.net peer).clients) :
      Move s (.connect id peer)
        ((s.setClients id (peer :: (s.net id).clients)).setClients peer
          (id :: (s.net peer).clients))
  | crash {id : NetworkId} :
      Move s (.crash id) { s with crashed := Function.update s.crashed id true }
  | discard {id peer : NetworkId} (hpeer : s.crashed peer = true) :
      Move s (.discard id peer) (s.setClients id ((s.net id).clients.erase peer))

section Read

variable {s : System} {pre post : List Packet} {p : Packet}
  (hpackets : s.packets = pre ++ p :: post)

include hpackets

theorem mem_of_read : p ∈ s.packets := by
  rw [hpackets]
  exact List.mem_append_right pre List.mem_cons_self

theorem eq_or_mem_rest {q : Packet} (hq : q ∈ s.packets) : q = p ∨ q ∈ pre ++ post := by
  rw [hpackets] at hq
  simp only [List.mem_append, List.mem_cons] at hq ⊢
  tauto

theorem mem_of_rest {q : Packet} (hq : q ∈ pre ++ post) : q ∈ s.packets := by
  rw [hpackets]
  simp only [List.mem_append, List.mem_cons] at hq ⊢
  tauto

theorem eq_of_not_mem_rest {q : Packet} (hq : q ∈ s.packets) (hrest : q ∉ pre ++ post) : q = p :=
  (eq_or_mem_rest hpackets hq).resolve_right hrest

end Read

/-- Taking the first message of a connection off the packets. -/
theorem find?_onConnection {packets : List Packet} {src dst : NetworkId} {p : Packet}
    (h : packets.find? (Packet.onConnection src dst) = some p) :
    p.src = src ∧ p.dst = dst ∧ ∃ pre post, packets = pre ++ p :: post ∧
      packets.eraseP (Packet.onConnection src dst) = pre ++ post ∧
      packets.takeWhile (fun q => !q.onConnection src dst) = pre := by
  obtain ⟨hp, pre, post, rfl, hpre⟩ := List.find?_eq_some_iff_append.mp h
  have hconn : p.src = src ∧ p.dst = dst := by simpa [Packet.onConnection] using hp
  refine ⟨hconn.1, hconn.2, pre, post, rfl, ?_, ?_⟩
  · rw [List.eraseP_append_right _ (by simpa using hpre), List.eraseP_cons_of_pos hp]
  · rw [List.takeWhile_append_of_pos hpre, List.takeWhile_cons_of_neg (by simp [hp]),
      List.append_nil]

theorem move_of_next {s t : System} {a : Action} (h : s.next a = some t) : Move s a t := by
  cases a with
  | first id timeUp sync =>
    obtain ⟨⟨-, hlive⟩, h⟩ := Option.ite_none_right_eq_some.mp h
    obtain ⟨r, hr, rfl⟩ := Option.map_eq_some_iff.mp h
    exact .first hlive (Computation.firstStep_cases hr)
  | compute id =>
    obtain ⟨-, h⟩ := Option.ite_none_right_eq_some.mp h
    obtain ⟨r, hr, rfl⟩ := Option.map_eq_some_iff.mp h
    exact .compute hr
  | receive id src =>
    obtain ⟨-, h⟩ := Option.ite_none_right_eq_some.mp h
    split at h
    · cases h
    · rename_i p hfound
      obtain ⟨r, hr, rfl⟩ := Option.map_eq_some_iff.mp h
      obtain ⟨hsrc, hdst, pre, post, hpackets, herase, -⟩ := find?_onConnection hfound
      rw [herase]
      exact .receive hpackets hfound herase hsrc hdst hr
  | endRead id =>
    obtain ⟨-, ⟨⟩⟩ := Option.ite_none_right_eq_some.mp h
    exact .endRead
  | connect id peer =>
    obtain ⟨⟨hne, hnew, hnew', -⟩, ⟨⟩⟩ := Option.ite_none_right_eq_some.mp h
    exact .connect hne ⟨hnew, hnew'⟩
  | crash id =>
    obtain ⟨-, ⟨⟩⟩ := Option.ite_none_left_eq_some.mp h
    exact .crash
  | discard id peer =>
    obtain ⟨⟨-, hpeer⟩, ⟨⟩⟩ := Option.ite_none_right_eq_some.mp h
    exact .discard hpeer

theorem comp_of_next {s t : System} {a : Action} {x : NetworkId} (h : s.next a = some t)
    (hx : x ≠ a.node) : t.comp x = s.comp x := by
  cases move_of_next h with
  | first | compute | receive | endRead => exact commit_comp_of_ne _ _ _ hx
  | connect | crash | discard => rfl

theorem comp_of_runActions {s t : System} {actions : List Action} {x : NetworkId}
    (h : runActions next s actions = some t) (hx : ∀ a ∈ actions, x ≠ a.node) :
    t.comp x = s.comp x := by
  induction actions generalizing s with
  | nil =>
    cases h
    rfl
  | cons a rest ih =>
    obtain ⟨m, hm, hrest⟩ := Option.bind_eq_some_iff.mp h
    rw [ih hrest fun b hb => hx b (List.mem_cons_of_mem a hb)]
    exact comp_of_next hm (hx a List.mem_cons_self)

/-- One leader, and nobody is connected to himself. -/
structure Linked (leader : NetworkId) (s : System) : Prop where
  networkId : ∀ x, (s.net x).networkId = x
  leads : ∀ x, (s.net x).leader = decide (x = leader)
  irrefl : ∀ x, x ∉ (s.net x).clients
  nodup : ∀ x, (s.net x).clients.Nodup

theorem Linked.of_net {s t : System} {leader : NetworkId} (h : s.Linked leader)
    (hnet : t.net = s.net) : t.Linked leader := by
  obtain ⟨hids, hleads, hirrefl, hnodup⟩ := h
  rw [← hnet] at hids hleads hirrefl hnodup
  exact ⟨hids, hleads, hirrefl, hnodup⟩

theorem Linked.eq_of_leads {s : System} {leader x : NetworkId} (h : s.Linked leader)
    (hx : (s.net x).leader = true) : x = leader := by
  rwa [h.leads, decide_eq_true_eq] at hx

theorem Linked.setClients {s : System} {leader : NetworkId} (h : s.Linked leader) {x : NetworkId}
    {clients : List NetworkId} (hself : x ∉ clients) (hnodup : clients.Nodup) :
    (s.setClients x clients).Linked leader := by
  have hnet : ∀ y, ((s.setClients x clients).net y).networkId = (s.net y).networkId ∧
      ((s.setClients x clients).net y).leader = (s.net y).leader ∧
      y ∉ ((s.setClients x clients).net y).clients ∧
      ((s.setClients x clients).net y).clients.Nodup := by
    intro y
    rcases eq_or_ne y x with rfl | hne
    · simp [System.setClients, hself, hnodup]
    · simp [System.setClients, hne, h.irrefl, h.nodup]
  refine ⟨?_, ?_, fun y => (hnet y).2.2.1, fun y => (hnet y).2.2.2⟩
  · intro y
    rw [(hnet y).1, h.networkId]
  · intro y
    rw [(hnet y).2.1, h.leads]

theorem Linked.connect {s : System} {leader id peer : NetworkId} (h : s.Linked leader)
    (hne : id ≠ peer) (hnew : peer ∉ (s.net id).clients ∧ id ∉ (s.net peer).clients) :
    ((s.setClients id (peer :: (s.net id).clients)).setClients peer
      (id :: (s.net peer).clients)).Linked leader := by
  refine (h.setClients ?_ ?_).setClients ?_ ?_
  · rw [List.mem_cons, not_or]
    exact ⟨hne, h.irrefl id⟩
  · exact List.nodup_cons.mpr ⟨hnew.1, h.nodup id⟩
  · rw [List.mem_cons, not_or]
    exact ⟨hne.symm, h.irrefl peer⟩
  · exact List.nodup_cons.mpr ⟨hnew.2, h.nodup peer⟩

/-- The leader deals out the states that its first steps leave over. -/
theorem Linked.dealt {s : System} {leader : NetworkId} (h : s.Linked leader)
    {r : Computation × List Send}
    (hr : { s.comp leader with state := .waiting }.initLeaderStep (s.net leader) = some r) :
    ∃ mc ps pars assign,
      MaximumCut.Explored (s.comp leader).maximumCut.populateStates mc ps ∧
      pars = getParallelStacks mc.states.data (s.net leader).knownClients.length ∧
      (s.net leader).knownClients.length = pars.length ∧
      (∀ k states, assign.find? k = some states ↔
        (k, ⟨states⟩) ∈ (s.net leader).knownClients.zip pars) ∧
      r = ({ s.comp leader with state := .waiting, maximumCut := mc }.onAssignment (s.net leader)
        assign, (s.net leader).broadcastMsg (.stackAssignment assign false)) := by
  have hself : (s.net leader).networkId ∉ (s.net leader).clients := by
    rw [h.networkId]
    exact h.irrefl leader
  exact Computation.initLeaderStep_eq_some (by simp) hself (h.nodup leader) hr

theorem recorded_of_table {s : System} {table : StackAssignment} {x : NetworkId}
    (htable : (s.comp x).currAssignment = some table) (k : NetworkId) :
    s.recorded x k = table.getAssignment k := by
  rw [recorded, Computation.recorded, htable, Option.getD_some]

/-- A check of the leader is a sending of notices, a division or none, and a sending of
requests: what these keep, it keeps. -/
theorem checkTable_induction {P : System → Prop} {s : System} {leader : NetworkId}
    {table : StackAssignment} {phase : Phase} (hid : (s.net leader).networkId = leader)
    (sync : Bool) (hconnected : ∀ k, table.getAssignment k ≠ [] → k ∈ (s.net leader).knownClients)
    (hnotices : ∀ sent, (∀ q ∈ sent, Computation.Notice (s.net leader) table sync q) →
      P (s.commit leader phase ((s.comp leader).checked (s.net leader) table, sent)))
    (hdivide : ∀ s' client, s'.net = s.net → P s' →
      s'.comp leader = (s.comp leader).checked (s.net leader) table →
      client ∈ (s.net leader).knownClients → client ≠ leader → table.getAssignment client = [] →
      P (s'.commit leader phase ((s'.comp leader).onDivideWith (s'.net leader) client)))
    (hrequests : ∀ s' sent, s'.net = s.net → P s' →
      (∀ q ∈ sent, Computation.Request (s.net leader) q) →
      P (s'.commit leader phase (s'.comp leader, sent))) :
    P (s.commit leader phase ((s.comp leader).checkTable (s.net leader) table sync)) := by
  obtain ⟨before, own, after, hsent, hbefore, hafter, hown⟩ :=
    Computation.checkTable_of_connected (c := s.comp leader) hconnected sync
  generalize (s.comp leader).checkTable (s.net leader) table sync = r at hsent hown ⊢
  obtain ⟨c, sent⟩ := r
  subst hsent
  have h₁ := hnotices before hbefore
  generalize hs₁ : s.commit leader phase ((s.comp leader).checked (s.net leader) table, before) =
    s₁ at h₁
  have hcomp₁ : s₁.comp leader = (s.comp leader).checked (s.net leader) table := by
    rw [← hs₁, commit_comp_self]
  have hnet₁ : s₁.net = s.net := by rw [← hs₁, commit_net]
  rcases hown with ⟨rfl, rfl⟩ | ⟨client, hclient, hne, hfree, heq⟩
  · rw [List.append_nil, ← commit_commit s leader phase phase, hs₁, ← hcomp₁]
    exact hrequests s₁ after hnet₁ h₁ hafter
  · rw [hid] at hne
    have h₂ := hdivide s₁ client hnet₁ h₁ hcomp₁ hclient hne hfree
    rw [hcomp₁, hnet₁, ← heq] at h₂
    generalize hs₂ : s₁.commit leader phase (c, own) = s₂ at h₂
    have hcomp₂ : s₂.comp leader = c := by rw [← hs₂, commit_comp_self]
    have hnet₂ : s₂.net = s.net := by rw [← hs₂, commit_net, hnet₁]
    have hsplit : s.commit leader phase (c, before ++ own ++ after) =
        s₂.commit leader phase (c, after) := by
      rw [← hs₂, ← hs₁, commit_commit, commit_commit, List.append_assoc]
    rw [hsplit, ← hcomp₂]
    exact hrequests s₂ after hnet₂ h₂ hafter

end System

/-- Nothing has happened yet, and the members are connected to each other. -/
structure Start (members : Finset NetworkId) (leader : NetworkId) (matrix : Matrix) (s : System) :
    Prop where
  leader_mem : leader ∈ members
  comp : ∀ x, s.comp x = .new matrix
  networkId : ∀ x, (s.net x).networkId = x
  leader : ∀ x, (s.net x).leader = decide (x = leader)
  clients : ∀ x y, y ∈ (s.net x).clients ↔ x ∈ members ∧ y ∈ members ∧ y ≠ x
  nodup : ∀ x, (s.net x).clients.Nodup
  phase : ∀ x, s.phase x = .first
  packets : s.packets = []
  crashed : ∀ x, s.crashed x = false

theorem Start.linked {members : Finset NetworkId} {leader : NetworkId} {matrix : Matrix}
    {s : System} (h : Start members leader matrix s) : s.Linked leader where
  networkId := h.networkId
  leads := h.leader
  irrefl x hx := ((h.clients x x).mp hx).2.2 rfl
  nodup := h.nodup

/-- The listed members before anything has happened. -/
def System.initial (members : List NetworkId) (leader : NetworkId) (matrix : Matrix) : System where
  comp _ := .new matrix
  net x :=
    { networkId := x
      clients := if x ∈ members then members.filter (· ≠ x) else []
      leader := decide (x = leader) }
  phase _ := .first
  packets := []
  crashed _ := false

theorem start_initial {members : List NetworkId} {leader : NetworkId} (hnodup : members.Nodup)
    (hleader : leader ∈ members) (matrix : Matrix) :
    Start members.toFinset leader matrix (.initial members leader matrix) where
  leader_mem := List.mem_toFinset.mpr hleader
  comp _ := rfl
  networkId _ := rfl
  leader _ := rfl
  clients x y := by
    rw [List.mem_toFinset, List.mem_toFinset, System.initial]
    dsimp only
    split
    · simp [*]
    · simp [*]
  nodup x := by
    rw [System.initial]
    dsimp only
    split
    · exact hnodup.filter _
    · exact List.nodup_nil
  phase _ := rfl
  packets := rfl
  crashed _ := rfl

end ParLib.Job
