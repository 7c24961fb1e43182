import ParLib.Program.Moves

/-!
# Which connection a node sends on

Whatever a handler does, a node's table leads from an id to a line between the
node and that id, and the queue of the computation holds its messages only. So
a call of `SendMsg` puts its message on a line to the addressed node, or nowhere.
-/

namespace ParLib.Election.NetworkManager

set_option autoImplicit false

variable (m : NetworkManager)

theorem step_frame (electionTimeOut tenSeconds : Bool) :
    (m.step electionTimeOut tenSeconds).1.clientConnections = m.clientConnections ∧
      (m.step electionTimeOut tenSeconds).1.networkId = m.networkId := by
  have helection : (m.stepElection electionTimeOut tenSeconds).1.clientConnections =
        m.clientConnections ∧
      (m.stepElection electionTimeOut tenSeconds).1.networkId = m.networkId := by
    rw [stepElection]
    dsimp only
    split
    · split
      · split <;> exact ⟨rfl, rfl⟩
      · exact ⟨rfl, rfl⟩
    · exact ⟨rfl, rfl⟩
  rw [step, stepLostLeader]
  split
  · split <;> exact helection
  · exact helection

theorem adoptLeader_frame (electId : NetworkId) :
    (m.adoptLeader electId).clientConnections = m.clientConnections ∧
      (m.adoptLeader electId).networkId = m.networkId := by
  rw [adoptLeader]
  split <;> exact ⟨rfl, rfl⟩

theorem onMessage_frame (senderId : NetworkId) (msg : Message) :
    (m.onMessage senderId msg).1.clientConnections = m.clientConnections ∧
      (m.onMessage senderId msg).1.networkId = m.networkId := by
  cases msg with
  | election electId =>
    rw [onMessage, onElectionMessage]
    split
    · exact ⟨rfl, rfl⟩
    · split
      · exact ⟨rfl, rfl⟩
      · split
        · exact ⟨rfl, rfl⟩
        · split <;> exact ⟨rfl, rfl⟩
  | elected electId | knownLeader electId => exact m.adoptLeader_frame electId

/-- The start of a receiver thread registers its own connection or none. -/
theorem receiverLoopStart_find {peer k : NetworkId} {conn c : Nat} {isClient : Bool}
    (h : (m.receiverLoopStart peer conn isClient).1.findClient k = some c) :
    m.findClient k = some c ∨ (k = peer ∧ c = conn) := by
  have hinsert (h : (m.clientConnections.insert peer conn).lookup k = some c) :
      m.findClient k = some c ∨ (k = peer ∧ c = conn) := by
    obtain rfl | hne := eq_or_ne k peer
    · rw [AList.lookup_insert] at h
      exact .inr ⟨rfl, (Option.some.inj h).symm⟩
    · rw [AList.lookup_insert_ne hne] at h
      exact .inl h
  rw [receiverLoopStart, addOrDiscardClient] at h
  split at h
  · rename_i hresult
    split at hresult
    · cases hresult
      exact .inl h
    · split at hresult
      · cases hresult
      · split at hresult
        · cases hresult
        · cases hresult
          exact .inl h
  · rename_i hresult
    split at hresult
    · cases hresult
    · split at hresult
      · cases hresult
        exact hinsert h
      · split at hresult
        · cases hresult
          exact hinsert h
        · cases hresult

theorem discardClient_frame (peer : NetworkId) (conn : Nat) :
    (m.discardClient peer conn).networkId = m.networkId ∧
      ∀ k c, (m.discardClient peer conn).findClient k = some c → m.findClient k = some c := by
  have herase : ∀ k c, (m.clientConnections.erase peer).lookup k = some c →
      m.findClient k = some c := by
    intro k c h
    obtain rfl | hne := eq_or_ne k peer
    · rw [AList.lookup_erase] at h
      cases h
    · rw [AList.lookup_erase_ne hne] at h
      exact h
  rw [discardClient]
  split
  · exact ⟨rfl, fun _ _ h => h⟩
  · dsimp only
    split
    · split
      · exact ⟨rfl, herase⟩
      · exact ⟨rfl, fun _ _ h => h⟩
    · split
      · exact ⟨rfl, herase⟩
      · exact ⟨rfl, fun _ _ h => h⟩

end ParLib.Election.NetworkManager

namespace ParLib.Program

set_option autoImplicit false

open Foundations

/-- A turn changes no connection, and takes from the front of the queue at most. -/
theorem Node.next_frame {n : Node} {t : Turn} {r : Node × List Call} (h : n.next t = some r) :
    r.1.manager.clientConnections = n.manager.clientConnections ∧
      r.1.manager.networkId = n.manager.networkId ∧ r.1.messages <:+ n.messages := by
  cases t with
  | discover discovered | keepAlive =>
    cases h
    exact ⟨rfl, rfl, List.suffix_refl _⟩
  | step electionTimeOut tenSeconds =>
    cases h
    obtain ⟨hclients, hid⟩ := n.manager.step_frame electionTimeOut tenSeconds
    exact ⟨hclients, hid, List.suffix_refl _⟩
  | startComputation | endRead =>
    obtain ⟨-, ⟨⟩⟩ := Option.ite_none_right_eq_some.mp h
    exact ⟨rfl, rfl, List.suffix_refl _⟩
  | first orders timeUp sync =>
    obtain ⟨-, h⟩ := Option.ite_none_right_eq_some.mp h
    obtain ⟨rc, -, rfl⟩ := Option.map_eq_some_iff.mp h
    exact ⟨rfl, rfl, List.suffix_refl _⟩
  | compute orders =>
    obtain ⟨-, h⟩ := Option.ite_none_right_eq_some.mp h
    obtain ⟨rc, -, rfl⟩ := Option.map_eq_some_iff.mp h
    exact ⟨rfl, rfl, List.suffix_refl _⟩
  | read orders scratch outside =>
    rw [Node.next] at h
    split at h
    · cases h
    · rename_i senderId m rest hmessages
      obtain ⟨-, h⟩ := Option.ite_none_right_eq_some.mp h
      obtain ⟨rc, -, rfl⟩ := Option.map_eq_some_iff.mp h
      refine ⟨rfl, rfl, ?_⟩
      rw [hmessages]
      exact List.suffix_cons _ _

/-- What `OnMessage` does: it hands the message to a handler, or to the queue, or answers. -/
theorem Node.onMessage_cases (n : Node) (senderId : NetworkId) (m : Wire.Message) :
    (Election.Message.decode m = none ∧ ∃ calls, n.onMessage senderId m = (n, calls) ∧
        ¬ IsJobType m.type ∧
        ∀ call ∈ calls, call.type = messageTypeKeepAliveResp) ∨
      (∃ msg, Election.Message.decode m = some msg ∧ n.onMessage senderId m =
        n.elect (Election.Message.answer m) (n.manager.onMessage senderId msg)) ∨
      (Election.Message.decode m = none ∧ IsJobType m.type ∧ n.onMessage senderId m =
        ({ n with messages := n.messages ++ [(senderId, m)] }, [])) := by
  rw [onMessage]
  split
  · rename_i htype
    left
    refine ⟨?_, _, rfl, ?_, ?_⟩
    · rw [Election.Message.decode, htype]
      rfl
    · rw [htype]
      decide
    · exact fun call hcall => type_of_mem_sendMsg hcall
  · split
    · rename_i msg hmsg
      exact .inr (.inl ⟨msg, hmsg, rfl⟩)
    · rename_i hnone
      split
      · rename_i hjob
        exact .inr (.inr ⟨hnone, hjob, rfl⟩)
      · rename_i hjob
        exact .inl ⟨hnone, [], rfl, hjob, by simp⟩

/-- Every manager knows its own id, its connections lead where their keys say, and the queues
hold messages of the computation. -/
structure WellFormed (s : System) : Prop where
  wired : Wired s.lines
  networkId : ∀ id, (s.nodes id).manager.networkId = id
  table : ∀ id peer conn, (s.nodes id).manager.findClient peer = some conn →
    (ends s.lines)[conn]? = some (id, peer)
  queued : ∀ id, ∀ e ∈ (s.nodes id).messages, IsJobType e.2.type

/-- What a move leaves in its node. -/
structure Fits (s : System) (id : NetworkId) (n : Node) : Prop where
  networkId : n.manager.networkId = id
  table : ∀ peer conn, n.manager.findClient peer = some conn →
    (ends s.lines)[conn]? = some (id, peer)
  queued : ∀ e ∈ n.messages, IsJobType e.2.type

section Invariant

variable {s t : System} {id : NetworkId}

theorem wellFormed_start (matrix : Matrix) : WellFormed (.start matrix) where
  wired := ⟨by simp [System.start], by simp [System.start, ends]⟩
  networkId _ := rfl
  table _ _ _ h := by cases h
  queued _ _ h := by cases h

theorem WellFormed.fits (h : WellFormed s) (id : NetworkId) : Fits s id (s.nodes id) :=
  ⟨h.networkId id, h.table id, h.queued id⟩

theorem WellFormed.of_fits (hw : Wired s.lines) (h : ∀ id, Fits s id (s.nodes id)) :
    WellFormed s :=
  ⟨hw, fun id => (h id).networkId, fun id => (h id).table, fun id => (h id).queued⟩

/-- A step that only adds connections leaves a node's table as good as it was. -/
theorem Fits.mono {n : Node} (h : Fits s id n)
    (hends : ∀ (conn : Nat) (e : NetworkId × NetworkId), (ends s.lines)[conn]? = some e →
      (ends t.lines)[conn]? = some e) : Fits t id n :=
  ⟨h.networkId, fun peer conn hfind => hends conn _ (h.table peer conn hfind), h.queued⟩

theorem Fits.carried {n : Node} (h : Fits s id n) {lines : List Line}
    {p : Option Job.BytePacket} (hlines : Carried s.lines lines p) (peer : NetworkId) (conn : Nat)
    (hfind : n.manager.findClient peer = some conn) : (ends lines)[conn]? = some (id, peer) :=
  hlines.ends conn _ (h.table peer conn hfind)

theorem NodeMove.fits (h : WellFormed s) {a : Action} {p : Option Job.BytePacket}
    {r : Node × List Call} (hr : NodeMove s id a p r) : Fits s id r.1 := by
  obtain ⟨hid, htable, hqueued⟩ := h.fits id
  cases hr with
  | turn hr =>
    obtain ⟨hclients, hsame, hsuffix⟩ := Node.next_frame hr
    refine ⟨hsame.trans hid, ?_, fun e he => hqueued e (hsuffix.subset he)⟩
    intro peer conn hfind
    rw [Election.NetworkManager.findClient, hclients] at hfind
    exact htable peer conn hfind
  | @register conn peer hend =>
    have hframe := (s.nodes id).manager.receiverLoopStart_spec peer conn (isClient conn)
    refine ⟨?_, ?_, hqueued⟩
    · obtain ⟨clients, hclients, -, -⟩ := hframe
      rw [Node.elect, hclients]
      exact hid
    · intro k c hfind
      obtain hfind | ⟨rfl, rfl⟩ := (s.nodes id).manager.receiverLoopStart_find hfind
      · exact htable k c hfind
      · exact hend
  | @discard conn peer hend =>
    obtain ⟨hsame, hfind⟩ := (s.nodes id).manager.discardClient_frame peer conn
    exact ⟨hsame.trans hid, fun k c hk => htable k c (hfind k c hk), hqueued⟩
  | @receive conn count src m hsized =>
    obtain ⟨-, calls, hsame, -⟩ | ⟨msg, -, hsame⟩ | ⟨-, hjob, hsame⟩ :=
      (s.nodes id).onMessage_cases src m
    · rw [hsame]
      exact ⟨hid, htable, hqueued⟩
    · obtain ⟨hclients, hkept⟩ := (s.nodes id).manager.onMessage_frame src msg
      rw [hsame]
      refine ⟨hkept.trans hid, ?_, hqueued⟩
      intro k c hfind
      rw [Node.elect, Election.NetworkManager.findClient, hclients] at hfind
      exact htable k c hfind
    · rw [hsame]
      refine ⟨hid, htable, ?_⟩
      intro e he
      cases List.mem_append.mp he with
      | inl he => exact hqueued e he
      | inr he =>
        rw [List.mem_singleton.mp he]
        exact hjob

theorem commit_node_self (r : Node × List Call) : (s.commit id r).nodes id = r.1 :=
  Function.update_self ..

theorem commit_node_of_ne {x : NetworkId} (r : Node × List Call) (h : x ≠ id) :
    (s.commit id r).nodes x = s.nodes x := Function.update_of_ne h ..

theorem WellFormed.move (h : WellFormed s) {a : Action} (hmove : Move s a t) : WellFormed t := by
  cases hmove with
  | crash hup => exact ⟨h.wired, h.networkId, h.table, h.queued⟩
  | silent hlines =>
    exact .of_fits hlines.wired fun id => (h.fits id).mono hlines.ends
  | @node _ id p r lines hup hlines hr =>
    have hends : ∀ (conn : Nat) (e : NetworkId × NetworkId), (ends s.lines)[conn]? = some e →
        (ends (System.commit { s with lines := lines } id r).lines)[conn]? = some e := by
      intro conn e he
      have hsame : ends (System.commit { s with lines := lines } id r).lines = ends lines :=
        (foldl_submit lines r.2).1
      rw [hsame]
      exact hlines.ends conn e he
    refine .of_fits (hlines.wired.foldl_submit r.2) fun x => ?_
    obtain rfl | hne := eq_or_ne x id
    · rw [commit_node_self]
      exact (hr.fits h).mono hends
    · rw [commit_node_of_ne _ hne]
      exact (h.fits x).mono hends

theorem WellFormed.next (h : WellFormed s) {a : Action} (hok : s.Sound a)
    (hstep : s.next a = some t) : WellFormed t :=
  h.move (move_of_next h.wired hok hstep)

theorem WellFormed.of_run (h : WellFormed s) (hrun : Run System.next System.Sound s t) :
    WellFormed t :=
  hrun.invariant h fun _ _ _ h hok hstep => h.next hok hstep

/-- Every step of a sound run of the program is taken from a well-formed state. -/
theorem WellFormed.run {ok : System → Action → Prop} (hok : ∀ s a, ok s a → s.Sound a)
    (h : WellFormed s) (hrun : Run System.next ok s t) :
    Run System.next (fun s a => ok s a ∧ WellFormed s) s t :=
  hrun.under_invariant h fun t a _ h ha hstep => h.next (hok t a ha) hstep

end Invariant

section Calls

variable {lines : List Line} {id : NetworkId} {m : Election.NetworkManager}

/-- `SendMsg` puts at most its own packet on a line. -/
theorem packets_sendMsg (htable : ∀ peer conn, m.findClient peer = some conn →
      (ends lines)[conn]? = some (id, peer)) (destId : NetworkId) {msg : Wire.Message}
    (hnew : msg = .new msg.type msg.content) :
    ((Node.sendMsg m destId msg).filterMap (packetOf (ends lines))).Sublist
      [Job.BytePacket.mk id destId msg] := by
  rw [Node.sendMsg]
  split
  · exact List.nil_sublist _
  · rename_i conn hconn
    have hpacket : packetOf (ends lines) ⟨conn, msg.type, msg.content⟩ =
        some ⟨id, destId, msg⟩ := by
      rw [packetOf, htable destId conn hconn, Option.map_some, ← hnew]
    rw [List.filterMap_cons_some hpacket]
    exact List.Sublist.refl _

theorem packets_sends {Q : Type} (htable : ∀ peer conn, m.findClient peer = some conn →
      (ends lines)[conn]? = some (id, peer)) (destId : Q → NetworkId) {wire : Q → Wire.Message}
    (hnew : ∀ q, wire q = .new (wire q).type (wire q).content) (sends : List Q) :
    ((sends.flatMap fun q => Node.sendMsg m (destId q) (wire q)).filterMap
      (packetOf (ends lines))).Sublist
      (sends.map fun q => Job.BytePacket.mk id (destId q) (wire q)) := by
  induction sends with
  | nil => exact List.Sublist.refl _
  | cons q sends ih =>
    rw [List.flatMap_cons, List.filterMap_append, List.map_cons]
    exact (packets_sendMsg htable (destId q) (hnew q)).append ih

theorem orders_build_new (orders : Orders) (msg : Job.Message) :
    orders.build msg = .new (orders.build msg).type (orders.build msg).content := by
  cases msg <;> rfl

theorem isJobType_build (orders : Orders) (msg : Job.Message) :
    IsJobType (orders.build msg).type := by
  cases msg with
  | stackAssignment assign resent => exact .inl rfl
  | assignmentFinished best => exact .inr (.inl rfl)
  | divideWith id => exact .inr (.inr (.inl rfl))
  | terminate => exact .inr (.inr (.inr rfl))

theorem not_isJobType_build (msg : Election.Message) : ¬ IsJobType msg.build.type := by
  cases msg with
  | election electId => exact (by decide : ¬ IsJobType Election.Message.messageTypeElection)
  | elected electId => exact (by decide : ¬ IsJobType Election.Message.messageTypeElected)
  | knownLeader electId => exact (by decide : ¬ IsJobType Election.Message.messageTypeKnownLeader)

/-- What a handler of the election calls for is no message of the computation. -/
theorem not_isJobType_elect {n : Node} {wire : Election.Message → Wire.Message}
    (hwire : ∀ msg, ¬ IsJobType (wire msg).type)
    (r : Election.NetworkManager × List Election.Send) :
    ∀ call ∈ (n.elect wire r).2, ¬ IsJobType call.type := by
  intro call hcall
  obtain ⟨q, -, hcall⟩ := List.mem_flatMap.mp hcall
  rw [Node.type_of_mem_sendMsg hcall]
  exact hwire q.msg

/-- `ComputeStep` sends nothing but results. -/
theorem encodable_of_computeStep {c : Job.Computation} {net : Job.Net}
    {r : Job.Computation × List Job.Send} (h : c.computeStep net = some r) :
    ∀ q ∈ r.2, q.msg.Encodable := by
  rw [Job.Computation.computeStep] at h
  split at h
  · cases h
  · dsimp only at h
    split at h
    · obtain ⟨c', -, rfl⟩ := Option.map_eq_some_iff.mp h
      intro q hq
      rw [(Job.Net.mem_broadcastMsg.mp hq).2]
      trivial
    · cases h
      simp

theorem type_of_packetOf {call : Call} {p : Job.BytePacket}
    (h : packetOf (ends lines) call = some p) : p.msg.type = call.type := by
  obtain ⟨e, -, rfl⟩ := Option.map_eq_some_iff.mp h
  rfl

end Calls

theorem traffic_commit (s : System) (lines : List Line) (id : NetworkId) (r : Node × List Call) :
    traffic (System.commit { s with lines := lines } id r).lines =
      traffic lines + ↑(r.2.filterMap (packetOf (ends lines))) := (foldl_submit lines r.2).2

end ParLib.Program
