import ParLib.NetworkId

/-!
# One node of the election protocol

The handlers return the node's next state and what it sends. The clock is an
input: `step` is told whether its two time-outs have passed.
-/

namespace ParLib.Election

set_option autoImplicit false

inductive Message
  | election (electId : NetworkId)
  | elected (electId : NetworkId)
  | knownLeader (electId : NetworkId)
  deriving DecidableEq, Repr

structure Send where
  destId : NetworkId
  msg : Message
  deriving DecidableEq, Repr

/-- `clientConnections` maps the id of a peer to the number of the registered connection. -/
structure NetworkManager where
  networkId : NetworkId
  clientConnections : AList fun _ : NetworkId => Nat
  discovered : Bool
  lostLeader : Bool
  leaderId : NetworkId
  leader : Bool
  electionParticipant : Bool

namespace NetworkManager

def new (networkId : NetworkId) : NetworkManager where
  networkId := networkId
  clientConnections := ∅
  discovered := false
  lostLeader := false
  leaderId := []
  leader := false
  electionParticipant := false

def findClient (m : NetworkManager) (networkId : NetworkId) : Option Nat :=
  m.clientConnections.lookup networkId

def sendMsg (m : NetworkManager) (msg : Message) (destId : NetworkId) : List Send :=
  match m.findClient destId with
  | none => []
  | some _ => [⟨destId, msg⟩]

/-- One turn of the loop of `getNextId`, on the pair (`leastLargerThan`, `least`). -/
def nextIdTurn (prev : NetworkId) (acc : NetworkId × NetworkId) (otherId : NetworkId) :
    NetworkId × NetworkId :=
  (if (otherId < acc.1 ∨ acc.1 = []) ∧ otherId > prev then otherId else acc.1,
   if (acc.2 < otherId ∨ acc.2 = []) ∧ otherId < prev then otherId else acc.2)

def getNextId (m : NetworkManager) (prev : NetworkId) : NetworkId :=
  let acc := m.clientConnections.keys.foldl (nextIdTurn prev) ([], [])
  if acc.1 ≠ [] then acc.1 else acc.2

def onElectionMessage (m : NetworkManager) (senderId electId : NetworkId) :
    NetworkManager × List Send :=
  if m.leaderId ≠ [] then
    (m, m.sendMsg (.knownLeader m.leaderId) senderId)
  else if electId > m.networkId then
    (m, m.sendMsg (.election electId) (m.getNextId m.networkId))
  else if electId < m.networkId ∧ m.electionParticipant = false then
    (m, m.sendMsg (.election m.networkId) (m.getNextId m.networkId))
  else if electId = m.networkId then
    ({ m with leaderId := m.networkId, leader := true, electionParticipant := false },
      m.sendMsg (.elected m.networkId) (m.getNextId m.networkId))
  else (m, [])

/-- The common body of the ELECTED and KNOWN_LEADER handlers. -/
def adoptLeader (m : NetworkManager) (electId : NetworkId) : NetworkManager :=
  if electId = m.networkId then m
  else { m with electionParticipant := false, leaderId := electId, leader := false }

def onElectedMessage (m : NetworkManager) (electId : NetworkId) : NetworkManager :=
  m.adoptLeader electId

def onKnownLeaderMessage (m : NetworkManager) (electId : NetworkId) : NetworkManager :=
  m.adoptLeader electId

def onMessage (m : NetworkManager) (senderId : NetworkId) : Message → NetworkManager × List Send
  | .election electId => m.onElectionMessage senderId electId
  | .elected electId => (m.onElectedMessage electId, [])
  | .knownLeader electId => (m.onKnownLeaderMessage electId, [])

def selectsItself (m : NetworkManager) (electionTimeOut tenSeconds : Bool) : Bool :=
  m.discovered && m.leaderId.isEmpty && electionTimeOut && (m.getNextId m.networkId).isEmpty &&
    tenSeconds

/-- The first half of `step`, the election timer. -/
def stepElection (m : NetworkManager) (electionTimeOut tenSeconds : Bool) :
    NetworkManager × List Send :=
  if m.discovered = true ∧ m.leaderId = [] ∧ electionTimeOut = true then
    let destId := m.getNextId m.networkId
    if destId = [] then
      if tenSeconds then ({ m with leader := true, leaderId := m.networkId }, []) else (m, [])
    else (m, m.sendMsg (.election m.networkId) destId)
  else (m, [])

/-- The second half of `step`, which forgets a lost leader. -/
def stepLostLeader (m : NetworkManager) : NetworkManager :=
  if m.lostLeader then
    match m.findClient m.leaderId with
    | none => { m with leader := false, lostLeader := false, leaderId := [] }
    | some _ => m
  else m

def step (m : NetworkManager) (electionTimeOut tenSeconds : Bool) : NetworkManager × List Send :=
  ((m.stepElection electionTimeOut tenSeconds).1.stepLostLeader,
    (m.stepElection electionTimeOut tenSeconds).2)

/-- The flag is the returned one: whether the connection is registered now. -/
def addOrDiscardClient (m : NetworkManager) (networkId : NetworkId) (conn : Nat)
    (isClient : Bool) : Bool × NetworkManager :=
  if networkId = m.networkId then (false, m)
  else match m.findClient networkId with
    | none => (true, { m with clientConnections := m.clientConnections.insert networkId conn })
    | some _ =>
      if decide (networkId < m.networkId) = isClient then
        (true, { m with clientConnections := m.clientConnections.insert networkId conn })
      else (false, m)

def discardClient (m : NetworkManager) (networkId : NetworkId) (conn : Nat) : NetworkManager :=
  match m.findClient networkId with
  | none => m
  | some registered =>
    let m' := if registered = conn then
      { m with clientConnections := m.clientConnections.erase networkId } else m
    if networkId = m.leaderId then { m' with lostLeader := true } else m'

/-- The part of `ReceiverLoop` between the handshake and the first message. -/
def receiverLoopStart (m : NetworkManager) (networkId : NetworkId) (conn : Nat)
    (isClient : Bool) : NetworkManager × List Send :=
  match m.addOrDiscardClient networkId conn isClient with
  | (false, m') => (m', [])
  | (true, m') => (m', if m'.leaderId ≠ [] then [⟨networkId, .knownLeader m'.leaderId⟩] else [])

theorem mem_sendMsg {m : NetworkManager} {msg : Message} {destId : NetworkId} {p : Send} :
    p ∈ m.sendMsg msg destId ↔ destId ∈ m.clientConnections ∧ p = ⟨destId, msg⟩ := by
  rw [sendMsg, findClient]
  split
  · rename_i h
    simp [AList.lookup_eq_none.mp h]
  · rename_i h
    have hmem : destId ∈ m.clientConnections := AList.lookup_isSome.mp (by simp [h])
    simp [hmem]

theorem sendMsg_of_mem {m : NetworkManager} {destId : NetworkId} (msg : Message)
    (h : destId ∈ m.clientConnections) : m.sendMsg msg destId = [⟨destId, msg⟩] := by
  obtain ⟨conn, hconn⟩ := Option.isSome_iff_exists.mp (AList.lookup_isSome.mpr h)
  rw [sendMsg, findClient, hconn]

/-- A running candidate, with the empty id for "none yet", over any iteration order. -/
theorem foldl_candidate (better : NetworkId → NetworkId → Prop) (eligible : NetworkId → Prop)
    [DecidableRel better] [DecidablePred eligible] (hirrefl : ∀ k, ¬ better k k)
    (htrans : ∀ i j k, better i j → better j k → better i k) (ids : List NetworkId)
    (hne : [] ∉ ids) :
    let best := ids.foldl
      (fun best k => if (better k best ∨ best = []) ∧ eligible k then k else best) []
    (best = [] ∧ ∀ k ∈ ids, ¬ eligible k) ∨
      (best ∈ ids ∧ eligible best ∧ ∀ k ∈ ids, eligible k → ¬ better k best) := by
  induction ids using List.reverseRecOn with
  | nil => simp
  | append_singleton ids k ih =>
    have hold := ih fun h => hne (by simp [h])
    simp only [List.foldl_append, List.foldl_cons, List.foldl_nil, List.mem_append,
      List.mem_singleton, or_imp, forall_and, forall_eq]
    generalize ids.foldl
      (fun best k => if (better k best ∨ best = []) ∧ eligible k then k else best) [] = best
      at hold ⊢
    split
    · rename_i hturn
      refine .inr ⟨.inr rfl, hturn.2, ?_, fun _ => hirrefl k⟩
      intro j hj hje hjk
      rcases hold with ⟨_, hnone⟩ | ⟨hmem, _, hbest⟩
      · exact hnone j hj hje
      · have hbest' : best ≠ [] := by
          rintro rfl
          exact hne (by simp [hmem])
        exact hbest j hj hje (htrans j k best hjk (hturn.1.resolve_right hbest'))
    · rename_i hturn
      rcases hold with ⟨hnil, hnone⟩ | ⟨hmem, hel, hbest⟩
      · exact .inl ⟨hnil, hnone, fun hk => hturn ⟨.inr hnil, hk⟩⟩
      · exact .inr ⟨.inl hmem, hel, hbest, fun hk hlt => hturn ⟨.inl hlt, hk⟩⟩

theorem foldl_nextIdTurn (prev : NetworkId) (ids : List NetworkId) (acc : NetworkId × NetworkId) :
    ids.foldl (nextIdTurn prev) acc =
      (ids.foldl (fun l k => if (k < l ∨ l = []) ∧ k > prev then k else l) acc.1,
        ids.foldl (fun l k => if (l < k ∨ l = []) ∧ k < prev then k else l) acc.2) := by
  induction ids generalizing acc with
  | nil => rfl
  | cons k ids ih => exact ih (nextIdTurn prev acc k)

/-- `getNextId` is the least larger id, else the greatest smaller one, else empty. -/
theorem getNextId_spec (m : NetworkManager) (prev : NetworkId) (hne : [] ∉ m.clientConnections) :
    (m.getNextId prev ∈ m.clientConnections ∧ prev < m.getNextId prev ∧
      ∀ k ∈ m.clientConnections, prev < k → m.getNextId prev ≤ k) ∨
    ((∀ k ∈ m.clientConnections, ¬ prev < k) ∧
      ((m.getNextId prev = [] ∧ ∀ k ∈ m.clientConnections, ¬ k < prev) ∨
        (m.getNextId prev ∈ m.clientConnections ∧ m.getNextId prev < prev ∧
          ∀ k ∈ m.clientConnections, k < prev → k ≤ m.getNextId prev))) := by
  have hlarger := foldl_candidate (fun k l => k < l) (fun k => k > prev) (fun k => lt_irrefl k)
    (fun _ _ _ => lt_trans) m.clientConnections.keys hne
  have hleast := foldl_candidate (fun k l => l < k) (fun k => k < prev) (fun k => lt_irrefl k)
    (fun _ _ _ h h' => lt_trans h' h) m.clientConnections.keys hne
  simp only [getNextId, foldl_nextIdTurn, AList.mem_keys, not_lt] at hlarger hleast ⊢
  rcases hlarger with ⟨hnil, hnone⟩ | ⟨hmem, hgt, hmin⟩
  · right
    rw [if_neg (by simpa using hnil)]
    exact ⟨hnone, hleast⟩
  · left
    have hne' : m.clientConnections.keys.foldl
        (fun l k => if (k < l ∨ l = []) ∧ k > prev then k else l) [] ≠ [] := by
      intro h
      rw [h] at hmem
      exact hne hmem
    rw [if_pos hne']
    exact ⟨hmem, hgt, hmin⟩

theorem receiverLoopStart_spec (m : NetworkManager) (peer : NetworkId) (conn : Nat)
    (isClient : Bool) :
    ∃ table, (m.receiverLoopStart peer conn isClient).1 =
        { m with clientConnections := table } ∧
      (∀ y ∈ m.clientConnections, y ∈ table) ∧
      ∀ q ∈ (m.receiverLoopStart peer conn isClient).2,
        q.msg = .knownLeader m.leaderId ∧ m.leaderId ≠ [] := by
  have hinsert : ∀ y ∈ m.clientConnections, y ∈ m.clientConnections.insert peer conn :=
    fun y hy => (AList.mem_insert _).mpr (.inr hy)
  have hkeep : ∀ y ∈ m.clientConnections, y ∈ m.clientConnections := fun _ hy => hy
  have hannounce : ∀ q, q ∈ (if m.leaderId ≠ [] then
      [(⟨peer, .knownLeader m.leaderId⟩ : Send)] else []) →
      q.msg = .knownLeader m.leaderId ∧ m.leaderId ≠ [] := by
    intro q hq
    split at hq
    · rename_i hknown
      exact ⟨List.mem_singleton.mp hq ▸ rfl, hknown⟩
    · cases hq
  rw [receiverLoopStart, addOrDiscardClient]
  by_cases hself : peer = m.networkId
  · rw [if_pos hself]
    exact ⟨_, rfl, hkeep, by simp⟩
  · rw [if_neg hself]
    cases m.findClient peer with
    | none => exact ⟨_, rfl, hinsert, hannounce⟩
    | some registered =>
      dsimp only
      cases hdir : decide (decide (peer < m.networkId) = isClient) with
      | true =>
        rw [if_pos (of_decide_eq_true hdir)]
        exact ⟨_, rfl, hinsert, hannounce⟩
      | false =>
        rw [if_neg (of_decide_eq_false hdir)]
        exact ⟨_, rfl, hkeep, by simp⟩

theorem stepLostLeader_of_not_lost {m : NetworkManager} (h : m.lostLeader = false) :
    m.stepLostLeader = m := by
  rw [stepLostLeader, h]
  rfl

theorem stepElection_of_selectsItself {m : NetworkManager} {electionTimeOut tenSeconds : Bool}
    (h : m.selectsItself electionTimeOut tenSeconds = true) :
    m.leaderId = [] ∧ m.stepElection electionTimeOut tenSeconds =
      ({ m with leader := true, leaderId := m.networkId }, []) := by
  simp only [selectsItself, Bool.and_eq_true, List.isEmpty_iff] at h
  obtain ⟨⟨⟨⟨hdiscovered, hleader⟩, htimer⟩, hnext⟩, hten⟩ := h
  simp [stepElection, hdiscovered, hleader, htimer, hnext, hten]

theorem stepElection_of_not_selectsItself {m : NetworkManager}
    {electionTimeOut tenSeconds : Bool}
    (h : m.selectsItself electionTimeOut tenSeconds = false) :
    (m.stepElection electionTimeOut tenSeconds).1 = m ∧
      ∀ q ∈ (m.stepElection electionTimeOut tenSeconds).2, q.msg = .election m.networkId := by
  have hsent : ∀ destId, ∀ q ∈ m.sendMsg (.election m.networkId) destId,
      q.msg = .election m.networkId := by
    intro destId q hq
    obtain ⟨-, rfl⟩ := mem_sendMsg.mp hq
    rfl
  rw [stepElection]
  split
  · rename_i htimer
    obtain ⟨hdiscovered, hleader, htimeOut⟩ := htimer
    dsimp only
    split_ifs with hnext hten
    · simp [selectsItself, hdiscovered, hleader, htimeOut, hnext, hten] at h
    · exact ⟨rfl, by simp⟩
    · exact ⟨rfl, hsent _⟩
  · exact ⟨rfl, by simp⟩

theorem onElectionMessage_cases (m : NetworkManager) (senderId electId : NetworkId) :
    (m.leaderId ≠ [] ∧ (m.onElectionMessage senderId electId).1 = m ∧
      ∀ q ∈ (m.onElectionMessage senderId electId).2, q.msg = .knownLeader m.leaderId) ∨
    (m.leaderId = [] ∧ electId ≠ m.networkId ∧ (m.onElectionMessage senderId electId).1 = m ∧
      ∀ q ∈ (m.onElectionMessage senderId electId).2, ∃ e, q.msg = .election e) ∨
    (m.leaderId = [] ∧ electId = m.networkId ∧ (m.onElectionMessage senderId electId).1 =
        { m with leaderId := m.networkId, leader := true, electionParticipant := false } ∧
      ∀ q ∈ (m.onElectionMessage senderId electId).2, q.msg = .elected m.networkId) := by
  have hsent : ∀ msg destId, ∀ q ∈ m.sendMsg msg destId, q.msg = msg := by
    intro msg destId q hq
    obtain ⟨-, rfl⟩ := mem_sendMsg.mp hq
    rfl
  rw [onElectionMessage]
  split_ifs with hknown hlarger hsmaller hown
  · exact .inl ⟨hknown, rfl, hsent _ _⟩
  · refine .inr (.inl ⟨not_not.mp hknown, ?_, rfl, fun q hq => ⟨electId, hsent _ _ q hq⟩⟩)
    exact (show m.networkId < electId from hlarger).ne'
  · refine .inr (.inl ⟨not_not.mp hknown, hsmaller.1.ne, rfl, fun q hq => ⟨_, hsent _ _ q hq⟩⟩)
  · exact .inr (.inr ⟨not_not.mp hknown, hown, rfl, hsent _ _⟩)
  · exact .inr (.inl ⟨not_not.mp hknown, hown, rfl, by simp⟩)

theorem onElectionMessage_of_known {m : NetworkManager} (senderId electId : NetworkId)
    (hknown : m.leaderId ≠ []) (h : senderId ∈ m.clientConnections) :
    m.onElectionMessage senderId electId = (m, [⟨senderId, .knownLeader m.leaderId⟩]) := by
  rw [onElectionMessage, if_pos hknown, sendMsg_of_mem _ h]

theorem onElectionMessage_of_larger {m : NetworkManager} (senderId : NetworkId)
    {electId : NetworkId} (hunknown : m.leaderId = []) (hlt : m.networkId < electId)
    (h : m.getNextId m.networkId ∈ m.clientConnections) :
    m.onElectionMessage senderId electId =
      (m, [⟨m.getNextId m.networkId, .election electId⟩]) := by
  rw [onElectionMessage, if_neg (not_not.mpr hunknown), if_pos hlt, sendMsg_of_mem _ h]

theorem onElectionMessage_of_own {m : NetworkManager} (senderId : NetworkId)
    (hunknown : m.leaderId = []) :
    (m.onElectionMessage senderId m.networkId).1.leaderId = m.networkId := by
  simp [onElectionMessage, hunknown]

theorem adoptLeader_leaderId {m : NetworkManager} {electId : NetworkId}
    (h : electId ≠ m.networkId) : (m.adoptLeader electId).leaderId = electId := by
  rw [adoptLeader, if_neg h]

end NetworkManager

end ParLib.Election
