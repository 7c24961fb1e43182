import ParLib.Election.SimultaneousOpen

/-!
# The connections of one node and the threads that use them

A connection has a receiver thread, which at its end hands the connection over
to be cleaned up by whichever thread comes next. Cleaning up is done under
`_finishingLock` and takes the connection out of the table; whoever goes
through the table holds `_lock`. A connection is destroyed with its last owner,
and its destructor asks for `_lock` as well.
-/

namespace ParLib.Election

set_option autoImplicit false

open Foundations

/-- Up to `exited` it is the receiver thread that is there, from then on `CleanUp`. -/
inductive Stage
  | fresh
  | handshake
  | shaken
  | receiving
  | leaving
  | finishing
  | exited
  | closed
  | discarded
  | cleaned
  | destroyed
  deriving DecidableEq, Repr

namespace Stage

def rank : Stage → Nat
  | fresh => 0
  | handshake => 1
  | shaken => 2
  | receiving => 3
  | leaving => 4
  | finishing => 5
  | exited => 6
  | closed => 7
  | discarded => 8
  | cleaned => 9
  | destroyed => 10

end Stage

/-- The empty id is that of a peer whose handshake message has not come. -/
structure ClientConnection where
  networkId : NetworkId
  isClient : Bool
  stage : Stage
  deriving DecidableEq, Repr

/-- Where the holder of `_finishingLock` is in `CleanFinishingClients`. -/
inductive Cleaning
  | loop (todo : List Nat)
  | clearing
  deriving DecidableEq, Repr

/-- `sweeping` is what the holder of `_lock` has still to send to, and `held` what `FindClient`
has returned to threads that have not sent on it yet. -/
structure ConnectionTable where
  manager : NetworkManager
  conns : Nat → ClientConnection
  finishingClients : List Nat
  cleaning : Option Cleaning
  sweeping : Option (List Nat)
  held : List Nat

inductive ConnectionAction
  | connect (k : Nat) (isClient : Bool)
  | handshake (k : Nat) (networkId : NetworkId)
  | failHandshake (k : Nat) (networkId : NetworkId)
  | addOrDiscard (k : Nat)
  | leaveLoop (k : Nat)
  | registerFinishing (k : Nat)
  | exit (k : Nat)
  | cleanFinishing
  | close
  | discard
  | dropSocket
  | endLoop
  | clear
  | unlockFinishing
  | sweep
  | sweepNext
  | endSweep
  | findClient (networkId : NetworkId)
  | sendMsg (k : Nat)
  deriving DecidableEq, Repr

namespace ConnectionTable

def setConn (s : ConnectionTable) (k : Nat) (conn : ClientConnection) : ConnectionTable :=
  { s with conns := Function.update s.conns k conn }

def setStage (s : ConnectionTable) (k : Nat) (stage : Stage) : ConnectionTable :=
  s.setConn k { s.conns k with stage := stage }

def stage (s : ConnectionTable) (k : Nat) : Stage := (s.conns k).stage

def rank (s : ConnectionTable) (k : Nat) : Nat := (s.stage k).rank

/-- `_socket` is not the null pointer. -/
def HasSocket (s : ConnectionTable) (k : Nat) : Prop := s.rank k < 9

instance (s : ConnectionTable) (k : Nat) : Decidable (s.HasSocket k) :=
  inferInstanceAs (Decidable (_ < _))

/-- The call of `DiscardClient` in `CleanUp`. -/
def discardClient (s : ConnectionTable) (k : Nat) : ConnectionTable :=
  if (s.conns k).networkId = [] then s
  else { s with manager := s.manager.discardClient (s.conns k).networkId k }

/-- The destructor cleans up once more, and waits for `_lock` to discard. -/
def destroy (s : ConnectionTable) (k : Nat) : Option ConnectionTable :=
  if s.sweeping = none then some ((s.discardClient k).setStage k .destroyed) else none

/-- Without an id the program ends. -/
def addOrDiscardClient (s : ConnectionTable) (k : Nat) : Option ConnectionTable :=
  let conn := s.conns k
  if s.sweeping = none ∧ conn.networkId ≠ [] then
    let r := s.manager.addOrDiscardClient conn.networkId k conn.isClient
    some ({ s with manager := r.2 }.setStage k (if r.1 then .receiving else .leaving))
  else none

/-- The turns of the loop in `CleanFinishingClients` and the statements of `CleanUp` in them. -/
def stepCleaning (s : ConnectionTable) : ConnectionAction → Option ConnectionTable
  | .close =>
    match s.cleaning with
    | some (.loop (k :: _)) => if s.stage k = .exited then some (s.setStage k .closed) else none
    | _ => none
  | .discard =>
    match s.cleaning with
    | some (.loop (k :: _)) =>
      if s.stage k = .closed ∧ s.sweeping = none then
        some ((s.discardClient k).setStage k .discarded)
      else none
    | _ => none
  | .dropSocket =>
    match s.cleaning with
    | some (.loop (k :: rest)) =>
      if s.stage k = .discarded then
        some ({ s with cleaning := some (.loop rest) }.setStage k .cleaned)
      else none
    | _ => none
  | .endLoop =>
    if s.cleaning = some (.loop []) then some { s with cleaning := some .clearing } else none
  | .clear =>
    match s.cleaning, s.finishingClients with
    | some .clearing, k :: rest =>
      if k ∈ s.held then some { s with finishingClients := rest }
      else { s with finishingClients := rest }.destroy k
    | _, _ => none
  | .unlockFinishing =>
    if s.cleaning = some .clearing ∧ s.finishingClients = [] then some { s with cleaning := none }
    else none
  | _ => none

def step (s : ConnectionTable) : ConnectionAction → Option ConnectionTable
  | .connect k isClient =>
    if s.stage k = .fresh then some (s.setConn k ⟨[], isClient, .handshake⟩) else none
  | .handshake k networkId =>
    if s.stage k = .handshake then
      some (s.setConn k { s.conns k with networkId := networkId, stage := .shaken })
    else none
  | .failHandshake k networkId =>
    if s.stage k = .handshake then
      some (s.setConn k { s.conns k with networkId := networkId, stage := .leaving })
    else none
  | .addOrDiscard k => if s.stage k = .shaken then s.addOrDiscardClient k else none
  | .leaveLoop k => if s.stage k = .receiving then some (s.setStage k .leaving) else none
  | .registerFinishing k =>
    if s.stage k = .leaving ∧ s.cleaning = none then
      some ({ s with finishingClients := s.finishingClients ++ [k] }.setStage k .finishing)
    else none
  | .exit k => if s.stage k = .finishing then some (s.setStage k .exited) else none
  | .cleanFinishing =>
    if s.cleaning = none then some { s with cleaning := some (.loop s.finishingClients) } else none
  | .sweep =>
    if s.sweeping = none then
      some { s with sweeping := some (s.manager.clientConnections.entries.map (·.2)) }
    else none
  | .sweepNext =>
    match s.sweeping with
    | some (_ :: rest) => some { s with sweeping := some rest }
    | _ => none
  | .endSweep => if s.sweeping = some [] then some { s with sweeping := none } else none
  | .findClient networkId =>
    match s.sweeping, s.manager.findClient networkId with
    | none, some k => some { s with held := k :: s.held }
    | _, _ => none
  | .sendMsg k =>
    if k ∈ s.held then
      let s' := { s with held := s.held.erase k }
      if s.stage k = .cleaned ∧ k ∉ s'.held ∧ k ∉ s.finishingClients then s'.destroy k else some s'
    else none
  | a => s.stepCleaning a

/-- Nobody has connected yet. -/
structure Start (s : ConnectionTable) : Prop where
  table : s.manager.clientConnections = ∅
  conns : ∀ k, s.stage k = .fresh
  finishingClients : s.finishingClients = []
  cleaning : s.cleaning = none
  sweeping : s.sweeping = none
  held : s.held = []

variable {s t : ConnectionTable} {a : ConnectionAction} {k j : Nat}

section Fields

@[simp]
theorem manager_setConn (s : ConnectionTable) (k : Nat) (conn : ClientConnection) :
    (s.setConn k conn).manager = s.manager := rfl

@[simp]
theorem finishingClients_setConn (s : ConnectionTable) (k : Nat) (conn : ClientConnection) :
    (s.setConn k conn).finishingClients = s.finishingClients := rfl

@[simp]
theorem cleaning_setConn (s : ConnectionTable) (k : Nat) (conn : ClientConnection) :
    (s.setConn k conn).cleaning = s.cleaning := rfl

@[simp]
theorem sweeping_setConn (s : ConnectionTable) (k : Nat) (conn : ClientConnection) :
    (s.setConn k conn).sweeping = s.sweeping := rfl

@[simp]
theorem held_setConn (s : ConnectionTable) (k : Nat) (conn : ClientConnection) :
    (s.setConn k conn).held = s.held := rfl

theorem conns_setConn (s : ConnectionTable) (k j : Nat) (conn : ClientConnection) :
    (s.setConn k conn).conns j = if j = k then conn else s.conns j :=
  Function.update_apply s.conns k conn j

theorem rank_setConn (s : ConnectionTable) (k j : Nat) (conn : ClientConnection) :
    (s.setConn k conn).rank j = if j = k then conn.stage.rank else s.rank j := by
  rw [rank, stage, conns_setConn]
  split <;> rfl

theorem rank_setStage (s : ConnectionTable) (k j : Nat) (stage : Stage) :
    (s.setStage k stage).rank j = if j = k then stage.rank else s.rank j :=
  rank_setConn s k j _

theorem networkId_setStage (s : ConnectionTable) (k j : Nat) (stage : Stage) :
    ((s.setStage k stage).conns j).networkId = (s.conns j).networkId := by
  rw [setStage, conns_setConn]
  split
  · rename_i h
    rw [h]
  · rfl

@[simp]
theorem cleaning_setStage (s : ConnectionTable) (k : Nat) (stage : Stage) :
    (s.setStage k stage).cleaning = s.cleaning := rfl

theorem rank_of_stage {stage : Stage} (h : s.stage k = stage) : s.rank k = stage.rank := by
  rw [rank, h]

/-- `DiscardClient` touches the node's table and flags only. -/
theorem discardClient_eq (s : ConnectionTable) (k : Nat) :
    s.discardClient k = { s with manager := (s.discardClient k).manager } := by
  rw [discardClient]
  split <;> rfl

end Fields

/-- Registered connections are between the first message and the join, the list holds those whose
thread has ended, and it is worked through from its front. -/
structure Regular (s : ConnectionTable) : Prop where
  table : ∀ id k, s.manager.findClient id = some k →
    (s.conns k).networkId = id ∧ id ≠ [] ∧ 3 ≤ s.rank k ∧ s.rank k ≤ 7
  nodup : s.finishingClients.Nodup
  listed : ∀ k, 5 ≤ s.rank k → s.rank k ≤ 8 → k ∈ s.finishingClients
  finishing : ∀ k ∈ s.finishingClients, 5 ≤ s.rank k ∧ s.rank k ≤ 9
  idle : s.cleaning = none → ∀ k ∈ s.finishingClients, s.rank k ≤ 6
  loop : ∀ todo, s.cleaning = some (.loop todo) → ∃ done, s.finishingClients = done ++ todo ∧
    (∀ k ∈ done, s.rank k = 9) ∧ (∀ k ∈ todo, s.rank k ≤ 8) ∧ ∀ k ∈ todo.tail, s.rank k ≤ 6
  clearing : s.cleaning = some .clearing → ∀ k ∈ s.finishingClients, s.rank k = 9
  sweeping : ∀ todo, s.sweeping = some todo → ∀ k ∈ todo, ∃ id, s.manager.findClient id = some k
  held : ∀ k ∈ s.held, 3 ≤ s.rank k ∧ s.rank k ≤ 9

theorem Start.regular (h : s.Start) : s.Regular := by
  have hrank : ∀ k, s.rank k = 0 := fun k => rank_of_stage (h.conns k)
  refine ⟨?_, ?_, ?_, ?_, ?_, ?_, ?_, ?_, ?_⟩
  · intro id k hfind
    simp [NetworkManager.findClient, h.table] at hfind
  · simp [h.finishingClients]
  · intro k hk
    have hzero := hrank k
    omega
  · simp [h.finishingClients]
  · simp [h.finishingClients]
  · simp [h.cleaning]
  · simp [h.cleaning]
  · simp [h.sweeping]
  · simp [h.held]

/-- A connection that is not in the list, and does not get there. -/
theorem Regular.setConn (hs : s.Regular) {conn : ClientConnection} (hlist : k ∉ s.finishingClients)
    (hnext : conn.stage.rank ≤ 4 ∨ 9 ≤ conn.stage.rank)
    (htable : ∀ id, s.manager.findClient id = some k →
      conn.networkId = (s.conns k).networkId ∧ 3 ≤ conn.stage.rank ∧ conn.stage.rank ≤ 7)
    (hheld : k ∈ s.held → 3 ≤ conn.stage.rank ∧ conn.stage.rank ≤ 9) :
    (s.setConn k conn).Regular := by
  have hin : ∀ j ∈ s.finishingClients, (s.setConn k conn).rank j = s.rank j := by
    intro j hj
    rw [rank_setConn, if_neg]
    rintro rfl
    exact hlist hj
  refine ⟨?_, hs.nodup, ?_, ?_, ?_, ?_, ?_, hs.sweeping, ?_⟩
  · intro id j hfind
    obtain ⟨hid, hne, hlow, hhigh⟩ := hs.table id j hfind
    rw [rank_setConn, conns_setConn]
    split
    · rename_i hjk
      subst hjk
      obtain ⟨hsame, hstage⟩ := htable id hfind
      exact ⟨hsame.trans hid, hne, hstage⟩
    · exact ⟨hid, hne, hlow, hhigh⟩
  · intro j hlow hhigh
    rw [rank_setConn] at hlow hhigh
    split at hlow
    · rename_i hjk
      rw [if_pos hjk] at hhigh
      omega
    · rename_i hjk
      rw [if_neg hjk] at hhigh
      exact hs.listed j hlow hhigh
  · intro j hj
    rw [hin j hj]
    exact hs.finishing j hj
  · intro hnone j hj
    rw [hin j hj]
    exact hs.idle hnone j hj
  · intro todo htodo
    obtain ⟨done, hsplit, hdone, hall, htail⟩ := hs.loop todo htodo
    have hmem : ∀ j ∈ todo, (s.setConn k conn).rank j = s.rank j :=
      fun j hj => hin j (hsplit ▸ List.mem_append_right _ hj)
    refine ⟨done, hsplit, ?_, ?_, ?_⟩
    · intro j hj
      rw [hin j (hsplit ▸ List.mem_append_left _ hj)]
      exact hdone j hj
    · intro j hj
      rw [hmem j hj]
      exact hall j hj
    · intro j hj
      rw [hmem j (List.mem_of_mem_tail hj)]
      exact htail j hj
  · intro hclearing j hj
    rw [hin j hj]
    exact hs.clearing hclearing j hj
  · intro j hj
    rw [rank_setConn]
    split
    · rename_i hjk
      exact hheld (hjk ▸ hj)
    · exact hs.held j hj

/-- A connection with a receiver thread, which goes on but does not hand over yet. -/
theorem Regular.setThread (hs : s.Regular) {conn : ClientConnection} (hrank : s.rank k ≤ 4)
    (hnext : conn.stage.rank ≤ 4)
    (hregistered : 3 ≤ s.rank k → conn.networkId = (s.conns k).networkId ∧ 3 ≤ conn.stage.rank) :
    (s.setConn k conn).Regular := by
  apply hs.setConn
  · intro hlist
    have hfive := (hs.finishing k hlist).1
    omega
  · exact .inl hnext
  · intro id hfind
    obtain ⟨hsame, hthree⟩ := hregistered (hs.table id k hfind).2.2.1
    exact ⟨hsame, hthree, by omega⟩
  · intro hheld
    have hthree := (hregistered (hs.held k hheld).1).2
    omega

/-- A connection in the list, whose thread ends or whose turn it is to be cleaned up. -/
theorem Regular.setStage (hs : s.Regular) {stage : Stage}
    (hrank : 5 ≤ s.rank k ∧ s.rank k ≤ 8) (hnext : 5 ≤ stage.rank ∧ stage.rank ≤ 8)
    (htable : ∀ id, s.manager.findClient id = some k → stage.rank ≤ 7)
    (hturn : stage.rank ≤ 6 ∨ ∃ rest, s.cleaning = some (.loop (k :: rest))) :
    (s.setStage k stage).Regular := by
  have hmem := hs.listed k hrank.1 hrank.2
  refine ⟨?_, hs.nodup, ?_, ?_, ?_, ?_, ?_, hs.sweeping, ?_⟩
  · intro id j hfind
    obtain ⟨hid, hne, hlow, hhigh⟩ := hs.table id j hfind
    rw [networkId_setStage, rank_setStage]
    split
    · rename_i hjk
      subst hjk
      have hle := htable id hfind
      exact ⟨hid, hne, by omega, hle⟩
    · exact ⟨hid, hne, hlow, hhigh⟩
  · intro j hlow hhigh
    rw [rank_setStage] at hlow hhigh
    split at hlow
    · rename_i hjk
      exact hjk ▸ hmem
    · rename_i hjk
      rw [if_neg hjk] at hhigh
      exact hs.listed j hlow hhigh
  · intro j hj
    have hold := hs.finishing j hj
    rw [rank_setStage]
    split <;> omega
  · intro hnone j hj
    have hold := hs.idle hnone j hj
    rw [rank_setStage]
    split
    · obtain hlow | ⟨rest, hrest⟩ := hturn
      · exact hlow
      · rw [cleaning_setStage, hrest] at hnone
        cases hnone
    · exact hold
  · intro todo htodo
    obtain ⟨done, hlist, hdone, hall, htail⟩ := hs.loop todo htodo
    refine ⟨done, hlist, ?_, ?_, ?_⟩
    · intro j hj
      have hnine := hdone j hj
      rw [rank_setStage, if_neg]
      · exact hnine
      · rintro rfl
        omega
    · intro j hj
      have hold := hall j hj
      rw [rank_setStage]
      split <;> omega
    · intro j hj
      have hold := htail j hj
      rw [rank_setStage]
      split
      · rename_i hjk
        obtain hlow | ⟨rest, hrest⟩ := hturn
        · exact hlow
        · obtain rfl : todo = k :: rest := by
            rw [cleaning_setStage, hrest] at htodo
            simpa using htodo.symm
          have hnodup : (k :: rest).Nodup := (List.nodup_append.mp (hlist ▸ hs.nodup)).2.1
          exact absurd (hjk ▸ hj) (List.nodup_cons.mp hnodup).1
      · exact hold
  · intro hclearing j hj
    have hnine := hs.clearing hclearing k hmem
    omega
  · intro j hj
    have hold := hs.held j hj
    rw [rank_setStage]
    split <;> omega

/-- Discarding may take entries out of the table; that of the connection is gone. -/
theorem findClient_discardClient (s : ConnectionTable) (k : Nat) (id : NetworkId) :
    (s.discardClient k).manager.findClient id = s.manager.findClient id ∨
      (s.discardClient k).manager.findClient id = none := by
  rw [discardClient]
  split
  · exact .inl rfl
  · obtain ⟨-, hsame | ⟨hnone, -⟩⟩ :=
      NetworkManager.findClient_discardClient s.manager (s.conns k).networkId id k
    · exact .inl hsame
    · exact .inr hnone

theorem Regular.discardClient (hs : s.Regular) (hsweeping : s.sweeping = none) (k : Nat) :
    (s.discardClient k).Regular ∧ ∀ id, (s.discardClient k).manager.findClient id ≠ some k := by
  have hold : ∀ {id j}, (s.discardClient k).manager.findClient id = some j →
      s.manager.findClient id = some j := by
    intro id j hfind
    cases s.findClient_discardClient k id with
    | inl hsame => exact hsame ▸ hfind
    | inr hnone => rw [hnone] at hfind; cases hfind
  constructor
  · rw [discardClient_eq]
    refine ⟨fun id j hfind => hs.table id j (hold hfind), hs.nodup, hs.listed, hs.finishing,
      hs.idle, hs.loop, hs.clearing, ?_, hs.held⟩
    intro todo htodo
    rw [hsweeping] at htodo
    cases htodo
  · intro id hfind
    have hregistered := hold hfind
    obtain ⟨hid, hne, -, -⟩ := hs.table id k hregistered
    rw [ConnectionTable.discardClient, if_neg (hid ▸ hne), hid,
      NetworkManager.findClient_discardClient_self hregistered] at hfind
    cases hfind

/-- Giving up the last reference to a connection that is cleaned up. -/
theorem Regular.destroy (hs : s.Regular) (hlist : k ∉ s.finishingClients) (hheld : k ∉ s.held)
    (h : s.destroy k = some t) : t.Regular := by
  obtain ⟨hsweeping, ⟨⟩⟩ := Option.ite_none_right_eq_some.mp h
  obtain ⟨hdiscard, hgone⟩ := hs.discardClient hsweeping k
  have hmanager := s.discardClient_eq k
  apply hdiscard.setConn
  · rw [hmanager]
    exact hlist
  · exact .inr (Nat.le_succ 9)
  · exact fun id hfind => absurd hfind (hgone id)
  · intro hin
    rw [hmanager] at hin
    exact absurd hin hheld

theorem Regular.insert (hs : s.Regular) (hsweeping : s.sweeping = none)
    (hne : (s.conns k).networkId ≠ []) (hrank : 3 ≤ s.rank k ∧ s.rank k ≤ 7) :
    { s with manager := { s.manager with
        clientConnections :=
          s.manager.clientConnections.insert (s.conns k).networkId k } }.Regular := by
  refine ⟨?_, hs.nodup, hs.listed, hs.finishing, hs.idle, hs.loop, hs.clearing, ?_, hs.held⟩
  · intro id j hfind
    rw [NetworkManager.findClient_insert] at hfind
    split at hfind
    · rename_i hid
      cases hfind
      exact ⟨hid.symm, hid ▸ hne, hrank⟩
    · exact hs.table id j hfind
  · intro todo htodo
    rw [hsweeping] at htodo
    cases htodo

theorem Regular.addOrDiscardClient (hs : s.Regular) (hstage : s.stage k = .shaken)
    (h : s.addOrDiscardClient k = some t) : t.Regular := by
  obtain ⟨⟨hsweeping, hne⟩, ⟨⟩⟩ := Option.ite_none_right_eq_some.mp h
  have hrank : s.rank k = 2 := rank_of_stage hstage
  have hthread : ∀ stage : Stage, stage.rank ≤ 4 → (s.setStage k stage).Regular := by
    intro stage hstage
    exact hs.setThread (by omega) hstage (by omega)
  obtain ⟨heq, -⟩ | ⟨heq, -, -⟩ := s.manager.addOrDiscardClient_cases (s.conns k).networkId k
    (s.conns k).isClient
  · rw [heq]
    exact hthread .leaving le_rfl
  · rw [heq]
    have hnext := (hthread .receiving (Nat.le_succ 3)).insert (k := k) hsweeping
      (by rwa [networkId_setStage]) (by rw [rank_setStage, if_pos rfl]; decide)
    rw [networkId_setStage] at hnext
    exact hnext

theorem Regular.register (hs : s.Regular) (hrank : s.rank k = 4) (hidle : s.cleaning = none) :
    ({ s with finishingClients := s.finishingClients ++ [k] }.setStage k .finishing).Regular := by
  have hnew : ∀ j, ({ s with finishingClients := s.finishingClients ++ [k] }.setStage k
      .finishing).rank j = if j = k then 5 else s.rank j := fun j => rank_setStage _ k j .finishing
  have hlist : k ∉ s.finishingClients := by
    intro hmem
    have hfive := (hs.finishing k hmem).1
    omega
  refine ⟨?_, ?_, ?_, ?_, ?_, ?_, ?_, hs.sweeping, ?_⟩
  · intro id j hfind
    obtain ⟨hid, hne, hlow, hhigh⟩ := hs.table id j hfind
    rw [networkId_setStage, hnew]
    refine ⟨hid, hne, ?_, ?_⟩
    · split <;> omega
    · split <;> omega
  · exact List.nodup_append.mpr ⟨hs.nodup, List.nodup_singleton k, fun x hx y hy hxy =>
      hlist (List.mem_singleton.mp hy ▸ hxy ▸ hx)⟩
  · intro j hlow hhigh
    rw [hnew] at hlow hhigh
    split at hlow
    · rename_i hjk
      exact List.mem_append_right _ (List.mem_singleton.mpr hjk)
    · rename_i hjk
      rw [if_neg hjk] at hhigh
      exact List.mem_append_left _ (hs.listed j hlow hhigh)
  · intro j hj
    rw [hnew]
    cases List.mem_append.mp hj with
    | inl hj =>
      have hold := hs.finishing j hj
      split <;> omega
    | inr hj =>
      rw [if_pos (List.mem_singleton.mp hj)]
      omega
  · intro _ j hj
    rw [hnew]
    cases List.mem_append.mp hj with
    | inl hj =>
      have hold := hs.idle hidle j hj
      split <;> omega
    | inr hj =>
      rw [if_pos (List.mem_singleton.mp hj)]
      omega
  · intro todo htodo
    rw [cleaning_setStage, hidle] at htodo
    cases htodo
  · intro hclearing
    rw [cleaning_setStage, hidle] at hclearing
    cases hclearing
  · intro j hj
    have hold := hs.held j hj
    rw [hnew]
    split <;> omega

/-- The last statement of `CleanUp`, and on to the next connection. -/
theorem Regular.dropSocket (hs : s.Regular) {rest : List Nat}
    (hloop : s.cleaning = some (.loop (k :: rest))) (hrank : s.rank k = 8) :
    ({ s with cleaning := some (.loop rest) }.setStage k .cleaned).Regular := by
  have hnew : ∀ j, ({ s with cleaning := some (.loop rest) }.setStage k .cleaned).rank j =
      if j = k then 9 else s.rank j := fun j => rank_setStage _ k j .cleaned
  obtain ⟨done, hlist, hdone, hall, htail⟩ := hs.loop _ hloop
  have hnodup := List.nodup_cons.mp (List.nodup_append.mp (hlist ▸ hs.nodup)).2.1
  have hrest : ∀ j ∈ rest, j ≠ k := by
    rintro j hj rfl
    exact hnodup.1 hj
  refine ⟨?_, hs.nodup, ?_, ?_, ?_, ?_, ?_, hs.sweeping, ?_⟩
  · intro id j hfind
    have hold := hs.table id j hfind
    rw [networkId_setStage, hnew, if_neg]
    · exact hold
    · rintro rfl
      omega
  · intro j hlow hhigh
    rw [hnew] at hlow hhigh
    split at hlow
    · rename_i hjk
      rw [if_pos hjk] at hhigh
      omega
    · rename_i hjk
      rw [if_neg hjk] at hhigh
      exact hs.listed j hlow hhigh
  · intro j hj
    have hold := hs.finishing j hj
    rw [hnew]
    split <;> omega
  · intro hnone
    cases hnone
  · rintro todo ⟨⟩
    refine ⟨done ++ [k], by rw [List.append_assoc]; exact hlist, ?_, ?_, ?_⟩
    · intro j hj
      rw [hnew]
      split
      · rfl
      · rename_i hjk
        cases List.mem_append.mp hj with
        | inl hj => exact hdone j hj
        | inr hj => exact absurd (List.mem_singleton.mp hj) hjk
    · intro j hj
      rw [hnew, if_neg (hrest j hj)]
      exact hall j (List.mem_cons_of_mem k hj)
    · intro j hj
      have hj' := List.mem_of_mem_tail hj
      rw [hnew, if_neg (hrest j hj')]
      exact htail j hj'
  · intro hclearing
    cases hclearing
  · intro j hj
    have hold := hs.held j hj
    rw [hnew]
    split <;> omega

theorem Regular.pop (hs : s.Regular) {rest : List Nat} (hclearing : s.cleaning = some .clearing)
    (hlist : s.finishingClients = k :: rest) : { s with finishingClients := rest }.Regular := by
  have hin : ∀ j ∈ rest, j ∈ s.finishingClients := fun j hj => hlist ▸ List.mem_cons_of_mem k hj
  have hnine := hs.clearing hclearing
  refine ⟨hs.table, ?_, ?_, fun j hj => hs.finishing j (hin j hj), ?_, ?_,
    fun _ j hj => hnine j (hin j hj), hs.sweeping, hs.held⟩
  · exact (List.nodup_cons.mp (hlist ▸ hs.nodup)).2
  · intro j hlow hhigh
    have hj := hnine j (hs.listed j hlow hhigh)
    change s.rank j ≤ 8 at hhigh
    omega
  · intro hnone
    exact absurd (hclearing.symm.trans hnone) nofun
  · intro todo htodo
    exact absurd (hclearing.symm.trans htodo) nofun

/-- What a thread that finds the two locks as they must be does to the lists. -/
theorem regular_step (hs : s.Regular) (h : s.step a = some t) : t.Regular := by
  cases a with
  | connect k isClient =>
    obtain ⟨hstage, ⟨⟩⟩ := Option.ite_none_right_eq_some.mp h
    have hrank : s.rank k = 0 := rank_of_stage hstage
    exact hs.setThread (by omega) (Nat.le_add_left 1 3) (by omega)
  | handshake k networkId =>
    obtain ⟨hstage, ⟨⟩⟩ := Option.ite_none_right_eq_some.mp h
    have hrank : s.rank k = 1 := rank_of_stage hstage
    exact hs.setThread (by omega) (Nat.le_add_left 2 2) (by omega)
  | failHandshake k networkId =>
    obtain ⟨hstage, ⟨⟩⟩ := Option.ite_none_right_eq_some.mp h
    have hrank : s.rank k = 1 := rank_of_stage hstage
    exact hs.setThread (by omega) le_rfl (by omega)
  | addOrDiscard k =>
    obtain ⟨hstage, h⟩ := Option.ite_none_right_eq_some.mp h
    exact hs.addOrDiscardClient hstage h
  | leaveLoop k =>
    obtain ⟨hstage, ⟨⟩⟩ := Option.ite_none_right_eq_some.mp h
    have hrank : s.rank k = 3 := rank_of_stage hstage
    exact hs.setThread (by omega) le_rfl fun _ => ⟨rfl, Nat.le_succ 3⟩
  | registerFinishing k =>
    obtain ⟨⟨hstage, hidle⟩, ⟨⟩⟩ := Option.ite_none_right_eq_some.mp h
    exact hs.register (rank_of_stage hstage) hidle
  | exit k =>
    obtain ⟨hstage, ⟨⟩⟩ := Option.ite_none_right_eq_some.mp h
    have hrank : s.rank k = 5 := rank_of_stage hstage
    exact hs.setStage (by omega) (by decide) (fun _ _ => by decide) (.inl le_rfl)
  | cleanFinishing =>
    obtain ⟨hidle, ⟨⟩⟩ := Option.ite_none_right_eq_some.mp h
    refine ⟨hs.table, hs.nodup, hs.listed, hs.finishing, nofun, ?_, nofun, hs.sweeping, hs.held⟩
    rintro todo ⟨⟩
    have hlow := hs.idle hidle
    refine ⟨[], rfl, by simp, ?_, fun j hj => hlow j (List.mem_of_mem_tail hj)⟩
    intro j hj
    have hsix := hlow j hj
    change s.rank j ≤ 8
    omega
  | close =>
    simp only [step, stepCleaning] at h
    split at h
    · rename_i k rest hloop
      obtain ⟨hstage, ⟨⟩⟩ := Option.ite_none_right_eq_some.mp h
      have hrank : s.rank k = 6 := rank_of_stage hstage
      exact hs.setStage (by omega) (by decide) (fun _ _ => le_rfl) (.inr ⟨rest, hloop⟩)
    · cases h
  | discard =>
    simp only [step, stepCleaning] at h
    split at h
    · rename_i k rest hloop
      obtain ⟨⟨hstage, hsweeping⟩, ⟨⟩⟩ := Option.ite_none_right_eq_some.mp h
      have hrank : s.rank k = 7 := rank_of_stage hstage
      obtain ⟨hdiscard, hgone⟩ := hs.discardClient hsweeping k
      have hmanager := s.discardClient_eq k
      have hsame : (s.discardClient k).rank k = s.rank k := by rw [hmanager]; rfl
      have hloop' : (s.discardClient k).cleaning = some (.loop (k :: rest)) := by
        rw [hmanager]
        exact hloop
      exact hdiscard.setStage (by omega) (by decide) (fun id hfind => absurd hfind (hgone id))
        (.inr ⟨rest, hloop'⟩)
    · cases h
  | dropSocket =>
    simp only [step, stepCleaning] at h
    split at h
    · rename_i k rest hloop
      obtain ⟨hstage, ⟨⟩⟩ := Option.ite_none_right_eq_some.mp h
      exact hs.dropSocket hloop (rank_of_stage hstage)
    · cases h
  | endLoop =>
    obtain ⟨hloop, ⟨⟩⟩ := Option.ite_none_right_eq_some.mp h
    refine ⟨hs.table, hs.nodup, hs.listed, hs.finishing, nofun, nofun, ?_, hs.sweeping, hs.held⟩
    intro _ j hj
    obtain ⟨done, hlist, hdone, -, -⟩ := hs.loop [] hloop
    rw [List.append_nil] at hlist
    exact hdone j (hlist ▸ hj)
  | clear =>
    simp only [step, stepCleaning] at h
    split at h
    · rename_i k rest hclearing hlist
      have hpop := hs.pop hclearing hlist
      obtain ⟨hk, -⟩ := List.nodup_cons.mp (hlist ▸ hs.nodup)
      split at h
      · cases h
        exact hpop
      · rename_i hheld
        exact hpop.destroy hk hheld h
    · cases h
  | unlockFinishing =>
    obtain ⟨⟨-, hlist⟩, ⟨⟩⟩ := Option.ite_none_right_eq_some.mp h
    refine ⟨hs.table, hs.nodup, hs.listed, hs.finishing, ?_, nofun, nofun, hs.sweeping, hs.held⟩
    intro _ j hj
    rw [show s.finishingClients = [] from hlist] at hj
    cases hj
  | sweep =>
    obtain ⟨-, ⟨⟩⟩ := Option.ite_none_right_eq_some.mp h
    refine ⟨hs.table, hs.nodup, hs.listed, hs.finishing, hs.idle, hs.loop, hs.clearing, ?_,
      hs.held⟩
    rintro todo ⟨⟩ k hk
    obtain ⟨⟨id, _⟩, hentry, rfl⟩ := List.mem_map.mp hk
    exact ⟨id, AList.mem_lookup_iff.mpr hentry⟩
  | sweepNext =>
    simp only [step] at h
    split at h
    · rename_i k rest hsweeping
      cases h
      refine ⟨hs.table, hs.nodup, hs.listed, hs.finishing, hs.idle, hs.loop, hs.clearing, ?_,
        hs.held⟩
      rintro todo ⟨⟩ j hj
      exact hs.sweeping _ hsweeping j (List.mem_cons_of_mem k hj)
    · cases h
  | endSweep =>
    obtain ⟨-, ⟨⟩⟩ := Option.ite_none_right_eq_some.mp h
    exact ⟨hs.table, hs.nodup, hs.listed, hs.finishing, hs.idle, hs.loop, hs.clearing, nofun,
      hs.held⟩
  | findClient networkId =>
    simp only [step] at h
    split at h
    · rename_i k hsweeping hfind
      cases h
      refine ⟨hs.table, hs.nodup, hs.listed, hs.finishing, hs.idle, hs.loop, hs.clearing,
        hs.sweeping, ?_⟩
      obtain ⟨-, -, hlow, hhigh⟩ := hs.table networkId k hfind
      exact List.forall_mem_cons.mpr ⟨⟨hlow, hhigh.trans (by decide)⟩, hs.held⟩
    · cases h
  | sendMsg k =>
    obtain ⟨-, h⟩ := Option.ite_none_right_eq_some.mp h
    have herase : { s with held := s.held.erase k }.Regular :=
      ⟨hs.table, hs.nodup, hs.listed, hs.finishing, hs.idle, hs.loop, hs.clearing, hs.sweeping,
        fun j hj => hs.held j (List.mem_of_mem_erase hj)⟩
    dsimp only at h
    split at h
    · rename_i hlast
      exact herase.destroy hlast.2.2 hlast.2.1 h
    · cases h
      exact herase

theorem regular_run {ok : ConnectionTable → ConnectionAction → Prop} (hs : s.Regular)
    (h : Run step ok s t) : t.Regular :=
  h.invariant hs fun _ _ _ ht _ hstep => regular_step ht hstep

/-- A node before anybody has connected. -/
def exampleTable : ConnectionTable :=
  ⟨.new idA, fun _ => ⟨[], false, .fresh⟩, [], none, none, []⟩

theorem exampleTable_start : exampleTable.Start := ⟨rfl, fun _ => rfl, rfl, rfl, rfl, rfl⟩

/-- The receiver thread has not ended; it owns its connection. -/
def HasThread (s : ConnectionTable) (k : Nat) : Prop := 1 ≤ s.rank k ∧ s.rank k ≤ 5

/-- Whoever looks at the table, or goes through it under `_lock`, finds connections with a socket.
The table is never the only owner of one, so taking it out under `_lock` destroys nothing, and
nothing that is destroyed is still referred to. -/
structure Usable (s : ConnectionTable) : Prop where
  registered : ∀ id k, s.manager.findClient id = some k →
    (s.conns k).networkId = id ∧ s.HasSocket k ∧ (s.HasThread k ∨ k ∈ s.finishingClients)
  swept : ∀ todo, s.sweeping = some todo → ∀ k ∈ todo, s.HasSocket k
  alive : ∀ k, s.stage k = .destroyed →
    k ∉ s.held ∧ k ∉ s.finishingClients ∧ ∀ id, s.manager.findClient id ≠ some k

theorem connections_stay_usable (hs : s.Start) (h : Run step (fun _ _ => True) s t) : t.Usable := by
  have ht := regular_run hs.regular h
  refine ⟨?_, ?_, ?_⟩
  · intro id k hfind
    obtain ⟨hid, -, hlow, hhigh⟩ := ht.table id k hfind
    refine ⟨hid, show t.rank k < 9 by omega, ?_⟩
    cases Nat.lt_or_ge (t.rank k) 6 with
    | inl hthread => exact .inl ⟨by omega, by omega⟩
    | inr hlisted => exact .inr (ht.listed k (by omega) (by omega))
  · intro todo htodo k hk
    obtain ⟨id, hfind⟩ := ht.sweeping todo htodo k hk
    obtain ⟨-, -, -, hhigh⟩ := ht.table id k hfind
    exact show t.rank k < 9 by omega
  · intro k hk
    have hrank : t.rank k = 10 := rank_of_stage hk
    refine ⟨fun hheld => ?_, fun hlist => ?_, fun id hfind => ?_⟩
    · have hle := (ht.held k hheld).2
      omega
    · have hle := (ht.finishing k hlist).2
      omega
    · have hle := (ht.table id k hfind).2.2.2
      omega

/-- A connection while another thread goes through the table. -/
theorem connections_stay_usable_swept :
    ∃ t, Run step (fun _ _ => True) exampleTable t ∧ t.manager.findClient idB = some 0 ∧
      t.sweeping = some [0] ∧ t.Usable := by
  have hrun : ∃ t, runActions step exampleTable
      [.connect 0 true, .handshake 0 idB, .addOrDiscard 0, .sweep] = some t ∧
        t.manager.findClient idB = some 0 ∧ t.sweeping = some [0] := ⟨_, rfl, rfl, rfl⟩
  obtain ⟨t, ht, hfind, hsweeping⟩ := hrun
  have hrun : Run step (fun _ _ => True) exampleTable t := .of_runActions ht fun _ _ _ => trivial
  exact ⟨t, hrun, hfind, hsweeping, connections_stay_usable exampleTable_start hrun⟩

/-- The threads only go on with what they have begun. -/
def Continues : ConnectionAction → Prop
  | .registerFinishing _ | .exit _ | .cleanFinishing | .close | .discard | .dropSocket | .endLoop
  | .clear | .unlockFinishing | .sweepNext | .endSweep => True
  | _ => False

/-- Nobody holds one of the two locks, and there is nothing to clean up. -/
structure Idle (s : ConnectionTable) : Prop where
  cleaning : s.cleaning = none
  sweeping : s.sweeping = none
  finishingClients : s.finishingClients = []

theorem Stage.rank_injective : Function.Injective Stage.rank := by
  intro a b h
  cases a <;> cases b <;> first | rfl | cases h

theorem stage_of_rank {stage : Stage} (h : s.rank k = stage.rank) : s.stage k = stage :=
  Stage.rank_injective h

/-- What is left of the loop in `CleanFinishingClients`. -/
def loopWork (rank : Nat → Nat) : List Nat → Nat
  | [] => 0
  | k :: rest => 7 * rest.length + (9 - rank k)

def cleaningWork (rank : Nat → Nat) (finishing : List Nat) : Option Cleaning → Nat
  | none => 9 * finishing.length
  | some (.loop todo) => loopWork rank todo + finishing.length + 2
  | some .clearing => finishing.length + 1

def sweepingWork : Option (List Nat) → Nat
  | none => 0
  | some todo => todo.length + 1

def work (s : ConnectionTable) : Nat :=
  cleaningWork s.rank s.finishingClients s.cleaning + sweepingWork s.sweeping

theorem Regular.loopWork_le (hs : s.Regular) {todo : List Nat}
    (hin : ∀ k ∈ todo, k ∈ s.finishingClients) : loopWork s.rank todo ≤ 7 * todo.length - 3 := by
  cases todo with
  | nil => exact Nat.le_refl 0
  | cons k rest =>
    have hfive := (hs.finishing k (hin k (by simp))).1
    rw [loopWork, List.length_cons]
    omega

/-- The holder of `_lock` needs nothing from anybody. -/
theorem sweeping_continues {todo : List Nat} (hsweeping : s.sweeping = some todo) :
    ∃ a t, Continues a ∧ s.step a = some t ∧ t.work < s.work := by
  cases todo with
  | nil =>
    refine ⟨.endSweep, { s with sweeping := none }, trivial, if_pos hsweeping, ?_⟩
    rw [work, work, hsweeping]
    exact Nat.lt_succ_self _
  | cons k rest =>
    refine ⟨.sweepNext, { s with sweeping := some rest }, trivial, by simp [step, hsweeping], ?_⟩
    rw [work, work, hsweeping]
    exact Nat.lt_succ_self _

/-- The statements of `CleanUp` come one after the other: the thread that is joined has nothing to
wait for, and once `_lock` is free the connection can be discarded. -/
theorem Regular.loop_continues (hs : s.Regular) (hsweeping : s.sweeping = none) {todo : List Nat}
    (hloop : s.cleaning = some (.loop todo)) :
    ∃ a t, Continues a ∧ s.step a = some t ∧ t.work < s.work := by
  obtain ⟨done, hlist, -, hall, -⟩ := hs.loop todo hloop
  cases todo with
  | nil =>
    refine ⟨.endLoop, { s with cleaning := some .clearing }, trivial, if_pos hloop, ?_⟩
    rw [work, work, hloop, hsweeping]
    simp [cleaningWork, loopWork]
  | cons k rest =>
    have hfive := (hs.finishing k (hlist ▸ by simp)).1
    have height := hall k (by simp)
    -- a statement for the first connection brings it nearer to its end
    have hnext : ∀ (u : ConnectionTable) (stage : Stage), u.cleaning = s.cleaning →
        u.sweeping = s.sweeping → u.finishingClients = s.finishingClients →
        s.rank k < stage.rank → (u.setStage k stage).work < s.work := by
      intro u stage hclean hsweep hfinish hlt
      have hnew : (u.setStage k stage).rank k = stage.rank := by rw [rank_setStage, if_pos rfl]
      have hle : 9 - stage.rank < 9 - s.rank k := by omega
      calc (u.setStage k stage).work
          = cleaningWork (u.setStage k stage).rank s.finishingClients s.cleaning + 0 := by
            rw [← hclean, ← hfinish, ← show sweepingWork none = 0 from rfl, ← hsweeping, ← hsweep]
            rfl
        _ < s.work := by
            rw [work, hloop, hsweeping]
            simp only [cleaningWork, loopWork, hnew, sweepingWork]
            omega
    obtain hrank | hrank | hrank | hrank :
        s.rank k = 5 ∨ s.rank k = 6 ∨ s.rank k = 7 ∨ s.rank k = 8 := by omega
    · have hstage : s.stage k = .finishing := stage_of_rank hrank
      exact ⟨.exit k, _, trivial, if_pos hstage,
        hnext s .exited rfl rfl rfl (by rw [hrank]; decide)⟩
    · have hstage : s.stage k = .exited := stage_of_rank hrank
      refine ⟨.close, _, trivial, ?_, hnext s .closed rfl rfl rfl (by rw [hrank]; decide)⟩
      simp [step, stepCleaning, hloop, hstage]
    · have hstage : s.stage k = .closed := stage_of_rank hrank
      have hmanager := s.discardClient_eq k
      refine ⟨.discard, _, trivial, ?_, hnext (s.discardClient k) .discarded (by rw [hmanager])
        (by rw [hmanager]) (by rw [hmanager]) (by rw [hrank]; decide)⟩
      simp [step, stepCleaning, hloop, hstage, hsweeping]
    · have hstage : s.stage k = .discarded := stage_of_rank hrank
      have hin : ∀ j ∈ rest, j ∈ s.finishingClients := fun j hj => hlist ▸ by simp [hj]
      have hle := (hs.dropSocket hloop hrank).loopWork_le hin
      refine ⟨.dropSocket, { s with cleaning := some (.loop rest) }.setStage k .cleaned, trivial,
        by simp [step, stepCleaning, hloop, hstage], ?_⟩
      calc ({ s with cleaning := some (.loop rest) }.setStage k .cleaned).work
          = loopWork ({ s with cleaning := some (.loop rest) }.setStage k .cleaned).rank rest +
              s.finishingClients.length + 2 := by
            rw [← Nat.add_zero (_ + 2), ← show sweepingWork none = 0 from rfl, ← hsweeping]
            rfl
        _ < 7 * rest.length + (9 - 8) + s.finishingClients.length + 2 + 0 := by omega
        _ = s.work := by rw [work, hloop, hsweeping, cleaningWork, loopWork, hrank, sweepingWork]

theorem step_clear {rest : List Nat} (hclearing : s.cleaning = some .clearing)
    (hlist : s.finishingClients = k :: rest) :
    s.step .clear = if k ∈ s.held then some { s with finishingClients := rest }
      else { s with finishingClients := rest }.destroy k := by
  obtain ⟨manager, conns, finishingClients, cleaning, sweeping, held⟩ := s
  cases hclearing
  cases hlist
  rfl

/-- A destructor in `clear` asks for `_lock` while `_finishingLock` is held, which nobody who
holds `_lock` waits for. -/
theorem Regular.progress (hs : s.Regular) (hidle : ¬ s.Idle) :
    ∃ a t, Continues a ∧ s.step a = some t ∧ t.work < s.work := by
  cases hsweeping : s.sweeping with
  | some todo => exact sweeping_continues hsweeping
  | none =>
    cases hcleaning : s.cleaning with
    | none =>
      have hne : s.finishingClients ≠ [] := fun hnil => hidle ⟨hcleaning, hsweeping, hnil⟩
      have hle := hs.loopWork_le fun k hk => hk
      have hpos := List.length_pos_iff.mpr hne
      refine ⟨.cleanFinishing, { s with cleaning := some (.loop s.finishingClients) }, trivial,
        if_pos hcleaning, ?_⟩
      rw [work, work, hcleaning, hsweeping]
      change loopWork s.rank s.finishingClients + s.finishingClients.length + 2 + 0 <
        9 * s.finishingClients.length + 0
      omega
    | some phase =>
      cases phase with
      | loop todo => exact hs.loop_continues hsweeping hcleaning
      | clearing =>
        cases hlist : s.finishingClients with
        | nil =>
          refine ⟨.unlockFinishing, { s with cleaning := none }, trivial,
            if_pos ⟨hcleaning, hlist⟩, ?_⟩
          rw [work, work, hcleaning, hsweeping, hlist]
          exact Nat.lt_succ_self _
        | cons k rest =>
          have hclear := step_clear hcleaning hlist
          by_cases hheld : k ∈ s.held
          · refine ⟨.clear, { s with finishingClients := rest }, trivial,
              hclear.trans (if_pos hheld), ?_⟩
            rw [work, work, hcleaning, hsweeping, hlist]
            exact Nat.lt_succ_self _
          · have hmanager := { s with finishingClients := rest }.discardClient_eq k
            refine ⟨.clear, ({ s with finishingClients := rest }.discardClient k).setStage k
              .destroyed, trivial, ?_, ?_⟩
            · rw [hclear, if_neg hheld, ConnectionTable.destroy, if_pos hsweeping]
            · calc (({ s with finishingClients := rest }.discardClient k).setStage k
                    .destroyed).work
                  = rest.length + 1 + 0 := by
                    rw [hmanager, ← show sweepingWork none = 0 from rfl, ← hsweeping]
                    change cleaningWork _ rest s.cleaning + _ = _
                    rw [hcleaning]
                    rfl
                _ < rest.length + 1 + 1 + 0 := by omega
                _ = s.work := by
                    rw [work, hcleaning, hsweeping, hlist]
                    rfl

/-- From every state the threads can go on until the two locks are free. -/
theorem Regular.becomes_idle (hs : s.Regular) :
    ∃ t, Run step (fun _ => Continues) s t ∧ t.Regular ∧ t.Idle := by
  apply Run.exists_of_measure work _ hs
  intro s hs hidle
  obtain ⟨a, t, hcontinues, hstep, hlt⟩ := hs.progress hidle
  exact ⟨t, .tail .refl hcontinues hstep, regular_step hs hstep, hlt⟩

theorem rank_le_ten (s : ConnectionTable) (k : Nat) : s.rank k ≤ 10 := by
  rw [rank]
  cases s.stage k <;> decide

theorem conns_of_setConn {u : ConnectionTable} {conn : ClientConnection} {stage : Stage}
    (hconns : u.conns = s.conns) (hstage : s.stage k = stage)
    (hle : stage.rank ≤ conn.stage.rank) :
    ∃ j conn', (u.setConn k conn).conns = Function.update s.conns j conn' ∧
      s.rank j ≤ conn'.stage.rank :=
  ⟨k, conn, by rw [setConn, hconns], rank_of_stage hstage ▸ hle⟩

theorem conns_of_destroy {u : ConnectionTable} (h : u.destroy k = some t)
    (hconns : u.conns = s.conns) :
    ∃ j conn, t.conns = Function.update s.conns j conn ∧ s.rank j ≤ conn.stage.rank := by
  obtain ⟨-, ⟨⟩⟩ := Option.ite_none_right_eq_some.mp h
  rw [discardClient_eq, ← hconns]
  exact ⟨k, _, rfl, s.rank_le_ten k⟩

/-- A step is one of one connection, or of none, and no connection goes back. -/
theorem conns_of_step (h : s.step a = some t) :
    ∃ k conn, t.conns = Function.update s.conns k conn ∧ s.rank k ≤ conn.stage.rank := by
  have hnone : ∃ k conn, s.conns = Function.update s.conns k conn ∧
      s.rank k ≤ conn.stage.rank :=
    ⟨0, s.conns 0, (Function.update_eq_self 0 s.conns).symm, le_rfl⟩
  cases a with
  | connect k | handshake k | failHandshake k | leaveLoop k | exit k =>
    obtain ⟨hstage, ⟨⟩⟩ := Option.ite_none_right_eq_some.mp h
    exact conns_of_setConn rfl hstage (by simp [Stage.rank])
  | registerFinishing k =>
    obtain ⟨⟨hstage, -⟩, ⟨⟩⟩ := Option.ite_none_right_eq_some.mp h
    exact conns_of_setConn rfl hstage (by simp [Stage.rank])
  | addOrDiscard k =>
    obtain ⟨hstage, h⟩ := Option.ite_none_right_eq_some.mp h
    obtain ⟨-, ⟨⟩⟩ := Option.ite_none_right_eq_some.mp h
    refine conns_of_setConn rfl hstage ?_
    dsimp only
    split <;> simp [Stage.rank]
  | close | dropSocket =>
    simp only [step, stepCleaning] at h
    split at h
    · obtain ⟨hstage, ⟨⟩⟩ := Option.ite_none_right_eq_some.mp h
      exact conns_of_setConn rfl hstage (by simp [Stage.rank])
    · cases h
  | discard =>
    simp only [step, stepCleaning] at h
    split at h
    · obtain ⟨⟨hstage, -⟩, ⟨⟩⟩ := Option.ite_none_right_eq_some.mp h
      exact conns_of_setConn (by rw [discardClient_eq]) hstage (by simp [Stage.rank])
    · cases h
  | clear =>
    simp only [step, stepCleaning] at h
    split at h
    · split at h
      · cases h
        exact hnone
      · exact conns_of_destroy h rfl
    · cases h
  | sweepNext | findClient =>
    simp only [step] at h
    split at h
    · cases h
      exact hnone
    · cases h
  | sendMsg k =>
    obtain ⟨-, h⟩ := Option.ite_none_right_eq_some.mp h
    dsimp only at h
    split at h
    · exact conns_of_destroy h rfl
    · cases h
      exact hnone
  | cleanFinishing | endLoop | unlockFinishing | sweep | endSweep =>
    obtain ⟨-, ⟨⟩⟩ := Option.ite_none_right_eq_some.mp h
    exact hnone

theorem rank_le_of_step (h : s.step a = some t) (j : Nat) : s.rank j ≤ t.rank j := by
  obtain ⟨k, conn, hconns, hle⟩ := conns_of_step h
  have hrank : t.rank j = if j = k then conn.stage.rank else s.rank j := by
    rw [rank, stage, hconns, Function.update_apply]
    split <;> rfl
  rw [hrank]
  split
  · rename_i hjk
    exact hjk ▸ hle
  · exact le_rfl

theorem rank_le_of_run {ok : ConnectionTable → ConnectionAction → Prop} (h : Run step ok s t)
    (j : Nat) : s.rank j ≤ t.rank j :=
  h.invariant (P := fun t => s.rank j ≤ t.rank j) le_rfl fun _ _ _ ht _ hstep =>
    ht.trans (rank_le_of_step hstep j)

theorem Regular.cleaned_of_idle (hs : s.Regular) (hidle : s.Idle) (hrank : 5 ≤ s.rank k) :
    9 ≤ s.rank k := by
  by_contra hlow
  have hmem := hs.listed k hrank (by omega)
  rw [hidle.finishingClients] at hmem
  cases hmem

/-- A run has made finitely many connections. -/
theorem exists_fresh_of_run {ok : ConnectionTable → ConnectionAction → Prop} (hs : s.Start)
    (h : Run step ok s t) : ∃ n, ∀ k, n ≤ k → t.stage k = .fresh := by
  refine h.invariant (P := fun t => ∃ n, ∀ k, n ≤ k → t.stage k = .fresh)
    ⟨0, fun k _ => hs.conns k⟩ ?_
  rintro t a u ⟨n, hn⟩ - hstep
  obtain ⟨j, conn, hconns, -⟩ := conns_of_step hstep
  refine ⟨max n (j + 1), fun k hk => ?_⟩
  have hjk : k ≠ j := by omega
  rw [stage, hconns, Function.update_of_ne hjk]
  exact hn k (by omega)

/-- What the connections below `n` have before them. -/
def remaining (n : Nat) (s : ConnectionTable) : Nat := ∑ k ∈ Finset.range n, (10 - s.rank k)

theorem remaining_lt {n : Nat} (hle : ∀ j, s.rank j ≤ t.rank j) (hk : k < n)
    (hlt : s.rank k < t.rank k) : remaining n t < remaining n s := by
  apply Finset.sum_lt_sum
  · intro j _
    have hj := hle j
    omega
  · have hten := t.rank_le_ten k
    exact ⟨k, Finset.mem_range.mpr hk, by omega⟩

/-- A connection that its thread has still to hand over is handed over and cleaned up. -/
theorem Regular.registers (hs : s.Regular) (hidle : s.Idle) (hrank : s.rank k = 4) :
    ∃ t, Run step (fun _ => Continues) s t ∧ t.Regular ∧ t.Idle ∧ s.rank k < t.rank k := by
  have hregister : s.step (.registerFinishing k) = some
      ({ s with finishingClients := s.finishingClients ++ [k] }.setStage k .finishing) :=
    if_pos ⟨stage_of_rank hrank, hidle.cleaning⟩
  obtain ⟨t, hrest, ht, hidle'⟩ := (regular_step hs hregister).becomes_idle
  have hfive := rank_le_of_run hrest k
  rw [rank_setStage, if_pos rfl] at hfive
  have hcontinues : Continues (.registerFinishing k) := trivial
  have hfirst : Run step (fun _ => Continues) s _ := .tail .refl hcontinues hregister
  exact ⟨t, hfirst.trans hrest, ht, hidle', hrank ▸ hfive⟩

/-- There is no deadlock: whatever the threads are doing, they can all go on until the two locks
are free and every connection whose receiver thread has left its loop is cleaned up. -/
theorem clean_up_can_finish (hs : s.Start) (h : Run step (fun _ _ => True) s t) :
    ∃ u, Run step (fun _ => Continues) t u ∧ u.Idle ∧
      ∀ k, 4 ≤ t.rank k → ¬ u.HasSocket k ∧ ∀ id, u.manager.findClient id ≠ some k := by
  obtain ⟨n, hn⟩ := exists_fresh_of_run hs h
  obtain ⟨t', hrun, ht'⟩ := (regular_run hs.regular h).becomes_idle
  obtain ⟨u, hrest, ⟨hu, hidle⟩, hall⟩ : ∃ u, Run step (fun _ => Continues) t' u ∧
      (u.Regular ∧ u.Idle) ∧ ∀ k < n, u.rank k ≠ 4 := by
    refine Run.exists_of_measure (remaining n) ?_ ht'
    rintro s ⟨hs, hidle⟩ hleft
    simp only [not_forall, not_not] at hleft
    obtain ⟨k, hk, hrank⟩ := hleft
    obtain ⟨t, hrun, ht, hidle', hlt⟩ := hs.registers hidle hrank
    exact ⟨t, hrun, ⟨ht, hidle'⟩, remaining_lt (rank_le_of_run hrun) hk hlt⟩
  refine ⟨u, hrun.trans hrest, hidle, fun k hk => ?_⟩
  have hkn : k < n := by
    by_contra hge
    have hzero : t.rank k = 0 := rank_of_stage (hn k (by omega))
    omega
  have hle := rank_le_of_run (hrun.trans hrest) k
  have hne := hall k hkn
  have hnine := hu.cleaned_of_idle hidle (show 5 ≤ u.rank k by omega)
  refine ⟨fun hsocket => ?_, fun id hfind => ?_⟩
  · have hlt : u.rank k < 9 := hsocket
    omega
  · have hle := (hu.table id k hfind).2.2.2
    omega

/-- Two receiver threads have left their loops, and another thread goes through the table. -/
theorem clean_up_can_finish_after_sweep :
    ∃ t u, Run step (fun _ _ => True) exampleTable t ∧ t.sweeping = some [1, 0] ∧
      t.stage 0 = .leaving ∧ t.stage 1 = .leaving ∧
      Run step (fun _ => Continues) t u ∧ u.Idle ∧ ¬ u.HasSocket 0 ∧ ¬ u.HasSocket 1 := by
  have hrun : ∃ t, runActions step exampleTable
      [.connect 0 true, .handshake 0 idB, .addOrDiscard 0, .connect 1 true, .handshake 1 idC,
        .addOrDiscard 1, .sweep, .leaveLoop 0, .leaveLoop 1] = some t ∧
        t.sweeping = some [1, 0] ∧ t.stage 0 = .leaving ∧ t.stage 1 = .leaving :=
    ⟨_, rfl, rfl, rfl, rfl⟩
  obtain ⟨t, ht, hsweeping, hzero, hone⟩ := hrun
  have hrun : Run step (fun _ _ => True) exampleTable t := .of_runActions ht fun _ _ _ => trivial
  obtain ⟨u, hrest, hidle, hall⟩ := clean_up_can_finish exampleTable_start hrun
  have hleft : ∀ k, t.stage k = .leaving → ¬ u.HasSocket k :=
    fun k hstage => (hall k (rank_of_stage hstage).ge).1
  exact ⟨t, u, hrun, hsweeping, hzero, hone, hrest, hidle, hleft 0 hzero, hleft 1 hone⟩

theorem HasSocket.setConn {u : ConnectionTable} {conn : ClientConnection} (hj : s.HasSocket j)
    (hconns : u.conns = s.conns) (hlt : conn.stage.rank < 9) : (u.setConn k conn).HasSocket j := by
  rw [HasSocket, rank_setConn]
  split
  · exact hlt
  · rw [rank, stage, hconns]
    exact hj

theorem HasSocket.destroy {u : ConnectionTable} (hj : s.HasSocket j) (hconns : u.conns = s.conns)
    (hk : 9 ≤ s.rank k) (h : u.destroy k = some t) : t.HasSocket j := by
  obtain ⟨-, ⟨⟩⟩ := Option.ite_none_right_eq_some.mp h
  have hjk : j ≠ k := by
    rintro rfl
    exact absurd hj (Nat.not_lt.mpr hk)
  rw [discardClient_eq, HasSocket, rank_setStage, if_neg hjk, rank, stage]
  change (u.conns j).stage.rank < 9
  rw [hconns]
  exact hj

/-- Only the last statement of `CleanUp` takes a socket away. -/
theorem HasSocket.step (hs : s.Regular) (h : s.step a = some t) (hj : s.HasSocket j) :
    t.HasSocket j ∨ a = .dropSocket ∧ s.stage j = .discarded ∧
      ∃ rest, s.cleaning = some (.loop (j :: rest)) := by
  cases a with
  | connect k isClient | handshake k networkId | failHandshake k networkId | leaveLoop k | exit k =>
    obtain ⟨-, ⟨⟩⟩ := Option.ite_none_right_eq_some.mp h
    exact .inl (hj.setConn rfl (by simp [Stage.rank]))
  | addOrDiscard k =>
    obtain ⟨-, h⟩ := Option.ite_none_right_eq_some.mp h
    obtain ⟨-, ⟨⟩⟩ := Option.ite_none_right_eq_some.mp h
    refine .inl (hj.setConn rfl ?_)
    dsimp only
    split <;> simp [Stage.rank]
  | registerFinishing k =>
    obtain ⟨-, ⟨⟩⟩ := Option.ite_none_right_eq_some.mp h
    exact .inl (hj.setConn rfl (by simp [Stage.rank]))
  | close =>
    simp only [ConnectionTable.step, stepCleaning] at h
    split at h
    · obtain ⟨-, ⟨⟩⟩ := Option.ite_none_right_eq_some.mp h
      exact .inl (hj.setConn rfl (by simp [Stage.rank]))
    · cases h
  | discard =>
    simp only [ConnectionTable.step, stepCleaning] at h
    split at h
    · obtain ⟨-, ⟨⟩⟩ := Option.ite_none_right_eq_some.mp h
      exact .inl (hj.setConn (by rw [discardClient_eq]) (by simp [Stage.rank]))
    · cases h
  | dropSocket =>
    simp only [ConnectionTable.step, stepCleaning] at h
    split at h
    · rename_i k rest hloop
      obtain ⟨hstage, ⟨⟩⟩ := Option.ite_none_right_eq_some.mp h
      by_cases hjk : j = k
      · subst hjk
        exact .inr ⟨rfl, hstage, rest, hloop⟩
      · left
        rw [HasSocket, rank_setStage, if_neg hjk]
        exact hj
    · cases h
  | clear =>
    simp only [ConnectionTable.step, stepCleaning] at h
    split at h
    · rename_i k rest hclearing hlist
      have hnine := hs.clearing hclearing k (hlist ▸ by simp)
      split at h
      · cases h
        exact .inl hj
      · exact .inl (hj.destroy (u := { s with finishingClients := rest }) rfl hnine.ge h)
    · cases h
  | sweepNext =>
    simp only [ConnectionTable.step] at h
    split at h
    · cases h
      exact .inl hj
    · cases h
  | findClient networkId =>
    simp only [ConnectionTable.step] at h
    split at h
    · cases h
      exact .inl hj
    · cases h
  | sendMsg k =>
    obtain ⟨-, h⟩ := Option.ite_none_right_eq_some.mp h
    dsimp only at h
    split at h
    · rename_i hlast
      exact .inl (hj.destroy (u := { s with held := s.held.erase k }) rfl
        (rank_of_stage hlast.1).ge h)
    · cases h
      exact .inl hj
  | cleanFinishing | endLoop | unlockFinishing | sweep | endSweep =>
    obtain ⟨-, ⟨⟩⟩ := Option.ite_none_right_eq_some.mp h
    exact .inl hj

theorem held_of_destroy (h : s.destroy k = some t) : t.held = s.held := by
  obtain ⟨-, ⟨⟩⟩ := Option.ite_none_right_eq_some.mp h
  rw [discardClient_eq]
  rfl

/-- A connection that a thread takes in hand is one of the table's. -/
theorem held_of_step (h : s.step a = some t) (hk : k ∈ t.held) :
    k ∈ s.held ∨ ∃ id, s.manager.findClient id = some k := by
  cases a with
  | findClient networkId =>
    simp only [step] at h
    split at h
    · rename_i j _ hfind
      cases h
      cases List.mem_cons.mp hk with
      | inl hkj => exact .inr ⟨networkId, hkj ▸ hfind⟩
      | inr hold => exact .inl hold
    · cases h
  | sendMsg j =>
    obtain ⟨-, h⟩ := Option.ite_none_right_eq_some.mp h
    dsimp only at h
    split at h
    · rw [held_of_destroy h] at hk
      exact .inl (List.mem_of_mem_erase hk)
    · cases h
      exact .inl (List.mem_of_mem_erase hk)
  | addOrDiscard j =>
    obtain ⟨-, h⟩ := Option.ite_none_right_eq_some.mp h
    obtain ⟨-, ⟨⟩⟩ := Option.ite_none_right_eq_some.mp h
    exact .inl hk
  | discard =>
    simp only [step, stepCleaning] at h
    split at h
    · obtain ⟨-, ⟨⟩⟩ := Option.ite_none_right_eq_some.mp h
      rw [discardClient_eq] at hk
      exact .inl hk
    · cases h
  | clear =>
    simp only [step, stepCleaning] at h
    split at h
    · split at h
      · cases h
        exact .inl hk
      · rw [held_of_destroy h] at hk
        exact .inl hk
    · cases h
  | close | dropSocket =>
    simp only [step, stepCleaning] at h
    split at h
    · obtain ⟨-, ⟨⟩⟩ := Option.ite_none_right_eq_some.mp h
      exact .inl hk
    · cases h
  | sweepNext =>
    simp only [step] at h
    split at h
    · cases h
      exact .inl hk
    · cases h
  | connect | handshake | failHandshake | leaveLoop | registerFinishing | exit | cleanFinishing
  | endLoop | unlockFinishing | sweep | endSweep =>
    obtain ⟨-, ⟨⟩⟩ := Option.ite_none_right_eq_some.mp h
    exact .inl hk

/-- `CleanUp` gets to its last statement while a thread has the connection in hand. -/
def DropsHeld (s : ConnectionTable) (a : ConnectionAction) : Prop :=
  a = .dropSocket ∧ ∃ k rest, s.cleaning = some (.loop (k :: rest)) ∧ s.stage k = .discarded ∧
    k ∈ s.held

/-- The pointer that `SendMsg` follows is not null. -/
def HeldHaveSockets (s : ConnectionTable) : Prop := ∀ k ∈ s.held, s.HasSocket k

theorem heldHaveSockets_step_iff (hs : s.Regular) (hheld : s.HeldHaveSockets)
    (a : ConnectionAction) :
    ¬ s.DropsHeld a ↔ ∀ t, s.step a = some t → t.Regular ∧ t.HeldHaveSockets := by
  constructor
  · intro hdrops t h
    refine ⟨regular_step hs h, fun k hk => ?_⟩
    have hsocket : s.HasSocket k := by
      cases held_of_step h hk with
      | inl hold => exact hheld k hold
      | inr hfound =>
        obtain ⟨id, hfind⟩ := hfound
        exact Nat.lt_of_le_of_lt (hs.table id k hfind).2.2.2 (by decide)
    obtain hkept | ⟨rfl, hstage, rest, hloop⟩ := hsocket.step hs h
    · exact hkept
    · refine absurd ⟨rfl, k, rest, hloop, hstage, ?_⟩ hdrops
      simp only [step, stepCleaning, hloop, hstage, if_true, Option.some.injEq] at h
      rw [← h] at hk
      exact hk
  · rintro hkeeps ⟨rfl, k, rest, hloop, hstage, hk⟩
    obtain ⟨-, hsockets⟩ := hkeeps ({ s with cleaning := some (.loop rest) }.setStage k .cleaned)
      (by simp only [step, stepCleaning, hloop, hstage, if_true])
    have hlt : ({ s with cleaning := some (.loop rest) }.setStage k .cleaned).rank k < 9 :=
      hsockets k hk
    rw [rank_setStage, if_pos rfl] at hlt
    exact absurd hlt (by decide)

/-- No thread ever follows a null pointer to send on a connection that it has looked up, exactly
if no connection is cleaned up to the end while a thread has it in hand. -/
theorem held_sockets_iff (hs : s.Start) (actions : List ConnectionAction) :
    Throughout step s HeldHaveSockets actions ↔
      Along step s (fun _ t a => ¬ t.DropsHeld a) actions := by
  have hstart : s.Regular ∧ s.HeldHaveSockets := ⟨hs.regular, by simp [HeldHaveSockets, hs.held]⟩
  have hiff := throughout_iff_along (P := fun t : ConnectionTable => t.Regular ∧ t.HeldHaveSockets)
    hstart (fun t a ht => heldHaveSockets_step_iff ht.1 ht.2 a) actions
  rw [← hiff]
  constructor
  · intro hsockets past hpast t ht
    have hrun : Run step (fun _ _ => True) s t := .of_runActions ht fun _ _ _ => trivial
    exact ⟨regular_run hs.regular hrun, hsockets past hpast t ht⟩
  · exact fun hboth past hpast t ht => (hboth past hpast t ht).2

/-- A thread looks a connection up, and comes to send on it after it was cleaned up. -/
def exampleRace : List ConnectionAction :=
  [.connect 0 true, .handshake 0 idB, .addOrDiscard 0, .findClient idB, .leaveLoop 0,
    .registerFinishing 0, .exit 0, .cleanFinishing, .close, .discard, .dropSocket]

theorem held_sockets_iff_race :
    exampleTable.Start ∧ ¬ Throughout step exampleTable HeldHaveSockets exampleRace ∧
      (Throughout step exampleTable HeldHaveSockets exampleRace ↔
        Along step exampleTable (fun _ t a => ¬ t.DropsHeld a) exampleRace) := by
  refine ⟨exampleTable_start, ?_, held_sockets_iff exampleTable_start exampleRace⟩
  intro hsockets
  have hend : ∃ t, runActions step exampleTable exampleRace = some t ∧ t.held = [0] ∧
      t.stage 0 = .cleaned := ⟨_, rfl, rfl, rfl⟩
  obtain ⟨t, ht, hheld, hstage⟩ := hend
  have hsocket : t.rank 0 < 9 := hsockets _ List.prefix_rfl t ht 0 (by simp [hheld])
  rw [rank_of_stage hstage] at hsocket
  exact absurd hsocket (by decide)

end ConnectionTable

end ParLib.Election
