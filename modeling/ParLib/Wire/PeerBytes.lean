import ParLib.Foundations.Runs
import ParLib.NetworkId
import ParLib.Wire.Receive

/-!
# What a peer can do with its bytes

One connection from the handshake on, with a peer that sends what it likes.
`FatalError` ends the process, everything else that goes wrong drops the
connection. The answer of `AddOrDiscardClient` for a known peer and the success
of `HandshakeSend` are inputs.
-/

namespace ParLib.Wire

set_option autoImplicit false

open Foundations

def messageTypeInitial : Int32 := 0

inductive Stage
  | handshake
  | loop
  | dropped
  | exited
  deriving DecidableEq, Repr

/-- `stream` and `calls` are histories: the bytes received, and for each finished call of
`Message::Receive` those that it took and what it returned. -/
structure ClientConnection where
  networkId : Bytes
  stage : Stage
  receiving : Receiving
  stream : Bytes
  calls : List (Bytes × Option Message)

namespace ClientConnection

inductive Action
  | recv (chunk : Bytes) (sent admitted : Bool)
  | recvFails
  | leaveLoop
  deriving DecidableEq, Repr

def start : ClientConnection where
  networkId := []
  stage := .handshake
  receiving := .start
  stream := []
  calls := []

/-- `HandshakeRecv`, on what `Message::Receive` has returned. -/
def handshakeRecv (c : ClientConnection) : Option Message → Bool × ClientConnection
  | none => (false, c)
  | some msg =>
    if msg.type ≠ messageTypeInitial then (false, c)
    else (true, { c with networkId := msg.content })

/-- `AddOrDiscardClient`, which asks for the id of the peer first. -/
def addOrDiscardClient (c : ClientConnection) (own : NetworkId) (admitted : Bool) : Stage :=
  if c.networkId = [] then .exited
  else if c.networkId = own then .dropped
  else if admitted then .loop
  else .dropped

/-- From the end of `HandshakeRecv` to the first turn of the loop. -/
def finishHandshake (c : ClientConnection) (own : NetworkId) (sent admitted : Bool)
    (msg : Option Message) : ClientConnection :=
  match c.handshakeRecv msg with
  | (false, c) => { c with stage := .dropped }
  | (true, c) =>
    if sent then { c with stage := c.addOrDiscardClient own admitted }
    else { c with stage := .dropped }

/-- A call of `Message::Receive` returns. In the loop nothing but `IsOk` is tested after a
null message, and no call of the socket has failed. -/
def returned (c : ClientConnection) (own : NetworkId) (sent admitted : Bool) (bytes : Bytes)
    (msg : Option Message) : ClientConnection :=
  let c := { c with receiving := .start, calls := c.calls ++ [(bytes, msg)] }
  if c.stage = .handshake then c.finishHandshake own sent admitted msg else c

def receives (c : ClientConnection) : Bool := c.stage = .handshake ∨ c.stage = .loop

def next (own : NetworkId) (c : ClientConnection) : Action → Option ClientConnection
  | .recv chunk sent admitted =>
    if c.receives ∧ c.receiving.Accepts chunk then
      let c' := { c with stream := c.stream ++ chunk }
      match c.receiving.recv chunk with
      | .waits r => some { c' with receiving := r }
      | .returns msg => some (c'.returned own sent admitted (c.receiving.bytes ++ chunk) msg)
    else none
  | .recvFails =>
    if c.receives then
      some { c with
        stage := .dropped
        receiving := .start
        calls := c.calls ++ [(c.receiving.bytes, c.receiving.failed)] }
    else none
  | .leaveLoop => if c.receives then some { c with stage := .dropped } else none

/-- What the receive path owes to its process. -/
structure Survives (c : ClientConnection) : Prop where
  stream : ∃ more, c.stream = (c.calls.flatMap fun e => e.1) ++ more
  content : ∀ e ∈ c.calls, ∀ msg, e.2 = some msg →
    e.1 = headerBytes msg.type msg.length ++ msg.content ∧ msg.content.length = msg.length.toNat
  final : c.calls.Pairwise fun e e' => e.2 = none → e'.2 = none
  alive : c.stage ≠ .exited

/-- If the bytes complete the header of an INITIAL message, the message is not empty. -/
def InitialNamed : Receiving → Bytes → Prop
  | .header got, chunk => (got ++ chunk).length = headerSize →
    headerType (got ++ chunk) = messageTypeInitial → headerLength (got ++ chunk) ≠ 0
  | .content _ _, _ => True

/-- Headers announce lengths that an `int` can hold, and the handshake brings an id. -/
def PeerBehaves (c : ClientConnection) : Action → Prop
  | .recv chunk _ _ =>
    c.receiving.HeaderFits chunk ∧ (c.stage = .handshake → InitialNamed c.receiving chunk)
  | .recvFails | .leaveLoop => True

instance : ∀ (r : Receiving) (chunk : Bytes), Decidable (InitialNamed r chunk)
  | .header _, _ => inferInstanceAs (Decidable (_ → _ → _))
  | .content _ _, _ => inferInstanceAs (Decidable True)

instance (c : ClientConnection) : DecidablePred c.PeerBehaves
  | .recv _ _ _ => inferInstanceAs (Decidable (_ ∧ _))
  | .recvFails | .leaveLoop => inferInstanceAs (Decidable True)

def Named : Receiving → Prop
  | .header _ => True
  | .content head _ => headerType head = messageTypeInitial → headerLength head ≠ 0

structure Received (c : ClientConnection) : Prop extends c.Survives where
  inLoop : c.receives = true → c.receiving.InLoop ∧ c.calls.all (fun e => e.2.isSome) = true ∧
    c.stream = (c.calls.flatMap fun e => e.1) ++ c.receiving.bytes
  named : c.stage = .handshake → Named c.receiving

theorem received_start : start.Received where
  stream := ⟨[], rfl⟩
  content := by simp [start]
  final := .nil
  alive := by simp [start]
  inLoop _ := ⟨Receiving.inLoop_start, rfl, rfl⟩
  named _ := trivial

/-- `recv` keeps what is known of the message, and a returned INITIAL message has an id. -/
theorem named_recv {r : Receiving} {chunk : Bytes} (hnamed : Named r)
    (hinitial : InitialNamed r chunk) :
    (∀ r', r.recv chunk = .waits r' → Named r') ∧
      ∀ msg, r.recv chunk = .returns (some msg) → msg.type = messageTypeInitial →
        msg.length ≠ 0 := by
  have hcontent : ∀ head got : Bytes,
      (headerType head = messageTypeInitial → headerLength head ≠ 0) →
      (∀ r', Receiving.continueContent head got = .waits r' → Named r') ∧
        ∀ msg, Receiving.continueContent head got = .returns (some msg) →
          msg.type = messageTypeInitial → msg.length ≠ 0 := by
    intro head got hhead
    rw [Receiving.continueContent]
    constructor
    · intro r' hr'
      split at hr'
      · split at hr' <;> cases hr'
      · cases hr'
        exact hhead
    · intro msg hmsg
      split at hmsg
      · split at hmsg
        · cases hmsg
          exact hhead
        · cases hmsg
      · cases hmsg
  cases r with
  | header got =>
    rw [Receiving.recv]
    split
    · rename_i hdone
      exact hcontent (got ++ chunk) [] (hinitial hdone)
    · constructor
      · rintro _ ⟨⟩
        trivial
      · rintro _ ⟨⟩
  | content head got => exact hcontent head (got ++ chunk) hnamed

theorem Received.waits {c : ClientConnection} (h : c.Received) (hreceives : c.receives = true)
    {r : Receiving} {chunk : Bytes} (hloop : r.InLoop)
    (hbytes : r.bytes = c.receiving.bytes ++ chunk) (hnamed : c.stage = .handshake → Named r) :
    Received { c with stream := c.stream ++ chunk, receiving := r } := by
  obtain ⟨-, hsome, hstream⟩ := h.inLoop hreceives
  have hstream' : c.stream ++ chunk = (c.calls.flatMap fun e => e.1) ++ r.bytes := by
    rw [hstream, hbytes, List.append_assoc]
  exact ⟨⟨⟨_, hstream'⟩, h.content, h.final, h.alive⟩, fun _ => ⟨hloop, hsome, hstream'⟩, hnamed⟩

theorem Received.call {c : ClientConnection} (h : c.Received) (hreceives : c.receives = true)
    {c' : ClientConnection} (chunk : Bytes) (result : Option Message)
    (hcalls : c'.calls = c.calls ++ [(c.receiving.bytes ++ chunk, result)])
    (hstream : c'.stream = c.stream ++ chunk)
    (hresult : ∀ msg, result = some msg →
      msg.frame = c.receiving.bytes ++ chunk ∧ msg.content.length = msg.length.toNat)
    (halive : c'.stage ≠ .exited) (hstart : c'.receiving = .start)
    (hactive : c'.receives = true → result ≠ none) : c'.Received := by
  obtain ⟨-, hsome, hbefore⟩ := h.inLoop hreceives
  have hall : c'.stream = c'.calls.flatMap fun e => e.1 := by
    rw [hstream, hbefore, hcalls, List.flatMap_append]
    simp
  refine ⟨⟨⟨[], by rw [hall, List.append_nil]⟩, ?_, ?_, halive⟩, ?_, ?_⟩
  · intro e he msg hmsg
    rw [hcalls] at he
    cases List.mem_append.mp he with
    | inl he => exact h.content e he msg hmsg
    | inr he =>
      rw [List.mem_singleton.mp he] at hmsg ⊢
      obtain ⟨hframe, hlength⟩ := hresult msg hmsg
      exact ⟨hframe.symm, hlength⟩
  · rw [hcalls, List.pairwise_append]
    refine ⟨h.final, List.pairwise_singleton .., ?_⟩
    intro e he e' _ hnone
    have hmsg := List.all_eq_true.mp hsome e he
    rw [hnone] at hmsg
    cases hmsg
  · intro hreceives'
    rw [hstart]
    refine ⟨Receiving.inLoop_start, ?_, ?_⟩
    · rw [hcalls, List.all_append, hsome]
      simpa using Option.isSome_iff_ne_none.mpr (hactive hreceives')
    · rw [hall]
      exact (List.append_nil _).symm
  · intro _
    rw [hstart]
    trivial

theorem finishHandshake_spec (c : ClientConnection) (own : NetworkId) (sent admitted : Bool)
    {msg : Option Message}
    (hid : ∀ m, msg = some m → m.type = messageTypeInitial → m.content ≠ []) :
    (c.finishHandshake own sent admitted msg).calls = c.calls ∧
      (c.finishHandshake own sent admitted msg).stream = c.stream ∧
      (c.finishHandshake own sent admitted msg).receiving = c.receiving ∧
      (c.finishHandshake own sent admitted msg).stage ≠ .exited ∧
      ((c.finishHandshake own sent admitted msg).receives = true → msg ≠ none) := by
  cases msg with
  | none => exact ⟨rfl, rfl, rfl, by simp [finishHandshake, handshakeRecv],
      by simp [finishHandshake, handshakeRecv, receives]⟩
  | some m =>
    rw [finishHandshake, handshakeRecv]
    split
    · rename_i hresult
      split at hresult
      · cases hresult
        exact ⟨rfl, rfl, rfl, by simp, by simp⟩
      · cases hresult
    · rename_i c' hresult
      split at hresult
      · cases hresult
      · rename_i htype
        cases hresult
        have hne := hid m rfl (not_not.mp htype)
        split
        · refine ⟨rfl, rfl, rfl, ?_, by simp⟩
          simp only [addOrDiscardClient, if_neg hne]
          split_ifs <;> simp
        · exact ⟨rfl, rfl, rfl, by simp, by simp⟩

theorem received_next {own : NetworkId} {c c' : ClientConnection} {a : Action}
    (h : c.Received) (ha : c.PeerBehaves a) (hstep : c.next own a = some c') : c'.Received := by
  cases a with
  | recv chunk sent admitted =>
    obtain ⟨⟨hreceives, haccepts⟩, hstep⟩ := Option.ite_none_right_eq_some.mp hstep
    obtain ⟨hloop, -, -⟩ := h.inLoop hreceives
    rcases Receiving.recv_cases haccepts hloop ha.1 with
      ⟨r, hwaits, hloop', hbytes⟩ | ⟨msg, hreturns, hframe, hsized⟩
    · rw [hwaits] at hstep
      cases hstep
      refine h.waits hreceives hloop' hbytes ?_
      intro hstage
      exact (named_recv (h.named hstage) (ha.2 hstage)).1 r hwaits
    · rw [hreturns] at hstep
      cases hstep
      have hresult : ∀ m, some msg = some m →
          m.frame = c.receiving.bytes ++ chunk ∧ m.content.length = m.length.toNat := by
        rintro _ ⟨⟩
        exact ⟨hframe, hsized.1⟩
      rw [returned]
      dsimp only
      split
      · rename_i hstage
        have hid : ∀ m, some msg = some m → m.type = messageTypeInitial → m.content ≠ [] := by
          rintro _ ⟨⟩ htype hnil
          have hlength := (named_recv (h.named hstage) (ha.2 hstage)).2 msg hreturns htype
          apply hlength
          apply UInt64.toNat_inj.mp
          rw [← hsized.1, hnil]
          rfl
        obtain ⟨hcalls, hstream, hstart, halive, hactive⟩ := finishHandshake_spec
          { c with
            stream := c.stream ++ chunk
            receiving := .start
            calls := c.calls ++ [(c.receiving.bytes ++ chunk, some msg)] } own sent admitted hid
        exact h.call hreceives chunk (some msg) hcalls hstream hresult halive hstart hactive
      · exact h.call hreceives chunk (some msg) rfl rfl hresult h.alive rfl (by simp)
  | recvFails =>
    obtain ⟨hreceives, ⟨⟩⟩ := Option.ite_none_right_eq_some.mp hstep
    have hfailed := (h.inLoop hreceives).1.failed_eq
    exact h.call hreceives [] none (by simp [hfailed]) (by simp) (by simp) (by simp) rfl
      (by simp [receives])
  | leaveLoop =>
    obtain ⟨-, ⟨⟩⟩ := Option.ite_none_right_eq_some.mp hstep
    exact ⟨⟨h.stream, h.content, h.final, by simp⟩, by simp [receives], by simp⟩

theorem receive_path_survives (own : NetworkId) {c : ClientConnection}
    (hrun : Run (next own) PeerBehaves start c) : c.Survives :=
  (hrun.invariant received_start fun _ _ _ h ha hstep => received_next h ha hstep).toSurvives

/-- The handshake of "B" with "A", and a keep-alive message. -/
def helloRun : List Action :=
  [.recv (headerBytes 0 1) true true, .recv idB true true, .recv (headerBytes 4 0) true true]

theorem receive_path_survives_hello :
    ∃ c, Run (next idA) PeerBehaves start c ∧ c.stage = .loop ∧
      c.calls.map (fun e => e.2) = [some (.new 0 idB), some (.new 4 [])] ∧ c.Survives := by
  obtain ⟨c, hc⟩ : ∃ c, runWhile (next idA) PeerBehaves start helloRun = some c :=
    Option.isSome_iff_exists.mp (by decide +kernel)
  have hchecked : ∀ c ∈ runWhile (next idA) PeerBehaves start helloRun, c.stage = .loop ∧
      c.calls.map (fun e => e.2) = [some (.new 0 idB), some (.new 4 [])] := by
    decide +kernel
  obtain ⟨hstage, hcalls⟩ := hchecked c hc
  exact ⟨c, .of_runWhile hc, hstage, hcalls, receive_path_survives idA (.of_runWhile hc)⟩

/-- After the handshake a header announces 2^32 bytes, and the next one none. -/
def oversizedRun : List Action :=
  [.recv (headerBytes 0 1) true true, .recv idB true true,
    .recv (headerBytes 4 (2 ^ 32)) true true, .recv (headerBytes 4 0) true true]

theorem oversized_header_is_skipped :
    ¬ ∀ (own : NetworkId) (c : ClientConnection), Run (next own) (fun _ _ => True) start c →
      c.Survives := by
  intro h
  obtain ⟨c, hc⟩ : ∃ c, runActions (next idA) start oversizedRun = some c :=
    Option.isSome_iff_exists.mp (by decide +kernel)
  have hchecked : ∀ c ∈ runActions (next idA) start oversizedRun,
      ¬ c.calls.Pairwise fun e e' => e.2 = none → e'.2 = none := by
    decide +kernel
  exact hchecked c hc (h idA c (.of_runActions hc fun _ _ _ => trivial)).final

/-- An INITIAL message without an id ends the process. -/
theorem empty_initial_exits (own : NetworkId) :
    ∃ c, Run (next own) (fun _ _ => True) start c ∧ c.stage = .exited :=
  ⟨_, .tail (a := .recv (headerBytes 0 0) true true) .refl trivial rfl, rfl⟩

end ClientConnection

end ParLib.Wire
