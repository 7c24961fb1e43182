import ParLib.Wire.Framing
import ParLib.Wire.PeerBytes

/-!
# Opening a connection

The accepting end greets with one byte, which tells the connecting end that there is a
server. Then the connecting end sends its id and receives the other's, and the accepting
end receives first and sends then. An end that has finished may send at once, while the
other end is still in its handshake.
-/

namespace ParLib.Wire.Handshake

set_option autoImplicit false

open Foundations

inductive Side
  | client
  | server
  deriving DecidableEq, Repr

def Side.other : Side → Side
  | .client => .server
  | .server => .client

@[simp]
theorem Side.other_other (e : Side) : e.other.other = e := by
  cases e <;> rfl

theorem Side.other_ne (e : Side) : e.other ≠ e := by
  cases e <;> exact Side.noConfusion

/-- `greet` is the `Send` of `AcceptLoop`, `check` the `Receive` of `CheckForServer`. -/
inductive Step
  | greet
  | check
  | send (buffers : List Bytes)
  | recv (r : Receiving)
  | established
  | dropped
  deriving DecidableEq, Repr

/-- `arriving` holds what is on the way to an end. `later` is the history of what an end
has sent after its handshake. -/
structure Opening where
  step : Side → Step
  networkId : Side → Bytes
  arriving : Side → Bytes
  later : Side → Bytes

inductive Action
  | send (e : Side) (count : Nat)
  | recv (e : Side) (count : Nat)
  | sendLater (e : Side) (bytes : Bytes)
  deriving DecidableEq, Repr

def greeting : Byte := 66

def initialMsg (id : Bytes) : Message := .new messageTypeInitial id

/-- The buffers of `HandshakeSend`. -/
def initialBuffers (id : Bytes) : List Bytes :=
  [headerBytes (initialMsg id).type (initialMsg id).length, (initialMsg id).content]

/-- What follows a greeting, or `HandshakeSend`. -/
def afterSend : Side → Step → Step
  | .client, _ => .recv .start
  | .server, .greet => .recv .start
  | .server, _ => .established

/-- What follows `HandshakeRecv`. -/
def afterRecv (id : Bytes) : Side → Step
  | .client => .established
  | .server => .send (initialBuffers id)

def start : Opening where
  step
    | .client => .check
    | .server => .greet
  networkId _ := []
  arriving _ := []
  later _ := []

namespace Opening

def setStep (s : Opening) (e : Side) (step : Step) : Opening :=
  { s with step := Function.update s.step e step }

def setArriving (s : Opening) (e : Side) (bytes : Bytes) : Opening :=
  { s with arriving := Function.update s.arriving e bytes }

section Setters

variable (s : Opening) (e : Side)

@[simp]
theorem setStep_other (step : Step) : (s.setStep e step).step e.other = s.step e.other :=
  Function.update_of_ne e.other_ne ..

@[simp]
theorem setStep_arriving (step : Step) : (s.setStep e step).arriving = s.arriving := rfl

@[simp]
theorem setArriving_self (bytes : Bytes) : (s.setArriving e bytes).arriving e = bytes :=
  Function.update_self ..

@[simp]
theorem setArriving_other (bytes : Bytes) :
    (s.setArriving e bytes).arriving e.other = s.arriving e.other :=
  Function.update_of_ne e.other_ne ..

@[simp]
theorem setArriving_step (bytes : Bytes) : (s.setArriving e bytes).step = s.step := rfl

end Setters

/-- `HandshakeRecv`, from the result of one `recv` on. -/
def receive (s : Opening) (ids : Side → Bytes) (e : Side) : Outcome → Opening
  | .waits r => s.setStep e (.recv r)
  | .returns none => s.setStep e .dropped
  | .returns (some msg) =>
    if msg.type ≠ messageTypeInitial then s.setStep e .dropped
    else { s with networkId := Function.update s.networkId e msg.content }.setStep e
      (afterRecv (ids e) e)

def next (ids : Side → Bytes) (s : Opening) : Action → Option Opening
  | .send e count =>
    match s.step e with
    | .greet =>
      if count = 1 then
        some ((s.setArriving e.other (s.arriving e.other ++ [greeting])).setStep e
          (afterSend e .greet))
      else none
    | .send (buffer :: rest) =>
      if 0 < count ∧ count ≤ buffer.length then
        let left := Link.skipSent (buffer.drop count :: rest)
        some ((s.setArriving e.other (s.arriving e.other ++ buffer.take count)).setStep e
          (if left = [] then afterSend e (.send []) else .send left))
      else none
    | _ => none
  | .recv e count =>
    match s.step e with
    | .check =>
      match s.arriving e with
      | [] => none
      | b :: bytes =>
        if count = 1 then
          some ((s.setArriving e bytes).setStep e
            (if b = greeting then .send (initialBuffers (ids e)) else .dropped))
        else none
    | .recv r =>
      if count ≤ (s.arriving e).length ∧ r.Accepts ((s.arriving e).take count) then
        some ((s.setArriving e ((s.arriving e).drop count)).receive ids e
          (r.recv ((s.arriving e).take count)))
      else none
    | _ => none
  | .sendLater e bytes =>
    if s.step e = .established then
      some { s.setArriving e.other (s.arriving e.other ++ bytes) with
        later := Function.update s.later e (s.later e ++ bytes) }
    else none

end Opening

/-- What an end sends during the handshake. -/
def plan (ids : Side → Bytes) : Side → Bytes
  | .client => (initialMsg (ids .client)).frame
  | .server => greeting :: (initialMsg (ids .server)).frame

/-- What an end has received in its current step and before. -/
def received (ids : Side → Bytes) : Side → Step → Bytes
  | .client, .send _ => [greeting]
  | .client, .recv r => greeting :: r.bytes
  | .server, .recv r => r.bytes
  | .server, .send _ => plan ids .client
  | .client, .established => plan ids .server
  | .server, .established => plan ids .client
  | _, _ => []

/-- What an end still has to send from its current step on. -/
def unsent (ids : Side → Bytes) : Side → Step → Bytes
  | _, .send buffers => buffers.flatten
  | e, .greet | e, .check => plan ids e
  | .server, .recv _ => (initialMsg (ids .server)).frame
  | _, _ => []

/-- The steps that an end can be in, and what it knows there. -/
def Placed (ids : Side → Bytes) (e : Side) (networkId : Bytes) : Step → Prop
  | .greet => e = .server
  | .check => e = .client
  | .send buffers => buffers ≠ [] ∧ (∀ buffer rest, buffers = buffer :: rest → buffer ≠ []) ∧
      (e = .server → networkId = ids e.other)
  | .recv r => r.InLoop
  | .established => networkId = ids e.other
  | .dropped => False

/-- Nothing has been received that was not meant for the handshake. -/
structure Aligned (ids : Side → Bytes) (s : Opening) : Prop where
  placed : ∀ e, Placed ids e (s.networkId e) (s.step e)
  bytes : ∀ e, received ids e (s.step e) ++ s.arriving e ++ unsent ids e.other (s.step e.other) =
    plan ids e.other ++ s.later e.other
  quiet : ∀ e, s.later e ≠ [] → s.step e = .established

variable {ids : Side → Bytes} {s t : Opening}

theorem aligned_start : Aligned ids start where
  placed e := by cases e <;> rfl
  bytes e := by cases e <;> simp [start, received, unsent, Side.other]
  quiet _ h := absurd rfl h

theorem Side.eq_or_other (e e' : Side) : e' = e ∨ e' = e.other := by
  cases e <;> cases e' <;> simp [Side.other]

/-- An end sends a part of what it has planned. -/
theorem Aligned.sends (h : Aligned ids s) {e : Side} {chunk : Bytes} {step : Step}
    (hunsent : unsent ids e (s.step e) = chunk ++ unsent ids e step)
    (hreceived : received ids e step = received ids e (s.step e))
    (hplaced : Placed ids e (s.networkId e) step) (hbusy : s.step e ≠ .established) :
    Aligned ids ((s.setArriving e.other (s.arriving e.other ++ chunk)).setStep e step) := by
  have hself : Function.update s.step e step e = step := Function.update_self ..
  have hother : Function.update s.step e step e.other = s.step e.other :=
    Function.update_of_ne e.other_ne ..
  constructor
  · intro e'
    change Placed ids e' (s.networkId e') (Function.update s.step e step e')
    rcases e.eq_or_other e' with rfl | rfl
    · rwa [hself]
    · rw [hother]
      exact h.placed e.other
  · intro e'
    change received ids e' (Function.update s.step e step e') ++
      Function.update s.arriving e.other (s.arriving e.other ++ chunk) e' ++
        unsent ids e'.other (Function.update s.step e step e'.other) = _
    rcases e.eq_or_other e' with rfl | rfl
    · rw [hself, hother, hreceived, Function.update_of_ne e'.other_ne.symm]
      exact h.bytes e'
    · have hbytes := h.bytes e.other
      rw [Side.other_other, hunsent] at hbytes
      rw [Side.other_other, hself, hother, Function.update_self]
      refine Eq.trans ?_ hbytes
      simp only [List.append_assoc]
  · intro e' hlater
    rcases e.eq_or_other e' with rfl | rfl
    · exact absurd (h.quiet e' hlater) hbusy
    · exact hother.trans (h.quiet e.other hlater)

/-- An end receives a part of what is on the way to it. -/
theorem Aligned.receives (h : Aligned ids s) {e : Side} {chunk rest : Bytes} (step : Step)
    (networkId : Bytes) (harriving : s.arriving e = chunk ++ rest)
    (hreceived : received ids e step = received ids e (s.step e) ++ chunk)
    (hunsent : unsent ids e step = unsent ids e (s.step e)) (hplaced : Placed ids e networkId step)
    (hbusy : s.step e ≠ .established) (hstep : t.step = Function.update s.step e step)
    (hnetworkId : t.networkId = Function.update s.networkId e networkId)
    (hrest : t.arriving = Function.update s.arriving e rest) (hlater : t.later = s.later) :
    Aligned ids t := by
  have hself : t.step e = step := by rw [hstep, Function.update_self]
  have hother : t.step e.other = s.step e.other := by
    rw [hstep, Function.update_of_ne e.other_ne]
  constructor
  · intro e'
    rcases e.eq_or_other e' with rfl | rfl
    · rwa [hself, hnetworkId, Function.update_self]
    · rw [hother, hnetworkId, Function.update_of_ne e.other_ne]
      exact h.placed e.other
  · intro e'
    rcases e.eq_or_other e' with rfl | rfl
    · have hbytes := h.bytes e'
      rw [harriving] at hbytes
      rw [hself, hother, hreceived, hrest, Function.update_self, hlater, ← hbytes]
      simp only [List.append_assoc]
    · rw [Side.other_other, hself, hother, hunsent, hrest, Function.update_of_ne e.other_ne, hlater]
      have hbytes := h.bytes e.other
      rwa [Side.other_other] at hbytes
  · intro e' hlate
    rw [hlater] at hlate
    rcases e.eq_or_other e' with rfl | rfl
    · exact absurd (h.quiet e' hlate) hbusy
    · rw [hother]
      exact h.quiet e.other hlate

theorem flatten_initialBuffers (id : Bytes) :
    (initialBuffers id).flatten = (initialMsg id).frame := by
  simp [initialBuffers, Message.frame]

theorem placed_initialBuffers {e : Side} {networkId : Bytes}
    (hnamed : e = .server → networkId = ids e.other) (id : Bytes) :
    Placed ids e networkId (.send (initialBuffers id)) := by
  refine ⟨List.cons_ne_nil _ _, ?_, hnamed⟩
  rintro buffer rest ⟨⟩
  exact headerBytes_ne_nil _ _

/-- What an end in `HandshakeRecv` gets is the message it waits for, and what comes after it. -/
theorem Aligned.frame (h : Aligned ids s) {e : Side} {r : Receiving} (hstep : s.step e = .recv r) :
    r.bytes ++ s.arriving e ++ unsent ids e.other (s.step e.other) =
      (initialMsg (ids e.other)).frame ++ s.later e.other := by
  have hbytes := h.bytes e
  rw [hstep] at hbytes
  cases e with
  | client => exact (List.cons.inj hbytes).2
  | server => exact hbytes

/-- What has been taken of a message completes no other header. -/
theorem headerFits_of_frame {r : Receiving} {chunk more rest : Bytes} {m : Message} (hm : m.Sized)
    (h : r.bytes ++ chunk ++ more = m.frame ++ rest) : r.HeaderFits chunk := by
  cases r with
  | content head got => trivial
  | header got =>
    intro hdone
    have hfirst : got ++ chunk ++ more = headerBytes m.type m.length ++ (m.content ++ rest) := by
      rw [← List.append_assoc (headerBytes m.type m.length)]
      exact h
    obtain ⟨hheader, -⟩ := List.append_inj hfirst (by rw [hdone, length_headerBytes])
    rw [hheader, headerLength_headerBytes]
    exact hm.2

theorem Aligned.recv (h : Aligned ids s) (hids : ∀ e, (ids e).length < 2 ^ 31) {e : Side}
    {r : Receiving} (hstep : s.step e = .recv r) {count : Nat}
    (haccepts : r.Accepts ((s.arriving e).take count)) :
    Aligned ids ((s.setArriving e ((s.arriving e).drop count)).receive ids e
      (r.recv ((s.arriving e).take count))) := by
  have hloop : r.InLoop := by
    have hplaced := h.placed e
    rwa [hstep] at hplaced
  have hm : (initialMsg (ids e.other)).Sized := Message.sized_new (hids e.other)
  have hframe : r.bytes ++ (s.arriving e).take count ++ ((s.arriving e).drop count ++
      unsent ids e.other (s.step e.other)) =
        (initialMsg (ids e.other)).frame ++ s.later e.other := by
    rw [← h.frame hstep, ← List.append_assoc, List.append_assoc r.bytes, List.take_append_drop]
  have hbusy : s.step e ≠ .established := by
    rw [hstep]
    exact Step.noConfusion
  have hparts : s.arriving e = (s.arriving e).take count ++ (s.arriving e).drop count :=
    (List.take_append_drop ..).symm
  rcases Receiving.recv_cases haccepts hloop (headerFits_of_frame hm hframe) with
    ⟨r', hwaits, hloop', hbytes⟩ | ⟨m, hreturns, hframe', hsized⟩
  · rw [hwaits]
    refine h.receives (.recv r') (s.networkId e) hparts ?_ ?_ hloop' hbusy rfl
      (Function.update_eq_self ..).symm rfl rfl
    · rw [hstep]
      cases e <;> simp [received, hbytes]
    · rw [hstep]
      cases e <;> rfl
  · rw [← hframe'] at hframe
    obtain ⟨rfl, -⟩ := frame_append_inj hsized hm hframe
    rw [hreturns]
    have htype : ¬ (initialMsg (ids e.other)).type ≠ messageTypeInitial := not_not.mpr rfl
    rw [Opening.receive, if_neg htype]
    refine h.receives (afterRecv (ids e) e) (ids e.other) hparts ?_ ?_ ?_ hbusy
      rfl rfl rfl rfl
    · rw [hstep]
      cases e with
      | client => exact congrArg (List.cons greeting) hframe'
      | server => exact hframe'
    · rw [hstep]
      cases e with
      | client => rfl
      | server => exact flatten_initialBuffers _
    · cases e with
      | client => rfl
      | server => exact placed_initialBuffers (fun _ => rfl) _

theorem Aligned.send (h : Aligned ids s) {e : Side} {buffer : Bytes} {rest : List Bytes}
    (hstep : s.step e = .send (buffer :: rest)) (count : Nat) :
    let left := Link.skipSent (buffer.drop count :: rest)
    Aligned ids ((s.setArriving e.other (s.arriving e.other ++ buffer.take count)).setStep e
      (if left = [] then afterSend e (.send []) else .send left)) := by
  intro left
  have hleft : buffer ++ rest.flatten = buffer.take count ++ left.flatten := by
    rw [Link.flatten_skipSent, List.flatten_cons, ← List.append_assoc, List.take_append_drop]
  have hnamed : e = .server → s.networkId e = ids e.other := by
    have hplaced := h.placed e
    rw [hstep] at hplaced
    exact hplaced.2.2
  have hbusy : s.step e ≠ .established := by
    rw [hstep]
    exact Step.noConfusion
  split
  · rename_i hdone
    rw [hdone, List.flatten_nil, List.append_nil] at hleft
    refine h.sends ?_ ?_ ?_ hbusy
    · rw [hstep]
      cases e <;> simp [unsent, afterSend, hleft]
    · rw [hstep]
      cases e <;> rfl
    · cases e with
      | client => exact Receiving.inLoop_start
      | server => exact hnamed rfl
  · rename_i hmore
    refine h.sends ?_ ?_ ⟨hmore, fun _ _ => Link.skipSent_ne_nil, hnamed⟩ hbusy
    · rw [hstep]
      cases e <;> exact hleft
    · rw [hstep]
      cases e <;> rfl

theorem Aligned.greet (h : Aligned ids s) {e : Side} (hstep : s.step e = .greet) :
    Aligned ids ((s.setArriving e.other (s.arriving e.other ++ [greeting])).setStep e
      (afterSend e .greet)) := by
  have hserver : e = .server := by
    have hplaced := h.placed e
    rwa [hstep] at hplaced
  subst hserver
  refine h.sends ?_ ?_ Receiving.inLoop_start ?_ <;> rw [hstep]
  · rfl
  · rfl
  · exact Step.noConfusion

theorem Aligned.check (h : Aligned ids s) {e : Side} (hstep : s.step e = .check) {b : Byte}
    {bytes : Bytes} (harriving : s.arriving e = b :: bytes) :
    Aligned ids ((s.setArriving e bytes).setStep e
      (if b = greeting then .send (initialBuffers (ids e)) else .dropped)) := by
  have hclient : e = .client := by
    have hplaced := h.placed e
    rwa [hstep] at hplaced
  subst hclient
  have hbytes := h.bytes .client
  rw [hstep, harriving] at hbytes
  obtain ⟨rfl, -⟩ := List.cons.inj hbytes
  rw [if_pos rfl]
  have hnone : Side.client = .server → s.networkId .client = ids Side.client.other :=
    Side.noConfusion
  refine h.receives (.send (initialBuffers (ids .client))) (s.networkId .client)
    (show s.arriving .client = [greeting] ++ bytes from harriving) ?_ ?_
    (placed_initialBuffers hnone _) ?_ rfl (Function.update_eq_self ..).symm rfl rfl <;> rw [hstep]
  · rfl
  · exact flatten_initialBuffers _
  · exact Step.noConfusion

theorem Aligned.sendLater (h : Aligned ids s) {e : Side} (hstep : s.step e = .established)
    (bytes : Bytes) : Aligned ids { s.setArriving e.other (s.arriving e.other ++ bytes) with
      later := Function.update s.later e (s.later e ++ bytes) } := by
  refine ⟨h.placed, fun e' => ?_, fun e' hlater => ?_⟩
  · change received ids e' (s.step e') ++
      Function.update s.arriving e.other (s.arriving e.other ++ bytes) e' ++
        unsent ids e'.other (s.step e'.other) =
      plan ids e'.other ++ Function.update s.later e (s.later e ++ bytes) e'.other
    rcases e.eq_or_other e' with rfl | rfl
    · rw [Function.update_of_ne e'.other_ne.symm, Function.update_of_ne e'.other_ne]
      exact h.bytes e'
    · have hbytes := h.bytes e.other
      have hnone : unsent ids e .established = [] := by cases e <;> rfl
      rw [Side.other_other, hstep, hnone, List.append_nil] at hbytes
      rw [Side.other_other, Function.update_self, Function.update_self, hstep, hnone,
        List.append_nil, ← List.append_assoc, hbytes, List.append_assoc]
  · rcases e.eq_or_other e' with rfl | rfl
    · exact hstep
    · apply h.quiet e.other
      dsimp only at hlater
      rwa [Function.update_of_ne e.other_ne] at hlater

theorem aligned_next (hids : ∀ e, (ids e).length < 2 ^ 31) {a : Action} (h : Aligned ids s)
    (hstep : s.next ids a = some t) : Aligned ids t := by
  cases a with
  | send e count =>
    rw [Opening.next] at hstep
    split at hstep
    · rename_i hgreet
      obtain ⟨-, ⟨⟩⟩ := Option.ite_none_right_eq_some.mp hstep
      exact h.greet hgreet
    · rename_i buffer rest hsend
      obtain ⟨-, ⟨⟩⟩ := Option.ite_none_right_eq_some.mp hstep
      exact h.send hsend count
    · cases hstep
  | recv e count =>
    rw [Opening.next] at hstep
    split at hstep
    · rename_i hcheck
      split at hstep
      · cases hstep
      · rename_i b bytes harriving
        obtain ⟨-, ⟨⟩⟩ := Option.ite_none_right_eq_some.mp hstep
        exact h.check hcheck harriving
    · rename_i r hrecv
      obtain ⟨⟨-, haccepts⟩, ⟨⟩⟩ := Option.ite_none_right_eq_some.mp hstep
      exact h.recv hids hrecv haccepts
    · cases hstep
  | sendLater e bytes =>
    obtain ⟨hestablished, ⟨⟩⟩ := Option.ite_none_right_eq_some.mp hstep
    exact h.sendLater hestablished bytes

section Progress

/-- What is left to do for an end, each byte counted for its sending and its receipt. -/
def share (ids : Side → Bytes) (s : Opening) (e : Side) : Nat :=
  2 * (unsent ids e (s.step e)).length + (s.arriving e).length

def cost (ids : Side → Bytes) (s : Opening) : Nat := share ids s .client + share ids s .server

theorem cost_eq (ids : Side → Bytes) (s : Opening) (e : Side) :
    cost ids s = share ids s e + share ids s e.other := by
  cases e with
  | client => rfl
  | server => exact Nat.add_comm ..

/-- An end that steps leaves the other one, and has as much to send as it has not sent. -/
theorem Aligned.unsent_length (h : Aligned ids s) (ht : Aligned ids t) {e : Side}
    (hother : t.step e.other = s.step e.other) (hlater : t.later = s.later) :
    (t.arriving e.other).length + (unsent ids e (t.step e)).length =
      (s.arriving e.other).length + (unsent ids e (s.step e)).length := by
  have hbefore := congrArg List.length (h.bytes e.other)
  have hafter := congrArg List.length (ht.bytes e.other)
  rw [Side.other_other, List.length_append, List.length_append] at hbefore
  rw [Side.other_other, List.length_append, List.length_append, hother, hlater] at hafter
  omega

theorem Aligned.cost_sent (h : Aligned ids s) (ht : Aligned ids t) {e : Side} {b : Byte}
    (hother : t.step e.other = s.step e.other) (hlater : t.later = s.later)
    (hself : t.arriving e = s.arriving e) (hsent : t.arriving e.other = s.arriving e.other ++ [b]) :
    cost ids t < cost ids s := by
  have hlength := h.unsent_length ht hother hlater
  rw [hsent, List.length_append, List.length_singleton] at hlength
  rw [cost_eq ids t e, cost_eq ids s e, share, share, share, share, hother, hself, hsent,
    List.length_append, List.length_singleton]
  omega

theorem Aligned.cost_received (h : Aligned ids s) (ht : Aligned ids t) {e : Side} {b : Byte}
    (hother : t.step e.other = s.step e.other) (hlater : t.later = s.later)
    (hself : s.arriving e = b :: t.arriving e) (hsame : t.arriving e.other = s.arriving e.other) :
    cost ids t < cost ids s := by
  have hlength := h.unsent_length ht hother hlater
  rw [hsame] at hlength
  rw [cost_eq ids t e, cost_eq ids s e, share, share, share, share, hother, hself, hsame,
    List.length_cons]
  omega

/-- No message is complete while its receipt goes on. -/
theorem not_frame {r : Receiving} (hloop : r.InLoop) {m : Message} (hm : m.Sized) (rest : Bytes) :
    r.bytes ≠ m.frame ++ rest := by
  intro hbytes
  rw [Message.frame, List.append_assoc] at hbytes
  cases r with
  | header got =>
    have hgot : got.length < headerSize := hloop
    have hlen := congrArg List.length hbytes
    rw [Receiving.bytes, List.length_append, length_headerBytes] at hlen
    omega
  | content head got =>
    obtain ⟨hhead, -, hgot⟩ := hloop
    obtain ⟨rfl, rfl⟩ := List.append_inj (show head ++ got = _ from hbytes) (by
      rw [hhead, length_headerBytes])
    rw [headerLength_headerBytes, ← hm.1, List.length_append] at hgot
    omega

/-- Whoever waits for a message that has been sent completely has something to receive. -/
theorem Aligned.arriving_ne_nil (h : Aligned ids s) (hids : ∀ e, (ids e).length < 2 ^ 31) {e : Side}
    {r : Receiving} (hstep : s.step e = .recv r)
    (hsent : unsent ids e.other (s.step e.other) = []) :
    s.arriving e ≠ [] := by
  intro hnone
  have hframe := h.frame hstep
  rw [hnone, hsent, List.append_nil, List.append_nil] at hframe
  have hloop : r.InLoop := by
    have hplaced := h.placed e
    rwa [hstep] at hplaced
  exact not_frame hloop (Message.sized_new (hids e.other)) _ hframe

theorem receive_keeps (s : Opening) (ids : Side → Bytes) (e : Side) (result : Outcome) :
    (s.receive ids e result).arriving = s.arriving ∧ (s.receive ids e result).later = s.later ∧
      (s.receive ids e result).step e.other = s.step e.other := by
  have hother : ∀ step, Function.update s.step e step e.other = s.step e.other :=
    fun step => Function.update_of_ne e.other_ne ..
  rw [Opening.receive.eq_def]
  split
  · exact ⟨rfl, rfl, hother _⟩
  · exact ⟨rfl, rfl, hother _⟩
  · split <;> exact ⟨rfl, rfl, hother _⟩

theorem Aligned.exists_recv (h : Aligned ids s) (hids : ∀ e, (ids e).length < 2 ^ 31) {e : Side}
    {r : Receiving} (hstep : s.step e = .recv r)
    (hsent : unsent ids e.other (s.step e.other) = []) :
    ∃ t, s.next ids (.recv e 1) = some t ∧ cost ids t < cost ids s := by
  obtain ⟨b, bytes, harriving⟩ := List.exists_cons_of_ne_nil (h.arriving_ne_nil hids hstep hsent)
  have hloop : r.InLoop := by
    have hplaced := h.placed e
    rwa [hstep] at hplaced
  have hnext : s.next ids (.recv e 1) =
      some ((s.setArriving e bytes).receive ids e (r.recv [b])) := by
    simp [Opening.next, hstep, harriving, hloop.accepts_one b]
  obtain ⟨hrest, hlater, hother⟩ := receive_keeps (s.setArriving e bytes) ids e (r.recv [b])
  exact ⟨_, hnext, h.cost_received (e := e) (b := b) (aligned_next hids h hnext) hother hlater
    (by simp [hrest, harriving]) (by simp [hrest])⟩

theorem Aligned.exists_send (h : Aligned ids s) (hids : ∀ e, (ids e).length < 2 ^ 31) {e : Side}
    {step : Step} {b : Byte} (hnext : s.next ids (.send e 1) =
      some ((s.setArriving e.other (s.arriving e.other ++ [b])).setStep e step)) :
    ∃ t, s.next ids (.send e 1) = some t ∧ cost ids t < cost ids s := by
  have hself : (s.setArriving e.other (s.arriving e.other ++ [b])).arriving e = s.arriving e :=
    Function.update_of_ne e.other_ne.symm ..
  exact ⟨_, hnext, h.cost_sent (e := e) (b := b) (aligned_next hids h hnext) (by simp) rfl
    (by simp [hself]) (by simp)⟩

/-- Once the server has greeted, the client finds the greeting. -/
theorem Aligned.exists_check (h : Aligned ids s) (hids : ∀ e, (ids e).length < 2 ^ 31)
    (hstep : s.step .client = .check)
    (hgreeted : (unsent ids .server (s.step .server)).length < (plan ids .server).length) :
    ∃ t, s.next ids (.recv .client 1) = some t ∧ cost ids t < cost ids s := by
  have hlength := congrArg List.length (h.bytes .client)
  rw [hstep] at hlength
  obtain ⟨b, bytes, harriving⟩ : ∃ b bytes, s.arriving .client = b :: bytes := by
    apply List.exists_cons_of_ne_nil
    intro hnone
    rw [hnone] at hlength
    simp only [received, Side.other, List.nil_append, List.length_append] at hlength
    omega
  have hnext : s.next ids (.recv .client 1) = some ((s.setArriving .client bytes).setStep .client
      (if b = greeting then .send (initialBuffers (ids .client)) else .dropped)) := by
    simp only [Opening.next, hstep, harriving]
    rfl
  exact ⟨_, hnext, h.cost_received (e := .client) (b := b) (aligned_next hids h hnext) (by simp) rfl
    (by simp [harriving]) (by simp)⟩

theorem Aligned.step_client (h : Aligned ids s) : s.step .client = .check ∨
    (∃ buffers, s.step .client = .send buffers) ∨ (∃ r, s.step .client = .recv r) ∨
      s.step .client = .established := by
  have hplaced := h.placed .client
  cases hstep : s.step .client with
  | greet =>
    rw [hstep] at hplaced
    cases hplaced
  | dropped =>
    rw [hstep] at hplaced
    exact hplaced.elim
  | check | send | recv | established => simp

theorem Aligned.step_server (h : Aligned ids s) : s.step .server = .greet ∨
    (∃ buffers, s.step .server = .send buffers) ∨ (∃ r, s.step .server = .recv r) ∨
      s.step .server = .established := by
  have hplaced := h.placed .server
  cases hstep : s.step .server with
  | check =>
    rw [hstep] at hplaced
    cases hplaced
  | dropped =>
    rw [hstep] at hplaced
    exact hplaced.elim
  | greet | send | recv | established => simp

/-- Nobody deletes the socket and nobody waits for what the other does not send: until both
have finished, one of them can go on. -/
theorem Aligned.exists_step (h : Aligned ids s) (hids : ∀ e, (ids e).length < 2 ^ 31)
    (hopen : ¬ ∀ e, s.step e = .established) :
    ∃ a t, s.next ids a = some t ∧ (∀ e bytes, a ≠ .sendLater e bytes) ∧
      cost ids t < cost ids s := by
  have hgo : ∀ {a : Action}, (∀ e bytes, a ≠ .sendLater e bytes) →
      (∃ t, s.next ids a = some t ∧ cost ids t < cost ids s) →
      ∃ a t, s.next ids a = some t ∧ (∀ e bytes, a ≠ .sendLater e bytes) ∧
        cost ids t < cost ids s := by
    rintro a ha ⟨t, hnext, hlt⟩
    exact ⟨a, t, hnext, ha, hlt⟩
  have hsend : ∀ e buffers, s.step e = .send buffers →
      ∃ t, s.next ids (.send e 1) = some t ∧ cost ids t < cost ids s := by
    intro e buffers hstep
    have hplaced := h.placed e
    rw [hstep] at hplaced
    obtain ⟨hne, hnonempty, -⟩ := hplaced
    obtain ⟨buffer, rest, rfl⟩ := List.exists_cons_of_ne_nil hne
    obtain ⟨b, more, rfl⟩ := List.exists_cons_of_ne_nil (hnonempty buffer rest rfl)
    apply h.exists_send hids (b := b)
    simp only [Opening.next, hstep]
    rw [if_pos (by simp)]
    rfl
  rcases h.step_server with hserver | ⟨buffers, hserver⟩ | ⟨r, hserver⟩ | hserver
  · apply hgo (a := .send .server 1) (by simp)
    apply h.exists_send hids (b := greeting)
    simp only [Opening.next, hserver]
    rfl
  · exact hgo (by simp) (hsend .server buffers hserver)
  · rcases h.step_client with hclient | ⟨buffers, hclient⟩ | ⟨r', hclient⟩ | hclient
    · apply hgo (by simp) (h.exists_check hids hclient _)
      simp [hserver, unsent, plan]
    · exact hgo (by simp) (hsend .client buffers hclient)
    · exact hgo (by simp) (h.exists_recv hids hserver (by rw [Side.other, hclient]; rfl))
    · exact hgo (by simp) (h.exists_recv hids hserver (by rw [Side.other, hclient]; rfl))
  · rcases h.step_client with hclient | ⟨buffers, hclient⟩ | ⟨r', hclient⟩ | hclient
    · apply hgo (by simp) (h.exists_check hids hclient _)
      simp [hserver, unsent, plan]
    · exact hgo (by simp) (hsend .client buffers hclient)
    · exact hgo (by simp) (h.exists_recv hids hclient (by rw [Side.other, hserver]; rfl))
    · refine absurd (fun e => ?_) hopen
      cases e with
      | client => exact hclient
      | server => exact hserver

end Progress

/-- The handshake goes on, and nobody sends anything else. -/
def Handshaking (_ : Opening) : Action → Prop
  | .send _ _ | .recv _ _ => True
  | .sendLater _ _ => False

/-- Whatever is transferred at a time and sent afterwards: an end that has finished its
handshake knows the other's id, and has left to its receive loop exactly what the other
has sent after its own handshake; nobody drops the connection, and both can finish. -/
theorem handshake_establishes (ids : Side → Bytes) (hids : ∀ e, (ids e).length < 2 ^ 31)
    (hrun : Run (Opening.next ids) (fun _ _ => True) start s) :
    (∀ e, s.step e = .established → s.networkId e = ids e.other ∧ s.arriving e = s.later e.other) ∧
      (∀ e, s.step e ≠ .dropped) ∧
      ∃ t, Run (Opening.next ids) Handshaking s t ∧ ∀ e, t.step e = .established := by
  have h : Aligned ids s :=
    hrun.invariant aligned_start fun _ _ _ h _ hstep => aligned_next hids h hstep
  refine ⟨fun e hstep => ?_, fun e hstep => ?_, ?_⟩
  · have hplaced := h.placed e
    have hbytes := h.bytes e
    rw [hstep] at hplaced hbytes
    refine ⟨hplaced, ?_⟩
    have hall : received ids e .established = plan ids e.other := by cases e <;> rfl
    rw [hall, List.append_assoc] at hbytes
    have hrest := List.append_cancel_left hbytes
    by_cases hlater : s.later e.other = []
    · rw [hlater, List.append_eq_nil_iff] at hrest
      rw [hrest.1, hlater]
    · have hdone : unsent ids e.other (s.step e.other) = [] := by
        rw [h.quiet e.other hlater]
        cases e <;> rfl
      rwa [hdone, List.append_nil] at hrest
  · have hplaced := h.placed e
    rw [hstep] at hplaced
    exact hplaced
  · have hlower : ∀ s : Opening, Aligned ids s → ¬ (∀ e, s.step e = .established) →
        ∃ t, Run (Opening.next ids) Handshaking s t ∧ Aligned ids t ∧ cost ids t < cost ids s := by
      intro s h hopen
      obtain ⟨a, t, hnext, ha, hlt⟩ := h.exists_step hids hopen
      have hgoes : Handshaking s a := by
        cases a with
        | send | recv => trivial
        | sendLater e bytes => exact ha e bytes rfl
      exact ⟨t, .tail .refl hgoes hnext, aligned_next hids h hnext, hlt⟩
    obtain ⟨t, hfinish, -, hdone⟩ := Run.exists_of_measure (cost ids) hlower h
    exact ⟨t, hfinish, hdone⟩

def twoIds : Side → Bytes
  | .client => [65]
  | .server => [66, 67]

/-- The server has finished, and has sent something else before the client has finished. -/
def eagerServer : List Action :=
  [.send .server 1, .recv .client 1, .send .client 12, .recv .server 5, .send .client 1,
    .recv .server 7, .recv .server 1, .send .server 12, .send .server 2, .recv .client 4,
    .sendLater .server [9, 9]]

theorem handshake_establishes_two_ids :
    ∃ s, Run (Opening.next twoIds) (fun _ _ => True) start s ∧ s.step .server = .established ∧
      s.step .client ≠ .established ∧
      (∀ e, s.step e = .established →
        s.networkId e = twoIds e.other ∧ s.arriving e = s.later e.other) ∧
      (∀ e, s.step e ≠ .dropped) ∧
      ∃ t, Run (Opening.next twoIds) Handshaking s t ∧ ∀ e, t.step e = .established := by
  obtain ⟨s, hs⟩ : ∃ s, runActions (Opening.next twoIds) start eagerServer = some s :=
    Option.isSome_iff_exists.mp (by decide +kernel)
  have hchecked : ∀ s ∈ runActions (Opening.next twoIds) start eagerServer,
      s.step .server = .established ∧ s.step .client ≠ .established := by
    decide +kernel
  obtain ⟨hserver, hclient⟩ := hchecked s hs
  have hrun : Run (Opening.next twoIds) (fun _ _ => True) start s :=
    .of_runActions hs fun _ _ _ => trivial
  have hids : ∀ e, (twoIds e).length < 2 ^ 31 := by
    intro e
    cases e <;> decide
  exact ⟨s, hrun, hserver, hclient, handshake_establishes twoIds hids hrun⟩

end ParLib.Wire.Handshake
