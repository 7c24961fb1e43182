import ParLib.Foundations.Runs
import ParLib.Wire.Receive

/-!
# Messages over one connection

One end sends messages one after another, the other receives them in
`ReceiverLoop`. The bytes in between arrive in order; every call of `send` and
`recv` transfers some of what it is asked for, or fails. A failure sets the
error flag of its own end. `ReceiverLoop` tests it and `Message::Send` does not.
-/

namespace ParLib.Wire

set_option autoImplicit false

open Foundations

/-- `sending` holds what is left of the buffers of the running `Message::Send`; `sent` is
the history of these calls. `receiving` is empty once `ReceiverLoop` has ended. -/
structure Link where
  sent : List Message
  sending : List Bytes
  sendError : Bool
  arriving : Bytes
  receiving : Option Receiving
  delivered : List Message

namespace Link

inductive Action
  | startSend (type : Int32) (content : Bytes)
  | send (count : Nat)
  | sendFails
  | recv (count : Nat)
  | recvFails
  | leaveLoop
  deriving DecidableEq, Repr

def start : Link where
  sent := []
  sending := []
  sendError := false
  arriving := []
  receiving := some .start
  delivered := []

/-- `TCPSocket::Send` returns at once when nothing of its buffer is left. -/
def skipSent (buffers : List Bytes) : List Bytes := buffers.dropWhile List.isEmpty

/-- `Message::Receive` returns, and `ReceiverLoop`, with no error so far, calls it again. -/
def receive (s : Link) : Outcome → Link
  | .waits r => { s with receiving := some r }
  | .returns none => { s with receiving := some .start }
  | .returns (some msg) =>
    { s with receiving := some .start, delivered := s.delivered ++ [msg] }

def next (s : Link) : Action → Option Link
  | .startSend type content =>
    if s.sending = [] then
      let msg := Message.new type content
      some { s with
        sent := s.sent ++ [msg]
        sending := [headerBytes msg.type msg.length, msg.content] }
    else none
  | .send count =>
    match s.sending with
    | [] => none
    | buffer :: rest =>
      if 0 < count ∧ count ≤ buffer.length then
        some { s with
          arriving := s.arriving ++ buffer.take count
          sending := skipSent (buffer.drop count :: rest) }
      else none
  | .sendFails => if s.sending = [] then none else some { s with sending := [], sendError := true }
  | .recv count =>
    match s.receiving with
    | none => none
    | some r =>
      if count ≤ s.arriving.length ∧ r.Accepts (s.arriving.take count) then
        some ({ s with arriving := s.arriving.drop count }.receive
          (r.recv (s.arriving.take count)))
      else none
  | .recvFails | .leaveLoop => some { s with receiving := none }

/-- Contents are shorter than 2^31 bytes. -/
def Short (_ : Link) : Action → Prop
  | .startSend _ content => content.length < 2 ^ 31
  | _ => True

/-- Nothing is sent any more once a call of `Message::Send` has failed. -/
def SendsWhileOk (s : Link) : Action → Prop
  | .startSend _ content => content.length < 2 ^ 31 ∧ s.sendError = false
  | _ => True

/-- No call fails, and the loop goes on. -/
def FailureFree (_ : Link) : Action → Prop
  | .startSend _ content => content.length < 2 ^ 31
  | .send _ | .recv _ => True
  | .sendFails | .recvFails | .leaveLoop => False

instance (s : Link) : DecidablePred s.SendsWhileOk
  | .startSend _ _ => inferInstanceAs (Decidable (_ ∧ _))
  | .send _ | .sendFails | .recv _ | .recvFails | .leaveLoop => inferInstanceAs (Decidable True)

instance (s : Link) : DecidablePred s.FailureFree
  | .startSend _ _ => inferInstanceAs (Decidable (_ < _))
  | .send _ | .recv _ => inferInstanceAs (Decidable True)
  | .sendFails | .recvFails | .leaveLoop => inferInstanceAs (Decidable False)

/-- `rest` is what has been sent and not yet delivered, `left` the bytes of it that are not on
the way yet; after a failed call they never will be. -/
structure Framed (s : Link) : Prop where
  sized : ∀ m ∈ s.sent, m.Sized
  failed : s.sendError = true → s.sending = []
  inLoop : ∀ r, s.receiving = some r → r.InLoop
  bytes : ∃ rest left, s.sent = s.delivered ++ rest ∧
    (s.sendError = false → left = s.sending.flatten) ∧
    ∀ r, s.receiving = some r → r.bytes ++ s.arriving ++ left = rest.flatMap Message.frame

theorem flatten_skipSent (buffers : List Bytes) : (skipSent buffers).flatten = buffers.flatten := by
  induction buffers with
  | nil => rfl
  | cons buffer buffers ih =>
    cases buffer with
    | nil => exact ih
    | cons b buffer => rfl

theorem skipSent_ne_nil {buffers rest : List Bytes} {buffer : Bytes}
    (h : skipSent buffers = buffer :: rest) : buffer ≠ [] := by
  induction buffers with
  | nil => cases h
  | cons first buffers ih =>
    cases first with
    | nil => exact ih h
    | cons b first =>
      cases h
      exact List.cons_ne_nil b first

theorem framed_start : start.Framed where
  sized := by simp [start]
  failed := by simp [start]
  inLoop r hr := by
    cases hr
    exact Receiving.inLoop_start
  bytes := ⟨[], [], rfl, fun _ => rfl, by
    rintro r ⟨⟩
    rfl⟩

theorem Framed.startSend {s : Link} (h : s.Framed) (hidle : s.sending = [])
    (hok : s.sendError = false) {m : Message} (hm : m.Sized) :
    Framed { s with
      sent := s.sent ++ [m]
      sending := [headerBytes m.type m.length, m.content] } := by
  obtain ⟨rest, left, hsent, hleft, hbytes⟩ := h.bytes
  rw [hidle] at hleft
  refine ⟨?_, fun herror => ?_, h.inLoop, rest ++ [m], m.frame, ?_, fun _ => ?_, ?_⟩
  · intro m' hm'
    cases List.mem_append.mp hm' with
    | inl hm' => exact h.sized m' hm'
    | inr hm' => rwa [List.mem_singleton.mp hm']
  · rw [hok] at herror
    cases herror
  · rw [hsent, List.append_assoc]
  · simp [Message.frame]
  · intro r hr
    rw [List.flatMap_append, ← hbytes r hr, hleft hok]
    simp

theorem Framed.send {s : Link} (h : s.Framed) {buffer : Bytes} {buffers : List Bytes}
    (hsending : s.sending = buffer :: buffers) (count : Nat) :
    Framed { s with
      arriving := s.arriving ++ buffer.take count
      sending := skipSent (buffer.drop count :: buffers) } := by
  have hok : s.sendError = false := by
    by_contra herror
    rw [h.failed (by simpa using herror)] at hsending
    cases hsending
  obtain ⟨rest, left, hsent, hleft, hbytes⟩ := h.bytes
  refine ⟨h.sized, ?_, h.inLoop, rest, buffer.drop count ++ buffers.flatten, hsent, ?_, ?_⟩
  · intro herror
    rw [hok] at herror
    cases herror
  · intro _
    rw [flatten_skipSent, List.flatten_cons]
  · intro r hr
    rw [← hbytes r hr, hleft hok, hsending, List.flatten_cons]
    simp only [List.append_assoc]
    rw [← List.append_assoc (buffer.take count), List.take_append_drop]

/-- What has been taken completes only headers that were sent. -/
theorem headerFits_of_frames {r : Receiving} {chunk more : Bytes} {msgs : List Message}
    (hsized : ∀ m ∈ msgs, m.Sized) (hloop : r.InLoop)
    (h : r.bytes ++ chunk ++ more = msgs.flatMap Message.frame) : r.HeaderFits chunk := by
  cases r with
  | content head got => trivial
  | header got =>
    intro hdone
    cases msgs with
    | nil =>
      have hnil := congrArg List.length h
      rw [Receiving.bytes, List.length_append, hdone] at hnil
      simp [headerSize] at hnil
    | cons m msgs =>
      have hfirst : got ++ chunk ++ more =
          headerBytes m.type m.length ++ (m.content ++ msgs.flatMap Message.frame) := by
        rw [← List.append_assoc (headerBytes m.type m.length)]
        exact h
      obtain ⟨hheader, -⟩ := List.append_inj hfirst (by rw [hdone, length_headerBytes])
      rw [hheader, headerLength_headerBytes]
      exact (hsized m List.mem_cons_self).2

theorem Framed.recv {s : Link} (h : s.Framed) {r : Receiving} (hr : s.receiving = some r)
    {count : Nat} (haccepts : r.Accepts (s.arriving.take count)) :
    Framed ({ s with arriving := s.arriving.drop count }.receive
      (r.recv (s.arriving.take count))) := by
  obtain ⟨rest, left, hsent, hleft, hbytes⟩ := h.bytes
  have hrest : r.bytes ++ s.arriving.take count ++ (s.arriving.drop count ++ left) =
      rest.flatMap Message.frame := by
    rw [← hbytes r hr, ← List.append_assoc, List.append_assoc r.bytes, List.take_append_drop]
  have hsized : ∀ m ∈ rest, m.Sized := by
    intro m hm
    apply h.sized
    rw [hsent]
    exact List.mem_append_right _ hm
  have hloop := h.inLoop r hr
  rcases Receiving.recv_cases haccepts hloop (headerFits_of_frames hsized hloop hrest) with
    ⟨r', hwaits, hloop', hbytes'⟩ | ⟨m, hreturns, hframe, hm⟩
  · rw [hwaits]
    refine ⟨h.sized, h.failed, ?_, rest, left, hsent, hleft, ?_⟩
    · rintro _ ⟨⟩
      exact hloop'
    · rintro _ ⟨⟩
      change r'.bytes ++ s.arriving.drop count ++ left = _
      rw [hbytes', ← hrest, List.append_assoc]
  · rw [hreturns]
    rw [← hframe] at hrest
    cases rest with
    | nil =>
      have hnil := congrArg List.length hrest
      rw [List.length_append, Message.frame, List.length_append, length_headerBytes] at hnil
      simp [headerSize] at hnil
    | cons m' rest =>
      rw [List.flatMap_cons] at hrest
      obtain ⟨rfl, hmore⟩ := frame_append_inj hm (hsized m' List.mem_cons_self) hrest
      refine ⟨h.sized, h.failed, ?_, rest, left, ?_, hleft, ?_⟩
      · rintro _ ⟨⟩
        exact Receiving.inLoop_start
      · rw [hsent]
        exact (List.append_cons ..)
      · rintro _ ⟨⟩
        exact hmore

theorem Framed.leaveLoop {s : Link} (h : s.Framed) : Framed { s with receiving := none } := by
  obtain ⟨rest, left, hsent, hleft, -⟩ := h.bytes
  exact ⟨h.sized, h.failed, by simp, rest, left, hsent, hleft, by simp⟩

theorem framed_next {s t : Link} {a : Action} (h : s.Framed) (ha : s.SendsWhileOk a)
    (hstep : s.next a = some t) : t.Framed := by
  cases a with
  | startSend type content =>
    obtain ⟨hidle, ⟨⟩⟩ := Option.ite_none_right_eq_some.mp hstep
    exact h.startSend hidle ha.2 (Message.sized_new ha.1)
  | send count =>
    rw [next] at hstep
    split at hstep
    · cases hstep
    · rename_i buffer buffers hsending
      obtain ⟨-, ⟨⟩⟩ := Option.ite_none_right_eq_some.mp hstep
      exact h.send hsending count
  | sendFails =>
    obtain ⟨-, ⟨⟩⟩ := Option.ite_none_left_eq_some.mp hstep
    obtain ⟨rest, left, hsent, -, hbytes⟩ := h.bytes
    exact ⟨h.sized, fun _ => rfl, h.inLoop, rest, left, hsent, by simp, hbytes⟩
  | recv count =>
    rw [next] at hstep
    split at hstep
    · cases hstep
    · rename_i r hr
      obtain ⟨⟨-, haccepts⟩, ⟨⟩⟩ := Option.ite_none_right_eq_some.mp hstep
      exact h.recv hr haccepts
  | recvFails | leaveLoop =>
    cases hstep
    exact h.leaveLoop

/-- With nothing left to arrive, no sent message waits to be delivered. -/
theorem Framed.delivered_eq {s : Link} (h : s.Framed) (hok : s.sendError = false)
    (hlooping : s.receiving ≠ none) (hsending : s.sending = []) (harriving : s.arriving = []) :
    s.delivered = s.sent := by
  obtain ⟨rest, left, hsent, hleft, hbytes⟩ := h.bytes
  obtain ⟨r, hr⟩ := Option.ne_none_iff_exists'.mp hlooping
  have hframes := hbytes r hr
  rw [harriving, hleft hok, hsending] at hframes
  simp only [List.append_nil, List.flatten_nil] at hframes
  cases rest with
  | nil => rw [hsent, List.append_nil]
  | cons m rest =>
    exfalso
    have hm : m.Sized := h.sized m (by simp [hsent])
    rw [List.flatMap_cons, Message.frame, List.append_assoc] at hframes
    have hloop := h.inLoop r hr
    cases r with
    | header got =>
      have hlen := congrArg List.length hframes
      have hgot : got.length < headerSize := hloop
      rw [Receiving.bytes, List.length_append, length_headerBytes] at hlen
      omega
    | content head got =>
      obtain ⟨hhead, -, hgot⟩ := hloop
      rw [Receiving.bytes] at hframes
      obtain ⟨rfl, rfl⟩ := List.append_inj hframes (by rw [hhead, length_headerBytes])
      rw [headerLength_headerBytes, ← hm.1, List.length_append] at hgot
      omega

theorem sendOk_next {s t : Link} {a : Action} (ha : s.FailureFree a) (hstep : s.next a = some t)
    (h : s.sendError = false ∧ s.receiving ≠ none) :
    t.sendError = false ∧ t.receiving ≠ none := by
  cases a with
  | startSend type content =>
    obtain ⟨-, ⟨⟩⟩ := Option.ite_none_right_eq_some.mp hstep
    exact h
  | send count =>
    rw [next] at hstep
    split at hstep
    · cases hstep
    · obtain ⟨-, ⟨⟩⟩ := Option.ite_none_right_eq_some.mp hstep
      exact h
  | recv count =>
    rw [next] at hstep
    split at hstep
    · cases hstep
    · obtain ⟨-, ⟨⟩⟩ := Option.ite_none_right_eq_some.mp hstep
      rw [receive.eq_def]
      split <;> exact ⟨h.1, by simp⟩
  | sendFails | recvFails | leaveLoop => exact ha.elim

theorem framing_delivers_what_was_sent (s : Link) :
    (Run next SendsWhileOk start s → s.delivered <+: s.sent) ∧
      (Run next FailureFree start s → s.sending = [] → s.arriving = [] →
        s.delivered = s.sent) := by
  constructor
  · intro hrun
    have h : s.Framed := hrun.invariant framed_start fun t a u h ha hstep => framed_next h ha hstep
    obtain ⟨rest, -, hsent, -⟩ := h.bytes
    exact ⟨rest, hsent.symm⟩
  · intro hrun hsending harriving
    obtain ⟨h, hok, hlooping⟩ := hrun.invariant
      (P := fun s => s.Framed ∧ s.sendError = false ∧ s.receiving ≠ none)
      ⟨framed_start, rfl, by simp [start]⟩ fun t a u h ha hstep => by
        have ha' : t.SendsWhileOk a := by
          cases a with
          | startSend type content => exact ⟨ha, h.2.1⟩
          | send | sendFails | recv | recvFails | leaveLoop => trivial
        exact ⟨framed_next h.1 ha' hstep, sendOk_next ha hstep h.2⟩
    exact h.delivered_eq hok hlooping hsending harriving

/-- An empty message and one of two bytes, sent and received in parts. -/
def partsRun : List Action :=
  [.startSend 4 [], .send 5, .recv 3, .send 7, .startSend 6 [1, 2], .send 12, .recv 9, .recv 12]

theorem messages_of_two_links :
    (∃ s, Run next SendsWhileOk start s ∧ s.sendError = true ∧
      s.delivered = [.new 4 []] ∧ s.delivered <+: s.sent) ∧
    ∃ s, Run next FailureFree start s ∧ s.sent = [.new 4 [], .new 6 [1, 2]] ∧
      s.delivered = s.sent := by
  obtain ⟨s, hs⟩ : ∃ s, runWhile next SendsWhileOk start (partsRun ++ [.sendFails, .recvFails]) =
      some s := Option.isSome_iff_exists.mp (by decide +kernel)
  obtain ⟨t, ht⟩ : ∃ t, runWhile next FailureFree start (partsRun ++ [.send 2, .recv 2]) =
      some t := Option.isSome_iff_exists.mp (by decide +kernel)
  have hchecked : ∀ s ∈ runWhile next SendsWhileOk start (partsRun ++ [.sendFails, .recvFails]),
      s.sendError = true ∧ s.delivered = [.new 4 []] := by
    decide +kernel
  have hdone : ∀ t ∈ runWhile next FailureFree start (partsRun ++ [.send 2, .recv 2]),
      t.sent = [.new 4 [], .new 6 [1, 2]] ∧ t.sending = [] ∧ t.arriving = [] := by
    decide +kernel
  obtain ⟨herror, hdelivered⟩ := hchecked s hs
  obtain ⟨hsent, hsending, harriving⟩ := hdone t ht
  have hprefix := (framing_delivers_what_was_sent s).1 (.of_runWhile hs)
  have hall := (framing_delivers_what_was_sent t).2 (.of_runWhile ht) hsending harriving
  exact ⟨⟨s, .of_runWhile hs, herror, hdelivered, hprefix⟩, t, .of_runWhile ht, hsent, hall⟩

/-- The content of an assignment is not sent any more, but the next keep-alive message is. -/
def keepAliveRun : List Action :=
  [.startSend 6 [0, 0, 0, 0], .send 12, .sendFails, .startSend 4 [], .send 12, .recv 12, .recv 4]

theorem keep_alive_delivered_as_assignment :
    ¬ ∀ s, Run next Short start s → s.delivered <+: s.sent := by
  intro h
  obtain ⟨s, hs⟩ : ∃ s, runActions next start keepAliveRun = some s :=
    Option.isSome_iff_exists.mp (by decide +kernel)
  have hchecked : ∀ s ∈ runActions next start keepAliveRun,
      s.sent = [.new 6 [0, 0, 0, 0], .new 4 []] ∧ s.delivered = [.new 6 [4, 0, 0, 0]] := by
    decide +kernel
  obtain ⟨hsent, hdelivered⟩ := hchecked s hs
  have hprefix := h s (.of_runActions hs (by simp [keepAliveRun, Short]))
  rw [hsent, hdelivered] at hprefix
  exact absurd hprefix (by decide)

end Link

end ParLib.Wire
