import ParLib.Wire.Framing

/-!
# Threads that send on one connection

The main loop, the keep-alive loop, the receiver threads and the computation send to a
client through one `ClientConnection`. `SendMsg`, `SendKeepAlive` and `SendKeepAliveResp`
hold its `_lock` during the two calls of `TCPSocket::Send` that a message takes.
-/

namespace ParLib.Wire

set_option autoImplicit false

open Foundations

/-- `waiting` holds the message that a thread waits with for `_lock`. `called` and `taken`
are histories: the calls of the threads, and those that have got the lock. -/
structure SharedConnection where
  link : Link
  waiting : Nat → Option (Int32 × Bytes)
  holder : Option Nat
  called : List (Nat × Message)
  taken : List (Nat × Message)

/-- What a thread has called for, in its own order. -/
def callsOf (calls : List (Nat × Message)) (thread : Nat) : List Message :=
  calls.filterMap fun e => if e.1 = thread then some e.2 else none

theorem callsOf_append (calls later : List (Nat × Message)) (thread : Nat) :
    callsOf (calls ++ later) thread = callsOf calls thread ++ callsOf later thread :=
  List.filterMap_append

theorem callsOf_singleton (thread other : Nat) (msg : Message) :
    callsOf [(other, msg)] thread = if other = thread then [msg] else [] := by
  by_cases heq : other = thread <;> simp [callsOf, heq]

namespace SharedConnection

inductive Action
  | call (thread : Nat) (type : Int32) (content : Bytes)
  | lock (thread : Nat)
  | send (count : Nat)
  | sendFails
  | unlock
  | recv (count : Nat)
  | recvFails
  | leaveLoop
  deriving DecidableEq, Repr

def start : SharedConnection where
  link := .start
  waiting _ := none
  holder := none
  called := []
  taken := []

def onLink (s : SharedConnection) (a : Link.Action) : Option SharedConnection :=
  (s.link.next a).map fun link => { s with link := link }

def next (s : SharedConnection) : Action → Option SharedConnection
  | .call thread type content =>
    if s.waiting thread = none ∧ s.holder ≠ some thread then
      some { s with
        waiting := Function.update s.waiting thread (some (type, content))
        called := s.called ++ [(thread, .new type content)] }
    else none
  | .lock thread =>
    match s.waiting thread with
    | none => none
    | some (type, content) =>
      if s.holder = none then
        (s.link.next (.startSend type content)).map fun link =>
          { s with
            link := link
            waiting := Function.update s.waiting thread none
            holder := some thread
            taken := s.taken ++ [(thread, .new type content)] }
      else none
  | .send count => s.onLink (.send count)
  | .sendFails => s.onLink .sendFails
  | .unlock =>
    if s.holder ≠ none ∧ s.link.sending = [] then some { s with holder := none } else none
  | .recv count => s.onLink (.recv count)
  | .recvFails => s.onLink .recvFails
  | .leaveLoop => s.onLink .leaveLoop

/-- Contents are short, and nobody goes on to send once a call has failed. -/
def SendsWhileOk (s : SharedConnection) : Action → Prop
  | .call _ _ content => content.length < 2 ^ 31
  | .lock _ => s.link.sendError = false
  | .send _ | .sendFails | .unlock | .recv _ | .recvFails | .leaveLoop => True

/-- No call fails, and the loop goes on. -/
def FailureFree (_ : SharedConnection) : Action → Prop
  | .call _ _ content => content.length < 2 ^ 31
  | .lock _ | .send _ | .unlock | .recv _ => True
  | .sendFails | .recvFails | .leaveLoop => False

instance (s : SharedConnection) : DecidablePred s.SendsWhileOk
  | .call _ _ _ => inferInstanceAs (Decidable (_ < _))
  | .lock _ => inferInstanceAs (Decidable (_ = _))
  | .send _ | .sendFails | .unlock | .recv _ | .recvFails | .leaveLoop =>
    inferInstanceAs (Decidable True)

instance (s : SharedConnection) : DecidablePred s.FailureFree
  | .call _ _ _ => inferInstanceAs (Decidable (_ < _))
  | .lock _ | .send _ | .unlock | .recv _ => inferInstanceAs (Decidable True)
  | .sendFails | .recvFails | .leaveLoop => inferInstanceAs (Decidable False)

def waitingCalls (s : SharedConnection) (thread : Nat) : List Message :=
  ((s.waiting thread).map fun m => Message.new m.1 m.2).toList

/-- The lock has given the connection to one call after the other. -/
structure TakesTurns (s : SharedConnection) : Prop where
  taken : s.taken.map Prod.snd = s.link.sent
  called : ∀ thread, callsOf s.called thread = callsOf s.taken thread ++ s.waitingCalls thread
  short : ∀ thread type content, s.waiting thread = some (type, content) →
    content.length < 2 ^ 31

theorem takesTurns_start : start.TakesTurns where
  taken := rfl
  called _ := rfl
  short := by simp [start]

theorem TakesTurns.onLink {s t : SharedConnection} (h : s.TakesTurns) {a : Link.Action}
    (ha : ∀ type content, a ≠ .startSend type content) (hstep : s.onLink a = some t) :
    t.TakesTurns := by
  obtain ⟨link, hlink, rfl⟩ := Option.map_eq_some_iff.mp hstep
  refine ⟨?_, h.called, h.short⟩
  rw [h.taken]
  symm
  cases a with
  | startSend type content => exact absurd rfl (ha type content)
  | send count =>
    rw [Link.next] at hlink
    split at hlink
    · cases hlink
    · obtain ⟨-, ⟨⟩⟩ := Option.ite_none_right_eq_some.mp hlink
      rfl
  | sendFails =>
    obtain ⟨-, ⟨⟩⟩ := Option.ite_none_left_eq_some.mp hlink
    rfl
  | recv count =>
    rw [Link.next] at hlink
    split at hlink
    · cases hlink
    · obtain ⟨-, ⟨⟩⟩ := Option.ite_none_right_eq_some.mp hlink
      rw [Link.receive.eq_def]
      split <;> rfl
  | recvFails | leaveLoop =>
    cases hlink
    rfl

theorem takesTurns_next {s t : SharedConnection} {a : Action} (h : s.TakesTurns)
    (hshort : ∀ thread type content, a = .call thread type content → content.length < 2 ^ 31)
    (hstep : s.next a = some t) : t.TakesTurns := by
  cases a with
  | call thread type content =>
    obtain ⟨⟨hfree, -⟩, ⟨⟩⟩ := Option.ite_none_right_eq_some.mp hstep
    refine ⟨h.taken, fun other => ?_, fun other type' content' hother => ?_⟩
    · rw [callsOf_append, callsOf_singleton, h.called, waitingCalls, waitingCalls]
      by_cases heq : thread = other
      · subst heq
        simp [hfree]
      · simp [heq, Function.update_of_ne (Ne.symm heq)]
    · dsimp only at hother
      by_cases heq : other = thread
      · subst heq
        rw [Function.update_self] at hother
        cases hother
        exact hshort other type content rfl
      · rw [Function.update_of_ne heq] at hother
        exact h.short other type' content' hother
  | lock thread =>
    rw [next] at hstep
    split at hstep
    · cases hstep
    · rename_i type content hwaiting
      obtain ⟨-, hstep⟩ := Option.ite_none_right_eq_some.mp hstep
      obtain ⟨link, hlink, rfl⟩ := Option.map_eq_some_iff.mp hstep
      obtain ⟨-, ⟨⟩⟩ := Option.ite_none_right_eq_some.mp hlink
      refine ⟨?_, fun other => ?_, fun other type' content' hother => ?_⟩
      · rw [List.map_append, h.taken]
        rfl
      · rw [h.called, callsOf_append, callsOf_singleton, waitingCalls, waitingCalls]
        by_cases heq : thread = other
        · subst heq
          simp [hwaiting]
        · simp [heq, Function.update_of_ne (Ne.symm heq)]
      · dsimp only at hother
        by_cases heq : other = thread
        · subst heq
          rw [Function.update_self] at hother
          cases hother
        · rw [Function.update_of_ne heq] at hother
          exact h.short other type' content' hother
  | unlock =>
    obtain ⟨-, ⟨⟩⟩ := Option.ite_none_right_eq_some.mp hstep
    exact ⟨h.taken, h.called, h.short⟩
  | send | sendFails | recv | recvFails | leaveLoop =>
    exact h.onLink (by simp) hstep

/-- The threads are one sender to the other end. -/
theorem link_step {s t : SharedConnection} {a : Action} (h : s.TakesTurns)
    (hstep : s.next a = some t) :
    t.link = s.link ∨ ∃ b, s.link.next b = some t.link ∧
      (s.SendsWhileOk a → s.link.SendsWhileOk b) ∧ (s.FailureFree a → s.link.FailureFree b) := by
  have honLink : ∀ {b : Link.Action}, s.onLink b = some t → s.link.next b = some t.link := by
    intro b hb
    obtain ⟨link, hlink, rfl⟩ := Option.map_eq_some_iff.mp hb
    exact hlink
  cases a with
  | call thread type content =>
    obtain ⟨-, ⟨⟩⟩ := Option.ite_none_right_eq_some.mp hstep
    exact .inl rfl
  | lock thread =>
    rw [next] at hstep
    split at hstep
    · cases hstep
    · rename_i type content hwaiting
      obtain ⟨-, hstep⟩ := Option.ite_none_right_eq_some.mp hstep
      obtain ⟨link, hlink, rfl⟩ := Option.map_eq_some_iff.mp hstep
      have hshort := h.short thread type content hwaiting
      exact .inr ⟨.startSend type content, hlink, fun hok => ⟨hshort, hok⟩, fun _ => hshort⟩
  | unlock =>
    obtain ⟨-, ⟨⟩⟩ := Option.ite_none_right_eq_some.mp hstep
    exact .inl rfl
  | send count => exact .inr ⟨.send count, honLink hstep, fun h => h, fun h => h⟩
  | sendFails => exact .inr ⟨.sendFails, honLink hstep, fun h => h, fun h => h⟩
  | recv count => exact .inr ⟨.recv count, honLink hstep, fun h => h, fun h => h⟩
  | recvFails => exact .inr ⟨.recvFails, honLink hstep, fun h => h, fun h => h⟩
  | leaveLoop => exact .inr ⟨.leaveLoop, honLink hstep, fun h => h, fun h => h⟩

theorem link_of_run {s : SharedConnection} (hrun : Run next SendsWhileOk start s) :
    s.TakesTurns ∧ Run Link.next Link.SendsWhileOk .start s.link := by
  refine hrun.invariant
    (P := fun s => s.TakesTurns ∧ Run Link.next Link.SendsWhileOk .start s.link)
    ⟨takesTurns_start, .refl⟩ ?_
  rintro t a u ⟨hturns, hlink⟩ ha hstep
  constructor
  · apply takesTurns_next hturns _ hstep
    rintro thread type content rfl
    exact ha
  · cases link_step hturns hstep with
    | inl hsame => rwa [hsame]
    | inr hmove =>
      obtain ⟨b, hb, hok, -⟩ := hmove
      exact hlink.tail (hok ha) hb

/-- Whatever has arrived is a part of the calls in the order in which they got the lock. -/
theorem TakesTurns.arrived {s : SharedConnection} (h : s.TakesTurns) {msgs : List Message}
    (hsent : msgs <+: s.link.sent) : ∃ order, msgs = order.map Prod.snd ∧
      ∀ thread, callsOf order thread <+: callsOf s.called thread := by
  obtain ⟨rest, hrest⟩ := hsent
  refine ⟨s.taken.take msgs.length, ?_, fun thread => ?_⟩
  · rw [List.map_take, h.taken, ← hrest, List.take_left]
  · rw [h.called]
    have htaken : callsOf (s.taken.take msgs.length) thread <+: callsOf s.taken thread :=
      (List.take_prefix msgs.length s.taken).filterMap _
    exact htaken.trans (List.prefix_append _ _)

section Finishing

/-- Nobody calls for anything more, and no call fails. -/
def Finishing (_ : SharedConnection) : Action → Prop
  | .lock _ | .send _ | .unlock | .recv _ => True
  | .call _ _ _ | .sendFails | .recvFails | .leaveLoop => False

/-- Nothing has failed, and the holder of the lock has something to send, or gives it back. -/
structure Lively (s : SharedConnection) : Prop where
  turns : s.TakesTurns
  framed : s.link.Framed
  sendOk : s.link.sendError = false
  looping : s.link.receiving ≠ none
  buffers : ∀ buffer rest, s.link.sending = buffer :: rest → buffer ≠ []
  held : s.holder = none → s.link.sending = []

theorem lively_start : start.Lively where
  turns := takesTurns_start
  framed := Link.framed_start
  sendOk := rfl
  looping := by simp [start, Link.start]
  buffers := by simp [start, Link.start]
  held _ := rfl

theorem lively_next {s t : SharedConnection} {a : Action} (h : s.Lively) (ha : s.FailureFree a)
    (hstep : s.next a = some t) : t.Lively := by
  have hturns : t.TakesTurns := by
    apply takesTurns_next h.turns _ hstep
    rintro thread type content rfl
    exact ha
  have hgoes : t.link.Framed ∧ t.link.sendError = false ∧ t.link.receiving ≠ none := by
    rcases link_step h.turns hstep with hsame | ⟨b, hb, -, hok⟩
    · rw [hsame]
      exact ⟨h.framed, h.sendOk, h.looping⟩
    · have hb' : s.link.SendsWhileOk b := by
        cases b with
        | startSend type content => exact ⟨hok ha, h.sendOk⟩
        | send | sendFails | recv | recvFails | leaveLoop => trivial
      exact ⟨Link.framed_next h.framed hb' hb, Link.sendOk_next (hok ha) hb ⟨h.sendOk, h.looping⟩⟩
  have hsending : (∀ buffer rest, t.link.sending = buffer :: rest → buffer ≠ []) ∧
      (t.holder = none → t.link.sending = []) := by
    cases a with
    | call thread type content =>
      obtain ⟨-, ⟨⟩⟩ := Option.ite_none_right_eq_some.mp hstep
      exact ⟨h.buffers, h.held⟩
    | lock thread =>
      rw [next] at hstep
      split at hstep
      · cases hstep
      · obtain ⟨-, hstep⟩ := Option.ite_none_right_eq_some.mp hstep
        obtain ⟨link, hlink, rfl⟩ := Option.map_eq_some_iff.mp hstep
        obtain ⟨-, ⟨⟩⟩ := Option.ite_none_right_eq_some.mp hlink
        constructor
        · rintro buffer rest ⟨⟩
          exact headerBytes_ne_nil _ _
        · intro hfree
          cases hfree
    | send count =>
      obtain ⟨link, hlink, rfl⟩ := Option.map_eq_some_iff.mp hstep
      rw [Link.next] at hlink
      split at hlink
      · cases hlink
      · rename_i buffer rest hbuffers
        obtain ⟨-, ⟨⟩⟩ := Option.ite_none_right_eq_some.mp hlink
        refine ⟨fun buffer rest hrest => Link.skipSent_ne_nil hrest, fun hfree => ?_⟩
        rw [h.held hfree] at hbuffers
        cases hbuffers
    | unlock =>
      obtain ⟨⟨-, hdone⟩, ⟨⟩⟩ := Option.ite_none_right_eq_some.mp hstep
      exact ⟨h.buffers, fun _ => hdone⟩
    | recv count =>
      obtain ⟨link, hlink, rfl⟩ := Option.map_eq_some_iff.mp hstep
      rw [Link.next] at hlink
      split at hlink
      · cases hlink
      · obtain ⟨-, ⟨⟩⟩ := Option.ite_none_right_eq_some.mp hlink
        rw [Link.receive.eq_def]
        split <;> exact ⟨h.buffers, h.held⟩
    | sendFails | recvFails | leaveLoop => exact ha.elim
  exact ⟨hturns, hgoes.1, hgoes.2.1, hgoes.2.2, hsending.1, hsending.2⟩

/-- The steps that a waiting call takes at most, each byte counted for its sending and its
receipt. -/
def waitingCost (threads : Finset Nat) (s : SharedConnection) : Nat :=
  ∑ thread ∈ threads, ((s.waitingCalls thread).map fun m => 2 * m.frame.length + 2).sum

def cost (threads : Finset Nat) (s : SharedConnection) : Nat :=
  s.waitingCost threads + 2 * s.link.sending.flatten.length + s.link.arriving.length +
    s.holder.toList.length

/-- Everything called for has been sent and received. -/
structure Done (s : SharedConnection) : Prop where
  waiting : ∀ thread, s.waiting thread = none
  sending : s.link.sending = []
  arriving : s.link.arriving = []

theorem Lively.delivered {s : SharedConnection} (h : s.Lively) (hdone : s.Done) :
    ∃ order, s.link.delivered = order.map Prod.snd ∧
      ∀ thread, callsOf order thread = callsOf s.called thread := by
  refine ⟨s.taken, ?_, fun thread => ?_⟩
  · rw [h.turns.taken, h.framed.delivered_eq h.sendOk h.looping hdone.sending hdone.arriving]
  · rw [h.turns.called, waitingCalls, hdone.waiting]
    simp

theorem waitingCost_lock (s : SharedConnection) {threads : Finset Nat} {thread : Nat}
    (hthread : thread ∈ threads) {type : Int32} {content : Bytes}
    (hwaiting : s.waiting thread = some (type, content)) {t : SharedConnection}
    (ht : t.waiting = Function.update s.waiting thread none) :
    t.waitingCost threads + (2 * (Message.new type content).frame.length + 2) =
      s.waitingCost threads := by
  have hothers : ∀ other ∈ threads.erase thread, t.waitingCalls other = s.waitingCalls other := by
    intro other hother
    rw [waitingCalls, waitingCalls, ht, Function.update_of_ne (Finset.ne_of_mem_erase hother)]
  have hself : t.waitingCalls thread = [] := by
    rw [waitingCalls, ht, Function.update_self]
    rfl
  have hbefore : s.waitingCalls thread = [.new type content] := by
    rw [waitingCalls, hwaiting]
    rfl
  rw [waitingCost, waitingCost, ← Finset.add_sum_erase _ _ hthread,
    ← Finset.add_sum_erase _ _ hthread,
    hself, hbefore, Finset.sum_congr rfl fun other hother => by rw [hothers other hother]]
  simp only [List.map_nil, List.sum_nil, List.map_cons, List.sum_cons]
  omega

theorem Lively.exists_step {s : SharedConnection} (h : s.Lively) {threads : Finset Nat}
    (hthreads : ∀ thread, s.waiting thread ≠ none → thread ∈ threads) (hbusy : ¬ s.Done) :
    ∃ a t, s.next a = some t ∧ s.Finishing a ∧ t.cost threads < s.cost threads ∧
      t.called = s.called ∧ ∀ thread, t.waiting thread ≠ none → s.waiting thread ≠ none := by
  cases harriving : s.link.arriving with
  | cons b more =>
    obtain ⟨r, hr⟩ := Option.ne_none_iff_exists'.mp h.looping
    have haccepts := (h.framed.inLoop r hr).accepts_one b
    have hlink : s.link.next (.recv 1) =
        some ({ s.link with arriving := more }.receive (r.recv [b])) := by
      simp [Link.next, hr, harriving, haccepts]
    refine ⟨.recv 1, { s with link := { s.link with arriving := more }.receive (r.recv [b]) },
      by simp [next, onLink, hlink], trivial, ?_, rfl, fun _ hthread => hthread⟩
    have hkept : ({ s.link with arriving := more }.receive (r.recv [b])).sending = s.link.sending ∧
        ({ s.link with arriving := more }.receive (r.recv [b])).arriving = more := by
      rw [Link.receive.eq_def]
      split <;> exact ⟨rfl, rfl⟩
    simp only [cost, waitingCost, waitingCalls, hkept, harriving, List.length_cons]
    omega
  | nil =>
    cases hsending : s.link.sending with
    | cons buffer rest =>
      obtain ⟨b, more, rfl⟩ := List.exists_cons_of_ne_nil (h.buffers buffer rest hsending)
      have hlink : s.link.next (.send 1) = some { s.link with
          arriving := s.link.arriving ++ [b]
          sending := Link.skipSent (more :: rest) } := by
        simp [Link.next, hsending]
      refine ⟨.send 1, { s with link := { s.link with
        arriving := s.link.arriving ++ [b]
        sending := Link.skipSent (more :: rest) } }, by simp [next, onLink, hlink], trivial, ?_,
        rfl, fun _ hthread => hthread⟩
      simp only [cost, waitingCost, waitingCalls, Link.flatten_skipSent, hsending, harriving,
        List.flatten_cons, List.length_append, List.length_cons, List.length_nil]
      omega
    | nil =>
      cases hholder : s.holder with
      | some holder =>
        refine ⟨.unlock, { s with holder := none }, by simp [next, hholder, hsending], trivial, ?_,
          rfl, fun _ hthread => hthread⟩
        simp [cost, waitingCost, waitingCalls, hholder]
      | none =>
        obtain ⟨thread, hwaits⟩ : ∃ thread, s.waiting thread ≠ none := by
          by_contra hnone
          exact hbusy ⟨fun thread => not_not.mp (not_exists.mp hnone thread), hsending, harriving⟩
        obtain ⟨⟨type, content⟩, hwaiting⟩ := Option.ne_none_iff_exists'.mp hwaits
        obtain ⟨t, hstep, hwaits', hsent, hholds, hcalled⟩ : ∃ t, s.next (.lock thread) = some t ∧
            t.waiting = Function.update s.waiting thread none ∧
            t.link = { s.link with
              sent := s.link.sent ++ [.new type content]
              sending := [headerBytes type (Message.new type content).length, content] } ∧
            t.holder = some thread ∧ t.called = s.called := by
          simp [next, hwaiting, hholder, Link.next, hsending, Message.new]
        refine ⟨.lock thread, t, hstep, trivial, ?_, hcalled, fun other hother => ?_⟩
        · have hbytes :
              t.link.sending.flatten.length = (Message.new type content).frame.length := by
            simp [hsent, Message.frame, Message.new]
          rw [cost, cost, ← s.waitingCost_lock (hthreads thread hwaits) hwaiting hwaits', hbytes,
            hsending, hholder, hholds, hsent]
          simp only [List.flatten_nil, List.length_nil, Option.toList, List.length_singleton]
          omega
        · intro hnone
          apply hother
          rw [hwaits', Function.update_apply, hnone, ite_self]

theorem Lively.exists_done {s : SharedConnection} (h : s.Lively) :
    ∃ t, Run next Finishing s t ∧ t.Lively ∧ t.called = s.called ∧ t.Done := by
  obtain ⟨threads, hthreads⟩ : ∃ threads : Finset Nat,
      ∀ thread, s.waiting thread ≠ none → thread ∈ threads := by
    refine ⟨(s.called.map Prod.fst).toFinset, fun thread hwaits => ?_⟩
    obtain ⟨m, hm⟩ := Option.ne_none_iff_exists'.mp hwaits
    have hcalled : Message.new m.1 m.2 ∈ callsOf s.called thread := by
      rw [h.turns.called, waitingCalls, hm]
      simp
    obtain ⟨e, he, hself⟩ := List.mem_filterMap.mp hcalled
    obtain ⟨rfl, -⟩ := Option.ite_none_right_eq_some.mp hself
    exact List.mem_toFinset.mpr (List.mem_map_of_mem he)
  have hlower : ∀ t : SharedConnection, (t.Lively ∧ t.called = s.called ∧
      ∀ thread, t.waiting thread ≠ none → thread ∈ threads) → ¬ t.Done →
      ∃ u, Run next Finishing t u ∧ (u.Lively ∧ u.called = s.called ∧
        ∀ thread, u.waiting thread ≠ none → thread ∈ threads) ∧
        u.cost threads < t.cost threads := by
    rintro t ⟨ht, hkept, hwithin⟩ hbusy
    obtain ⟨a, u, hstep, ha, hlt, hcalled, hwaits⟩ := ht.exists_step hwithin hbusy
    have hfree : t.FailureFree a := by
      cases a with
      | lock | send | unlock | recv => trivial
      | call | sendFails | recvFails | leaveLoop => exact ha.elim
    exact ⟨u, .tail .refl ha hstep, ⟨lively_next ht hfree hstep, hcalled.trans hkept,
      fun thread hthread => hwithin thread (hwaits thread hthread)⟩, hlt⟩
  obtain ⟨t, hrun, ⟨ht, hcalled, -⟩, hdone⟩ :=
    Run.exists_of_measure (cost threads) hlower ⟨h, rfl, hthreads⟩
  exact ⟨t, hrun, ht, hcalled, hdone⟩

end Finishing

/-- Threads that share a connection do not get into each other's messages: what arrives is
an interleaving of what they have called for. Without failures all of it arrives in the
end, whoever waits for the lock. -/
theorem senders_take_turns (s : SharedConnection) :
    (Run next SendsWhileOk start s → ∃ order, s.link.delivered = order.map Prod.snd ∧
      ∀ thread, callsOf order thread <+: callsOf s.called thread) ∧
    (Run next FailureFree start s → ∃ t, Run next Finishing s t ∧
      ∃ order, t.link.delivered = order.map Prod.snd ∧
        ∀ thread, callsOf order thread = callsOf s.called thread) := by
  constructor
  · intro hrun
    obtain ⟨hturns, hlink⟩ := link_of_run hrun
    have hframed : s.link.Framed :=
      hlink.invariant Link.framed_start fun _ _ _ h ha hstep => Link.framed_next h ha hstep
    obtain ⟨rest, -, hsent, -⟩ := hframed.bytes
    exact hturns.arrived ⟨rest, hsent.symm⟩
  · intro hrun
    have hs : s.Lively := hrun.invariant lively_start fun _ _ _ h ha hstep => lively_next h ha hstep
    obtain ⟨t, hfinish, ht, hcalled, hdone⟩ := hs.exists_done
    obtain ⟨order, hdelivered, horder⟩ := ht.delivered hdone
    exact ⟨t, hfinish, order, hdelivered, fun thread => by rw [horder, hcalled]⟩

/-- Thread 1 gets the lock before thread 0, which has called first. -/
def twoThreads : List Action :=
  [.call 0 4 [], .call 1 6 [1, 2], .lock 1, .send 12, .recv 7, .send 2, .recv 5, .recv 2, .unlock]

theorem senders_take_turns_two_threads :
    ∃ s, s.link.delivered = [.new 6 [1, 2]] ∧ s.waiting 0 ≠ none ∧
      (∃ order, s.link.delivered = order.map Prod.snd ∧
        ∀ thread, callsOf order thread <+: callsOf s.called thread) ∧
      ∃ t, Run next Finishing s t ∧ ∃ order, t.link.delivered = order.map Prod.snd ∧
        ∀ thread, callsOf order thread = callsOf s.called thread := by
  obtain ⟨s, hs⟩ : ∃ s, runWhile next SendsWhileOk start twoThreads = some s :=
    Option.isSome_iff_exists.mp (by decide +kernel)
  have hchecked : ∀ s ∈ runWhile next SendsWhileOk start twoThreads,
      s.link.delivered = [.new 6 [1, 2]] ∧ s.waiting 0 ≠ none := by
    decide +kernel
  have hactions : runActions next start twoThreads = some s := hs
  have hfree : Run next FailureFree start s :=
    .of_runActions hactions (by simp [twoThreads, FailureFree])
  obtain ⟨hdelivered, hwaits⟩ := hchecked s hs
  exact ⟨s, hdelivered, hwaits, (senders_take_turns s).1 (.of_runWhile hs),
    (senders_take_turns s).2 hfree⟩

end SharedConnection

end ParLib.Wire
