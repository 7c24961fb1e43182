import ParLib.Foundations.Simulation
import ParLib.Program.System

/-!
# What a step of the program does

The messages that wait for a lock, are being sent or are on the way are the
traffic of the lines. A step moves them along, or it takes one off for a
handler and adds what the handler calls for.
-/

namespace ParLib.Wire.Link

set_option autoImplicit false

/-- What has been sent and not yet delivered. -/
def undelivered (s : Link) : List Message := s.sent.drop s.delivered.length

theorem undelivered_of_same {s t : Link} (hsent : t.sent = s.sent)
    (hdelivered : t.delivered = s.delivered) : t.undelivered = s.undelivered := by
  rw [undelivered, undelivered, hsent, hdelivered]

theorem Framed.startSend_undelivered {s t : Link} (h : s.Framed) {type : Int32} {content : Bytes}
    (hstep : s.next (.startSend type content) = some t) :
    t.undelivered = s.undelivered ++ [.new type content] := by
  obtain ⟨-, ⟨⟩⟩ := Option.ite_none_right_eq_some.mp hstep
  obtain ⟨rest, -, hsent, -⟩ := h.bytes
  change (s.sent ++ [Message.new type content]).drop s.delivered.length = _
  rw [undelivered, List.drop_append_of_le_length]
  rw [hsent, List.length_append]
  exact Nat.le_add_right ..

/-- Receiving delivers nothing, or what has been undelivered for longest. -/
theorem Framed.recv_undelivered {s t : Link} (h : s.Framed) {count : Nat}
    (hstep : s.next (.recv count) = some t) :
    (t.delivered[s.delivered.length]? = none ∧ t.undelivered = s.undelivered) ∨
      ∃ m, t.delivered[s.delivered.length]? = some m ∧ m.Sized ∧
        s.undelivered = m :: t.undelivered := by
  have ht : t.Framed := framed_next h (show s.SendsWhileOk (.recv count) from trivial) hstep
  have hboth : t.sent = s.sent ∧
      (t.delivered = s.delivered ∨ ∃ m, t.delivered = s.delivered ++ [m]) := by
    rw [next] at hstep
    split at hstep
    · cases hstep
    · rename_i r hr
      obtain ⟨-, ⟨⟩⟩ := Option.ite_none_right_eq_some.mp hstep
      rw [receive.eq_def]
      split
      · exact ⟨rfl, .inl rfl⟩
      · exact ⟨rfl, .inl rfl⟩
      · exact ⟨rfl, .inr ⟨_, rfl⟩⟩
  obtain ⟨hsent, hsame | ⟨m, hone⟩⟩ := hboth
  · left
    refine ⟨?_, undelivered_of_same hsent hsame⟩
    rw [hsame, List.getElem?_eq_none (Nat.le_refl _)]
  · right
    obtain ⟨rest, -, hrest, -⟩ := ht.bytes
    have hsplit : s.sent = s.delivered ++ m :: rest := by
      rw [← hsent, hrest, hone, List.append_assoc]
      rfl
    refine ⟨m, ?_, h.sized m (by simp [hsplit]), ?_⟩
    · rw [hone]
      exact List.getElem?_concat_length
    · rw [undelivered, undelivered, hsent, hone, hsplit, List.drop_left]
      simp

/-- The calls of the sockets that deliver nothing. -/
theorem Framed.quiet {s t : Link} (h : s.Framed) {a : Action}
    (ha : a = .sendFails ∨ a = .recvFails ∨ a = .leaveLoop ∨ ∃ count, a = .send count)
    (hstep : s.next a = some t) : t.Framed ∧ t.undelivered = s.undelivered := by
  obtain rfl | rfl | rfl | ⟨count, rfl⟩ := ha
  · refine ⟨framed_next h (show s.SendsWhileOk .sendFails from trivial) hstep, ?_⟩
    obtain ⟨-, ⟨⟩⟩ := Option.ite_none_left_eq_some.mp hstep
    rfl
  · refine ⟨framed_next h (show s.SendsWhileOk .recvFails from trivial) hstep, ?_⟩
    cases hstep
    rfl
  · refine ⟨framed_next h (show s.SendsWhileOk .leaveLoop from trivial) hstep, ?_⟩
    cases hstep
    rfl
  · refine ⟨framed_next h (show s.SendsWhileOk (.send count) from trivial) hstep, ?_⟩
    rw [next] at hstep
    split at hstep
    · cases hstep
    · obtain ⟨-, ⟨⟩⟩ := Option.ite_none_right_eq_some.mp hstep
      rfl

end ParLib.Wire.Link

namespace ParLib.Program

set_option autoImplicit false

open Foundations

/-- The messages on a line, from the threads that wait to send to those not yet delivered. -/
def Line.packets (l : Line) : Multiset Job.BytePacket :=
  ↑(((l.waiting.map fun e => Wire.Message.new e.1 e.2) ++ l.link.undelivered).map fun m =>
    Job.BytePacket.mk l.src l.dst m)

def traffic (lines : List Line) : Multiset Job.BytePacket := (lines.map Line.packets).sum

def ends (lines : List Line) : List (NetworkId × NetworkId) := lines.map fun l => (l.src, l.dst)

/-- The packet that a call puts on its line. -/
def packetOf (ends : List (NetworkId × NetworkId)) (call : Call) : Option Job.BytePacket :=
  ends[call.conn]?.map fun e => ⟨e.1, e.2, .new call.type call.content⟩

theorem ends_getElem? {lines : List Line} {conn : Nat} {l : Line} (h : lines[conn]? = some l) :
    (ends lines)[conn]? = some (l.src, l.dst) := by
  rw [ends, List.getElem?_map, h, Option.map_some]

theorem ends_set {lines : List Line} {conn : Nat} {l l' : Line} (h : lines[conn]? = some l)
    (hsrc : l'.src = l.src) (hdst : l'.dst = l.dst) : ends (lines.set conn l') = ends lines := by
  obtain ⟨hlt, heq⟩ := List.getElem?_eq_some_iff.mp (ends_getElem? h)
  rw [ends, List.map_set]
  change (ends lines).set conn (l'.src, l'.dst) = ends lines
  rw [hsrc, hdst, ← heq]
  exact List.set_getElem_self hlt

theorem traffic_set {lines : List Line} {conn : Nat} {l l' : Line} (h : lines[conn]? = some l)
    {p q : Multiset Job.BytePacket} (hpackets : l'.packets + p = l.packets + q) :
    traffic (lines.set conn l') + p = traffic lines + q := by
  have hset := sum_map_set Line.packets h l'
  apply add_right_cancel (b := l.packets)
  calc traffic (lines.set conn l') + p + l.packets
      = traffic (lines.set conn l') + l.packets + p := add_right_comm ..
    _ = traffic lines + (l'.packets + p) := by rw [traffic, hset, add_assoc, traffic]
    _ = traffic lines + q + l.packets := by rw [hpackets, add_assoc, add_comm l.packets]

section Submit

variable {lines : List Line}

theorem ends_submit (call : Call) : ends (submit lines call) = ends lines := by
  rw [submit]
  split
  · rfl
  · rename_i l hl
    exact ends_set hl rfl rfl

theorem traffic_submit (call : Call) :
    traffic (submit lines call) = traffic lines + ↑(packetOf (ends lines) call).toList := by
  rw [submit]
  split
  · rename_i hnone
    rw [packetOf, ends, List.getElem?_map, hnone]
    simp
  · rename_i l hl
    have hpackets : (l.submit call).packets + 0 =
        l.packets + ↑[Job.BytePacket.mk l.src l.dst (.new call.type call.content)] := by
      rw [Line.packets, Line.packets, Line.submit, add_zero, Multiset.coe_add, Multiset.coe_eq_coe]
      simp only [List.map_append, List.map_cons, List.map_nil, List.append_assoc]
      exact (List.perm_append_comm).append_left _
    have hset := traffic_set hl hpackets
    rw [add_zero] at hset
    rw [hset, packetOf, ends_getElem? hl]
    rfl

theorem links_submit {P : Wire.Link → Prop} (h : ∀ l ∈ lines, P l.link) (call : Call) :
    ∀ l ∈ submit lines call, P l.link := by
  rw [submit]
  split
  · exact h
  · rename_i l hl
    intro l' hl'
    cases List.mem_or_eq_of_mem_set hl' with
    | inl hl' => exact h l' hl'
    | inr heq =>
      rw [heq]
      exact h l (List.mem_of_getElem? hl)

variable (lines)

theorem foldl_submit (calls : List Call) :
    ends (calls.foldl submit lines) = ends lines ∧
      traffic (calls.foldl submit lines) =
        traffic lines + ↑(calls.filterMap (packetOf (ends lines))) := by
  induction calls generalizing lines with
  | nil => simp
  | cons call calls ih =>
    obtain ⟨hends, htraffic⟩ := ih (submit lines call)
    rw [ends_submit] at hends htraffic
    refine ⟨hends, ?_⟩
    rw [List.foldl_cons, htraffic, traffic_submit, add_assoc, Multiset.coe_add,
      List.filterMap_cons]
    cases packetOf (ends lines) call <;> rfl

theorem links_foldl_submit {P : Wire.Link → Prop} (h : ∀ l ∈ lines, P l.link)
    (calls : List Call) : ∀ l ∈ calls.foldl submit lines, P l.link := by
  induction calls generalizing lines with
  | nil => exact h
  | cons call calls ih => exact ih _ (links_submit h call)

end Submit

/-- The links are framed, and the ends have ids. -/
structure Wired (lines : List Line) : Prop where
  framed : ∀ l ∈ lines, l.link.Framed
  named : ∀ e ∈ ends lines, e.1 ≠ [] ∧ e.2 ≠ []

theorem Wired.foldl_submit {lines : List Line} (h : Wired lines) (calls : List Call) :
    Wired (calls.foldl submit lines) where
  framed := links_foldl_submit lines h.framed calls
  named := by
    rw [(Program.foldl_submit lines calls).1]
    exact h.named

theorem Wired.set {lines : List Line} (h : Wired lines) {conn : Nat} {l l' : Line}
    (hl : lines[conn]? = some l) (hsrc : l'.src = l.src) (hdst : l'.dst = l.dst)
    (hframed : l'.link.Framed) : Wired (lines.set conn l') where
  framed m hm := by
    cases List.mem_or_eq_of_mem_set hm with
    | inl hm => exact h.framed m hm
    | inr heq =>
      rw [heq]
      exact hframed
  named := by
    rw [ends_set hl hsrc hdst]
    exact h.named

/-- The lines after a step, but for what a handler calls for; `p` has been taken off them. -/
structure Carried (lines lines' : List Line) (p : Option Job.BytePacket) : Prop where
  wired : Wired lines'
  ends : ∀ (conn : Nat) (e : NetworkId × NetworkId), (Program.ends lines)[conn]? = some e →
    (Program.ends lines')[conn]? = some e
  traffic : Program.traffic lines' + ↑p.toList = Program.traffic lines

theorem Carried.refl {lines : List Line} (h : Wired lines) : Carried lines lines none where
  wired := h
  ends _ _ he := he
  traffic := add_zero _

theorem Carried.set {lines : List Line} (h : Wired lines) {conn : Nat} {l l' : Line}
    (hl : lines[conn]? = some l) (hsrc : l'.src = l.src) (hdst : l'.dst = l.dst)
    (hframed : l'.link.Framed) {p : Option Job.BytePacket}
    (hpackets : l'.packets + ↑p.toList = l.packets) : Carried lines (lines.set conn l') p where
  wired := h.set hl hsrc hdst hframed
  ends conn' e he := by rwa [ends_set hl hsrc hdst]
  traffic := by
    have hset := traffic_set hl (q := 0) (hpackets.trans (add_zero _).symm)
    rwa [add_zero] at hset

theorem Carried.connect {lines : List Line} (h : Wired lines) {client server : NetworkId}
    (hclient : client ≠ []) (hserver : server ≠ []) :
    Carried lines (lines ++ [.new client server, .new server client]) none where
  wired := by
    constructor
    · intro l hl
      cases List.mem_append.mp hl with
      | inl hl => exact h.framed l hl
      | inr hl =>
        simp only [List.mem_cons, List.not_mem_nil, or_false] at hl
        obtain rfl | rfl := hl <;> exact Wire.Link.framed_start
    · intro e he
      rw [Program.ends, List.map_append, List.mem_append] at he
      cases he with
      | inl he => exact h.named e he
      | inr he =>
        simp only [List.map_cons, List.map_nil, List.mem_cons, List.not_mem_nil, or_false] at he
        obtain rfl | rfl := he
        · exact ⟨hclient, hserver⟩
        · exact ⟨hserver, hclient⟩
  ends conn e he := by
    rw [Program.ends, List.map_append, List.getElem?_append_left]
    · exact he
    · exact (List.getElem?_eq_some_iff.mp he).1
  traffic := by
    rw [Program.traffic, List.map_append, List.sum_append]
    simp [Program.traffic, Line.packets, Line.new, Wire.Link.undelivered, Wire.Link.start]

/-- Receiving takes off a line the message that it delivers, if any. -/
theorem Carried.recv {lines : List Line} (h : Wired lines) {conn count : Nat} {l : Line}
    {link : Wire.Link} (hl : lines[conn]? = some l)
    (hlink : l.link.next (.recv count) = some link) :
    (link.delivered[l.link.delivered.length]? = none ∧
        Carried lines (lines.set conn { l with link := link }) none) ∨
      ∃ m, link.delivered[l.link.delivered.length]? = some m ∧ m.Sized ∧
        Carried lines (lines.set conn { l with link := link }) (some ⟨l.src, l.dst, m⟩) := by
  have hframed := h.framed l (List.mem_of_getElem? hl)
  have hframed' : link.Framed := Wire.Link.framed_next hframed
    (show l.link.SendsWhileOk (.recv count) from trivial) hlink
  have hset {p : Option Job.BytePacket}
      (hpackets : { l with link := link }.packets + ↑p.toList = l.packets) :
      Carried lines (lines.set conn { l with link := link }) p :=
    .set h hl (by rfl) (by rfl) hframed' hpackets
  obtain ⟨hnone, hsame⟩ | ⟨m, hone, hsized, hfirst⟩ := hframed.recv_undelivered hlink
  · refine .inl ⟨hnone, hset ?_⟩
    rw [Line.packets, Line.packets, hsame]
    exact add_zero _
  · refine .inr ⟨m, hone, hsized, hset ?_⟩
    rw [Line.packets, Line.packets, hfirst, Option.toList_some, Multiset.coe_add,
      Multiset.coe_eq_coe, List.map_append, List.map_append, List.map_cons, List.append_assoc]
    exact (List.perm_append_singleton _ _).append_left _

/-- What a node does, and the packet that has been taken off the lines for it. -/
inductive NodeMove (s : System) (id : NetworkId) :
    Action → Option Job.BytePacket → Node × List Call → Prop
  | turn {t : Turn} {r : Node × List Call} (hr : (s.nodes id).next t = some r) :
      NodeMove s id (.turn id t) none r
  | register {conn : Nat} {peer : NetworkId} (hend : (ends s.lines)[conn]? = some (id, peer)) :
      NodeMove s id (.register conn) none
        ((s.nodes id).elect Election.Message.build
          ((s.nodes id).manager.receiverLoopStart peer conn (isClient conn)))
  | discard {conn : Nat} {peer : NetworkId} (hend : (ends s.lines)[conn]? = some (id, peer)) :
      NodeMove s id (.discard conn) none
        ({ s.nodes id with manager := (s.nodes id).manager.discardClient peer conn }, [])
  | receive {conn count : Nat} {src : NetworkId} {m : Wire.Message} (hsized : m.Sized) :
      NodeMove s id (.recv conn count) (some ⟨src, id, m⟩) ((s.nodes id).onMessage src m)

inductive Move (s : System) : Action → System → Prop
  | node {a : Action} {id : NetworkId} {p : Option Job.BytePacket} {r : Node × List Call}
      {lines : List Line} (hup : s.isUp id = true) (hlines : Carried s.lines lines p)
      (hr : NodeMove s id a p r) : Move s a ({ s with lines := lines }.commit id r)
  | silent {a : Action} {lines : List Line} (hlines : Carried s.lines lines none) :
      Move s a { s with lines := lines }
  | crash {id : NetworkId} (hup : s.isUp id = true) :
      Move s (.crash id) { s with crashed := Function.update s.crashed id true }

/-- Anything an end of a connection does on its socket that delivers nothing. -/
theorem move_of_onLine {s t : System} (hw : Wired s.lines) {a : Action} {conn : Nat}
    {reads : Bool} {f : Line → Option Line} (h : s.onLine conn reads f = some t)
    (hf : ∀ l l', s.lines[conn]? = some l → f l = some l' →
      l'.src = l.src ∧ l'.dst = l.dst ∧ l'.link.Framed ∧ l'.packets = l.packets) :
    Move s a t := by
  rw [System.onLine] at h
  split at h
  · cases h
  · rename_i l hl
    obtain ⟨-, h⟩ := Option.ite_none_right_eq_some.mp h
    obtain ⟨l', hl', rfl⟩ := Option.map_eq_some_iff.mp h
    obtain ⟨hsrc, hdst, hframed, hpackets⟩ := hf l l' hl hl'
    exact .silent (.set hw hl hsrc hdst hframed (p := none) ((add_zero _).trans hpackets))

theorem move_of_onLink {s t : System} (hw : Wired s.lines) {a : Action} {conn : Nat}
    {reads : Bool} {b : Wire.Link.Action}
    (hb : b = .sendFails ∨ b = .recvFails ∨ b = .leaveLoop ∨ ∃ count, b = .send count)
    (h : s.onLine conn reads (fun l => l.onLink b) = some t) : Move s a t := by
  refine move_of_onLine hw h fun l l' hl hl' => ?_
  obtain ⟨link, hlink, rfl⟩ := Option.map_eq_some_iff.mp hl'
  obtain ⟨hframed, hsame⟩ := (hw.framed l (List.mem_of_getElem? hl)).quiet hb hlink
  refine ⟨rfl, rfl, hframed, ?_⟩
  rw [Line.packets, Line.packets, hsame]

theorem lock_packets {l l' : Line} {index : Nat} (h : l.link.Framed)
    (hok : l.link.sendError = false ∧ ∀ e ∈ l.waiting[index]?, e.2.length < 2 ^ 31)
    (hlock : l.lock index = some l') :
    l'.src = l.src ∧ l'.dst = l.dst ∧ l'.link.Framed ∧ l'.packets = l.packets := by
  rw [Line.lock] at hlock
  split at hlock
  · cases hlock
  · rename_i type content hwaiting
    obtain ⟨link, hlink, rfl⟩ := Option.map_eq_some_iff.mp hlock
    have hshort := hok.2 _ hwaiting
    refine ⟨rfl, rfl, Wire.Link.framed_next h (show l.link.SendsWhileOk
      (.startSend type content) from ⟨hshort, hok.1⟩) hlink, ?_⟩
    have hpast : (link.undelivered : List Wire.Message) =
        l.link.undelivered ++ [.new type content] := h.startSend_undelivered hlink
    have hperm : l.waiting.Perm ((type, content) :: l.waiting.eraseIdx index) := by
      obtain ⟨hlt, heq⟩ := List.getElem?_eq_some_iff.mp hwaiting
      rw [← heq]
      exact (List.getElem_cons_eraseIdx_perm hlt).symm
    rw [Line.packets, Line.packets, Multiset.coe_eq_coe, hpast]
    apply List.Perm.map
    refine .trans ?_ ((hperm.map _).symm.append_right _)
    rw [← List.append_assoc]
    exact List.perm_append_singleton ..

/-- What one step of the program is, in lines that are framed. -/
theorem move_of_next {s t : System} {a : Action} (hw : Wired s.lines) (hok : s.Sound a)
    (h : s.next a = some t) : Move s a t := by
  cases a with
  | turn id turn =>
    obtain ⟨hup, h⟩ := Option.ite_none_right_eq_some.mp h
    obtain ⟨r, hr, rfl⟩ := Option.map_eq_some_iff.mp h
    exact .node hup (.refl hw) (.turn hr)
  | connect client server =>
    obtain ⟨⟨hclient, hserver⟩, ⟨⟩⟩ := Option.ite_none_right_eq_some.mp h
    have hnamed : ∀ id, s.isUp id = true → id ≠ [] := by
      rintro id hup rfl
      simp [System.isUp] at hup
    exact .silent (.connect hw (hnamed _ hclient) (hnamed _ hserver))
  | register conn =>
    rw [System.next] at h
    split at h
    · rename_i l back hl hback
      obtain ⟨⟨hup, -⟩, ⟨⟩⟩ := Option.ite_none_right_eq_some.mp h
      have hframed := hw.framed back (List.mem_of_getElem? hback)
      have hlines (reader : Reader) : Carried s.lines
          (s.lines.set (partner conn) { back with reader := reader }) none := by
        refine .set hw hback ?_ ?_ ?_ ?_
        · rfl
        · rfl
        · exact hframed
        · exact add_zero back.packets
      exact .node hup (hlines _) (.register (ends_getElem? hl))
    · cases h
  | discard conn =>
    rw [System.next] at h
    split at h
    · rename_i l back hl hback
      obtain ⟨⟨hup, -⟩, ⟨⟩⟩ := Option.ite_none_right_eq_some.mp h
      exact .node hup (.refl hw) (.discard (ends_getElem? hl))
    · cases h
  | crash id =>
    obtain ⟨hup, ⟨⟩⟩ := Option.ite_none_right_eq_some.mp h
    exact .crash hup
  | lock conn index =>
    exact move_of_onLine hw h fun l l' hl hl' =>
      lock_packets (hw.framed l (List.mem_of_getElem? hl)) (hok l hl) hl'
  | send conn count => exact move_of_onLink hw (.inr (.inr (.inr ⟨count, rfl⟩))) h
  | sendFails conn => exact move_of_onLink hw (.inl rfl) h
  | recvFails conn => exact move_of_onLink hw (.inr (.inl rfl)) h
  | leaveLoop conn => exact move_of_onLink hw (.inr (.inr (.inl rfl))) h
  | recv conn count =>
    rw [System.next] at h
    split at h
    · cases h
    · rename_i l hl
      obtain ⟨⟨hup, -⟩, h⟩ := Option.ite_none_right_eq_some.mp h
      obtain ⟨link, hlink, rfl⟩ := Option.map_eq_some_iff.mp h
      obtain ⟨hnone, hlines⟩ | ⟨m, hone, hsized, hlines⟩ := Carried.recv hw hl hlink
      · simp only [hnone]
        exact .silent hlines
      · simp only [hone]
        exact .node hup hlines (.receive hsized)

end ParLib.Program
