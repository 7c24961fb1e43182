import ParLib.Election.System
import ParLib.Program.WellFormed

/-!
# The election in the program

Seen from the election, the program is a system of managers whose messages
arrive in any order. What goes over the lines in parts, between keep-alive
messages and those of the computation, is sent and delivered there as a whole.
-/

namespace ParLib.Program

set_option autoImplicit false

open Foundations

/-- The message of the election in a packet. -/
def electionPacket (p : Job.BytePacket) : Option Election.Packet :=
  (Election.Message.ofType p.msg.type p.msg.content).map fun msg => ⟨p.src, p.dst, msg⟩

/-- The managers are the nodes of the election, and what is on the lines is in flight there. -/
structure Follows (s : System) (e : Election.System) : Prop where
  nodes : e.nodes = fun x => (s.nodes x).manager
  crashed : e.crashed = s.crashed
  packets : (traffic s.lines).filterMap electionPacket ≤ ↑e.packets

theorem follows_start (matrix : Matrix) : Follows (.start matrix) .initial where
  nodes := rfl
  crashed := rfl
  packets := Multiset.zero_le _

section Election

variable {s : System} {e : Election.System} {lines : List Line} {p : Option Job.BytePacket}
  {id : NetworkId}

theorem electionPacket_of_type {p : Job.BytePacket} {type : Int32} (hp : p.msg.type = type)
    (h : ∀ electId, Election.Message.ofType type electId = none) : electionPacket p = none := by
  rw [electionPacket, hp, h]
  rfl

theorem electionPacket_of_isJobType {p : Job.BytePacket} (h : IsJobType p.msg.type) :
    electionPacket p = none := by
  obtain h | h | h | h := h <;> exact electionPacket_of_type h fun _ => rfl

theorem Follows.node (h : Follows s e) (id : NetworkId) : e.nodes id = (s.nodes id).manager := by
  rw [h.nodes]

theorem Follows.carried (h : Follows s e) (hlines : Carried s.lines lines p) :
    (traffic lines).filterMap electionPacket ≤ ↑e.packets := by
  refine le_trans (Multiset.filterMap_le_filterMap electionPacket ?_) h.packets
  rw [← hlines.traffic]
  exact Multiset.le_add_right ..

theorem managers_commit (s : System) (lines : List Line) (id : NetworkId)
    (r : Node × List Call) :
    (fun x => ((System.commit { s with lines := lines } id r).nodes x).manager) =
      Function.update (fun x => (s.nodes x).manager) id r.1.manager :=
  Function.comp_update Node.manager s.nodes id r.1

/-- A node that does nothing for the election is not seen there. -/
theorem Follows.quiet (h : Follows s e) (hlines : Carried s.lines lines p)
    {r : Node × List Call} (hmanager : r.1.manager = (s.nodes id).manager)
    (hcalls : ∀ call ∈ r.2, ∀ q, packetOf (ends lines) call = some q → electionPacket q = none) :
    Follows (System.commit { s with lines := lines } id r) e where
  nodes := by
    rw [managers_commit, hmanager, Function.update_eq_self]
    exact h.nodes
  crashed := h.crashed
  packets := by
    rw [traffic_commit, Multiset.filterMap_add, Multiset.filterMap_coe]
    have hnone : (r.2.filterMap (packetOf (ends lines))).filterMap electionPacket = [] := by
      rw [List.filterMap_eq_nil_iff]
      intro q hq
      obtain ⟨call, hcall, hpacket⟩ := List.mem_filterMap.mp hq
      exact hcalls call hcall q hpacket
    rw [hnone, Multiset.coe_nil, add_zero]
    exact h.carried hlines

/-- A handler of the election runs in both systems. -/
theorem Follows.elect (h : Follows s e) {rest : List Election.Packet}
    (hrest : (traffic lines).filterMap electionPacket ≤ ↑rest)
    {wire : Election.Message → Wire.Message} (hwire : ∀ msg, wire msg = msg.build)
    {r : Election.NetworkManager × List Election.Send}
    (htable : ∀ peer conn, r.1.findClient peer = some conn →
      (ends lines)[conn]? = some (id, peer)) :
    Follows (System.commit { s with lines := lines } id ((s.nodes id).elect wire r))
      (Election.System.commit { e with packets := rest } id r) where
  nodes := by
    rw [managers_commit, ← h.nodes]
    rfl
  crashed := h.crashed
  packets := by
    rw [traffic_commit, Multiset.filterMap_add, Multiset.filterMap_coe]
    change _ ≤ ((rest ++ r.2.map fun q => (⟨id, q.destId, q.msg⟩ : Election.Packet) :
      List Election.Packet) : Multiset Election.Packet)
    rw [← Multiset.coe_add]
    refine add_le_add hrest (Multiset.coe_le.mpr ?_)
    have hnew : ∀ q : Election.Send, wire q.msg = .new (wire q.msg).type (wire q.msg).content := by
      intro q
      rw [hwire]
      cases q.msg <;> rfl
    have hsends := packets_sends htable Election.Send.destId hnew r.2
    refine ((hsends.filterMap electionPacket).trans ?_).subperm
    rw [List.filterMap_map]
    have hback : electionPacket ∘ (fun q : Election.Send => Job.BytePacket.mk id q.destId
        (wire q.msg)) = some ∘ fun q => ⟨id, q.destId, q.msg⟩ := by
      funext q
      rw [Function.comp_apply, electionPacket, hwire, Election.Message.ofType_build]
      rfl
    rw [hback, List.filterMap_eq_map]

theorem Follows.isUp (h : Follows s e) (hup : s.isUp id = true) : e.isUp id = true := by
  rw [Election.System.isUp, h.crashed]
  exact hup

/-- The action of the election that an action of the program is. -/
inductive Counterpart : Action → Election.Action → Prop
  | discover (id : NetworkId) (discovered : Bool) :
      Counterpart (.turn id (.discover discovered)) (.discover id discovered)
  | step (id : NetworkId) (electionTimeOut tenSeconds : Bool) :
      Counterpart (.turn id (.step electionTimeOut tenSeconds))
        (.step id electionTimeOut tenSeconds)
  | register (conn : Nat) (id peer : NetworkId) (isClient : Bool) :
      Counterpart (.register conn) (.connect id peer conn isClient)
  | discard (conn : Nat) (id peer : NetworkId) : Counterpart (.discard conn) (.discard id peer conn)
  | crash (id : NetworkId) : Counterpart (.crash id) (.crash id)
  | deliver (conn count index : Nat) : Counterpart (.recv conn count) (.deliver index)

/-- The election does nothing for a step of the program, or takes its counterpart. -/
def Matched (t : System) (e : Election.System) (a : Action) : Prop :=
  Follows t e ∨ ∃ b f, Counterpart a b ∧ e.next b = some f ∧ Follows t f

theorem Follows.turn (h : Follows s e) (hs : WellFormed s) (hup : s.isUp id = true)
    (hlines : Carried s.lines lines none) {turn : Turn} {r : Node × List Call}
    (hr : (s.nodes id).next turn = some r) :
    Matched (System.commit { s with lines := lines } id r) e (.turn id turn) := by
  have htable := ((NodeMove.turn hr).fits hs).carried hlines
  have hup' := h.isUp hup
  have hjob : ∀ {n : Node} {orders : Orders} {rc : Job.Computation × List Job.Send},
      n.compute orders rc = r → n.manager = (s.nodes id).manager →
        Follows (System.commit { s with lines := lines } id r) e := by
    rintro n orders rc rfl hn
    refine h.quiet hlines hn fun call hcall q hq => ?_
    apply electionPacket_of_isJobType
    rw [type_of_packetOf hq]
    obtain ⟨q', -, hcall⟩ := List.mem_flatMap.mp hcall
    rw [Node.type_of_mem_sendMsg hcall]
    exact isJobType_build orders q'.msg
  cases turn with
  | discover discovered =>
    cases hr
    right
    refine ⟨.discover id discovered, _, .discover id discovered, if_pos hup', ?_⟩
    rw [h.node]
    exact h.elect (r := ({ (s.nodes id).manager with discovered := discovered }, []))
      (h.carried hlines) (fun msg => (rfl : Election.Message.build msg = msg.build)) htable
  | step electionTimeOut tenSeconds =>
    cases hr
    right
    refine ⟨.step id electionTimeOut tenSeconds, _, .step id electionTimeOut tenSeconds,
      if_pos hup', ?_⟩
    rw [h.node]
    exact h.elect (h.carried hlines) (fun _ => rfl) htable
  | keepAlive =>
    cases hr
    refine .inl (h.quiet hlines rfl fun call hcall q hq => ?_)
    obtain ⟨entry, -, rfl⟩ := List.mem_map.mp hcall
    exact electionPacket_of_type (type_of_packetOf hq) fun _ => rfl
  | startComputation | endRead =>
    obtain ⟨-, ⟨⟩⟩ := Option.ite_none_right_eq_some.mp hr
    exact .inl (h.quiet hlines rfl (by simp))
  | first orders timeUp sync =>
    obtain ⟨-, hr⟩ := Option.ite_none_right_eq_some.mp hr
    obtain ⟨rc, -, hr⟩ := Option.map_eq_some_iff.mp hr
    exact .inl (hjob hr rfl)
  | compute orders =>
    obtain ⟨-, hr⟩ := Option.ite_none_right_eq_some.mp hr
    obtain ⟨rc, -, hr⟩ := Option.map_eq_some_iff.mp hr
    exact .inl (hjob hr rfl)
  | read orders scratch outside =>
    rw [Node.next] at hr
    split at hr
    · cases hr
    · obtain ⟨-, hr⟩ := Option.ite_none_right_eq_some.mp hr
      obtain ⟨rc, -, hr⟩ := Option.map_eq_some_iff.mp hr
      exact .inl (hjob hr rfl)

theorem Follows.receive (h : Follows s e) (hs : WellFormed s) (hup : s.isUp id = true)
    {src : NetworkId} {m : Wire.Message} (hsized : m.Sized) (conn count : Nat)
    (hlines : Carried s.lines lines (some ⟨src, id, m⟩)) :
    Matched (System.commit { s with lines := lines } id ((s.nodes id).onMessage src m)) e
      (.recv conn count) := by
  have hmove :
      NodeMove s id (.recv conn count) (some ⟨src, id, m⟩) ((s.nodes id).onMessage src m) :=
    .receive hsized
  have hfits := hmove.fits hs
  obtain ⟨hnone, calls, hsame, -, htype⟩ | ⟨msg, hmsg, hsame⟩ | ⟨-, -, hsame⟩ :=
    (s.nodes id).onMessage_cases src m
  · rw [hsame]
    refine .inl (h.quiet hlines rfl fun call hcall q hq => ?_)
    exact electionPacket_of_type ((type_of_packetOf hq).trans (htype call hcall)) fun _ => rfl
  · rw [hsame] at hfits ⊢
    have hpacket : electionPacket ⟨src, id, m⟩ = some ⟨src, id, msg⟩ := by
      rw [Election.Message.decode, Election.Message.asString_of_sized hsized] at hmsg
      rw [electionPacket, hmsg]
      rfl
    have hcons : (⟨src, id, msg⟩ : Election.Packet) ::ₘ
        (traffic lines).filterMap electionPacket ≤ ↑e.packets := by
      have htraffic := h.packets
      rw [← hlines.traffic, Multiset.filterMap_add, Option.toList_some, Multiset.filterMap_coe,
        List.filterMap_cons_some hpacket, add_comm] at htraffic
      exact htraffic
    obtain ⟨pre, post, hpackets, hrest⟩ := exists_take_of_cons_le hcons
    have hindex : e.packets[pre.length]? = some ⟨src, id, msg⟩ := by
      rw [hpackets]
      simp
    have herase : e.packets.eraseIdx pre.length = pre ++ post := by
      rw [hpackets, List.eraseIdx_append_of_length_le (Nat.le_refl _), Nat.sub_self]
      rfl
    refine .inr ⟨.deliver pre.length, Election.System.commit
      { e with packets := e.packets.eraseIdx pre.length } id ((e.nodes id).onMessage src msg),
      .deliver conn count _, ?_, ?_⟩
    · rw [Election.System.next, hindex]
      exact if_pos (h.isUp hup)
    · rw [herase, h.node]
      exact h.elect hrest (Election.Message.answer_eq_build hsized) (hfits.carried hlines)
  · rw [hsame]
    exact .inl (h.quiet hlines rfl (by simp))

/-- Each step of the program is one of the election, or is not seen there. -/
theorem Follows.move (h : Follows s e) (hs : WellFormed s) {a : Action} {t : System}
    (hmove : Move s a t) : Matched t e a := by
  cases hmove with
  | crash hup =>
    rename_i id
    refine .inr ⟨.crash id, _, .crash id, if_pos (h.isUp hup), h.nodes, ?_, h.packets⟩
    dsimp only
    rw [h.crashed]
  | silent hlines => exact .inl ⟨h.nodes, h.crashed, h.carried hlines⟩
  | @node _ id p r lines hup hlines hr =>
    have hup' := h.isUp hup
    have htable := (hr.fits hs).carried hlines
    cases hr with
    | turn hr => exact h.turn hs hup hlines hr
    | @register conn peer hend =>
      have hpeer : peer ≠ [] := (hs.wired.named _ (List.mem_of_getElem? hend)).2
      refine .inr ⟨.connect id peer conn (isClient conn), _,
        .register conn id peer (isClient conn), if_pos ⟨hup', hpeer⟩, ?_⟩
      rw [h.node]
      exact h.elect (h.carried hlines) (fun _ => rfl) htable
    | @discard conn peer hend =>
      refine .inr ⟨.discard id peer conn, _, .discard conn id peer, if_pos hup', ?_⟩
      rw [h.node]
      exact h.elect (r := ((s.nodes id).manager.discardClient peer conn, []))
        (h.carried hlines) (fun msg => (rfl : Election.Message.build msg = msg.build)) htable
    | @receive conn count src m hsized =>
      exact h.receive hs hup hsized conn count hlines

end Election

end ParLib.Program
