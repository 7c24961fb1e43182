import ParLib.Program.WellFormed

/-!
# The computation in the program

Seen from the computation, the program is one of nodes that exchange the bytes
of messages. A message is in flight until `ReadMessages` takes it off the queue.
-/

namespace ParLib.Program

set_option autoImplicit false

open Foundations

/-- The messages in the queue of a node, with the node as their destination. -/
def queued (s : System) (id : NetworkId) : List Job.BytePacket :=
  (s.nodes id).messages.map fun e => ⟨e.1, id, e.2⟩

open Classical in
/-- The computations are the nodes of the byte system, and what is on the lines or queued is in
flight there. -/
structure Computes (s : System) (b : Job.ByteSystem) : Prop where
  comp : b.comp = fun x => (s.nodes x).computation
  packets : ∀ p : Job.BytePacket, IsJobType p.msg.type →
    (traffic s.lines).count p + (queued s p.dst).count p ≤ b.packets.count p

section Computation

open Classical

variable {s : System} {b : Job.ByteSystem} {lines : List Line} {p : Option Job.BytePacket}
  {id : NetworkId}

theorem count_traffic_carried (hlines : Carried s.lines lines p) (q : Job.BytePacket) :
    (traffic lines).count q + p.toList.count q = (traffic s.lines).count q := by
  rw [← hlines.traffic, Multiset.count_add, Multiset.coe_count]

theorem count_traffic_commit (r : Node × List Call) (q : Job.BytePacket) :
    (traffic (System.commit { s with lines := lines } id r).lines).count q =
      (traffic lines).count q + (r.2.filterMap (packetOf (ends lines))).count q := by
  rw [traffic_commit, Multiset.count_add, Multiset.coe_count]

theorem queued_commit_self (r : Node × List Call) :
    queued (s.commit id r) id = r.1.messages.map fun e => ⟨e.1, id, e.2⟩ := by
  rw [queued, commit_node_self]

theorem queued_commit_of_ne {x : NetworkId} (r : Node × List Call) (h : x ≠ id) :
    queued (s.commit id r) x = queued s x := by
  rw [queued, commit_node_of_ne r h, queued]

theorem computations_commit (s : System) (lines : List Line) (id : NetworkId)
    (r : Node × List Call) :
    (fun x => ((System.commit { s with lines := lines } id r).nodes x).computation) =
      Function.update (fun x => (s.nodes x).computation) id r.1.computation :=
  Function.comp_update Node.computation s.nodes id r.1

/-- A message of the computation that is on the lines or queued is in flight there. -/
theorem Computes.mem (h : Computes s b) {p : Job.BytePacket} (hjob : IsJobType p.msg.type)
    (hp : p ∈ traffic s.lines ∨ p ∈ queued s p.dst) : p ∈ b.packets := by
  have hcount := h.packets p hjob
  apply List.count_pos_iff.mp
  cases hp with
  | inl hp =>
    have hpos := Multiset.count_pos.mpr hp
    omega
  | inr hp =>
    have hpos := List.count_pos_iff.mpr hp
    omega

/-- A node that sends nothing for the computation; what it may have queued came off the lines. -/
theorem Computes.quiet (h : Computes s b) (hlines : Carried s.lines lines p)
    {r : Node × List Call} (hcomputation : r.1.computation = (s.nodes id).computation)
    (hmessages : ∃ more, r.1.messages = (s.nodes id).messages ++ more ∧
      ∀ e ∈ more, more = [e] ∧ p = some ⟨e.1, id, e.2⟩)
    (hcalls : ∀ call ∈ r.2, ¬ IsJobType call.type) :
    Computes (System.commit { s with lines := lines } id r) b where
  comp := by
    rw [computations_commit, hcomputation, Function.update_eq_self]
    exact h.comp
  packets q hq := by
    have hold := h.packets q hq
    have hlines' := count_traffic_carried hlines q
    have hcalls' : (r.2.filterMap (packetOf (ends lines))).count q = 0 := by
      apply List.count_eq_zero.mpr
      intro hmem
      obtain ⟨call, hcall, hpacket⟩ := List.mem_filterMap.mp hmem
      exact hcalls call hcall (type_of_packetOf hpacket ▸ hq)
    rw [count_traffic_commit, hcalls']
    by_cases hdst : q.dst = id
    · obtain ⟨more, hmore, hone⟩ := hmessages
      have hfew : (more.map fun e => Job.BytePacket.mk e.1 id e.2).count q ≤ p.toList.count q := by
        cases more with
        | nil => exact Nat.zero_le _
        | cons e more =>
          obtain ⟨hmore, hp⟩ := hone e List.mem_cons_self
          rw [hmore, hp]
          exact le_rfl
      have hqueue : queued (System.commit { s with lines := lines } id r) q.dst =
          queued s q.dst ++ more.map fun e => ⟨e.1, id, e.2⟩ := by
        rw [hdst, queued_commit_self, hmore, List.map_append]
        rfl
      rw [hqueue, List.count_append]
      omega
    · have hqueue : queued (System.commit { s with lines := lines } id r) q.dst =
          queued s q.dst := queued_commit_of_ne r hdst
      rw [hqueue]
      omega

/-- A step of the computation, of a node that may have taken `first` off its queue. -/
theorem Computes.compute (h : Computes s b) (hlines : Carried s.lines lines none) {n : Node}
    {orders : Orders} {rc : Job.Computation × List Job.Send}
    (htable : ∀ peer conn, n.manager.findClient peer = some conn →
      (ends lines)[conn]? = some (id, peer))
    {packets : List Job.BytePacket} (first : Option Job.BytePacket)
    (hpackets : ∀ q, packets.count q + first.toList.count q = b.packets.count q)
    (hqueue : queued s id = first.toList ++ n.messages.map fun e => ⟨e.1, id, e.2⟩)
    (hfirst : ∀ q ∈ first, q.dst = id) :
    Computes (System.commit { s with lines := lines } id (n.compute orders rc))
      (Job.ByteSystem.commit { b with packets := packets } id rc.1
        (rc.2.map fun q => ⟨id, q.destId, orders.build q.msg⟩)) where
  comp := by
    rw [computations_commit, ← h.comp]
    rfl
  packets q hq := by
    have hold := h.packets q hq
    have hlines' := count_traffic_carried hlines q
    have htaken := hpackets q
    have hsent := (packets_sends htable Job.Send.destId
      (fun q => orders_build_new orders q.msg) rc.2).count_le q
    rw [count_traffic_commit]
    change _ + List.count q (List.filterMap _ (rc.2.flatMap _)) + _ ≤
      (packets ++ rc.2.map _).count q
    rw [List.count_append]
    rw [Option.toList_none, List.count_nil] at hlines'
    by_cases hdst : q.dst = id
    · rw [hdst, hqueue, List.count_append] at hold
      rw [hdst, queued_commit_self]
      change _ + _ + (n.messages.map _).count q ≤ _
      omega
    · have hnot : first.toList.count q = 0 := by
        apply List.count_eq_zero.mpr
        intro hmem
        exact hdst (hfirst q (Option.mem_toList.mp hmem))
      have hsame : queued (System.commit { s with lines := lines } id (n.compute orders rc)) q.dst =
          queued s q.dst := queued_commit_of_ne _ hdst
      rw [hsame]
      omega

theorem Computes.turn (h : Computes s b) (hs : WellFormed s) {b₀ : Job.ByteSystem}
    (hb : Relation.ReflTransGen Job.ByteSystem.Step b₀ b) (hlines : Carried s.lines lines none)
    {turn : Turn}
    {r : Node × List Call} (hr : (s.nodes id).next turn = some r)
    (hok : (s.nodes id).Encodes turn) :
    ∃ b', Relation.ReflTransGen Job.ByteSystem.Step b₀ b' ∧
      Computes (System.commit { s with lines := lines } id r) b' := by
  have hnet (orders : Orders) : ((s.nodes id).net orders).networkId = id := hs.networkId id
  have hcomp : b.comp id = (s.nodes id).computation := by
    rw [h.comp]
  have htable := (hs.fits id).carried hlines
  have hcarries (orders : Orders) {sent : List Job.Send} (hsent : ∀ q ∈ sent, q.msg.Encodable) :
      sent.Forall₂ (Job.ByteSystem.Carries ((s.nodes id).net orders).networkId)
        (sent.map fun q => ⟨id, q.destId, orders.build q.msg⟩) := by
    rw [hnet, List.forall₂_map_right_iff, List.forall₂_same]
    exact fun q hq => ⟨rfl, rfl, orders.builtAs_build q.msg, hsent q hq⟩
  have hquiet (hcomputation : r.1.computation = (s.nodes id).computation)
      (hmessages : r.1.messages = (s.nodes id).messages)
      (hcalls : ∀ call ∈ r.2, ¬ IsJobType call.type) :
      Computes (System.commit { s with lines := lines } id r) b :=
    h.quiet hlines hcomputation ⟨[], by rw [hmessages, List.append_nil], by simp⟩ hcalls
  cases turn with
  | discover discovered =>
    cases hr
    exact ⟨b, hb, hquiet rfl rfl (by simp)⟩
  | step electionTimeOut tenSeconds =>
    cases hr
    exact ⟨b, hb, hquiet rfl rfl (not_isJobType_elect not_isJobType_build _)⟩
  | keepAlive =>
    cases hr
    refine ⟨b, hb, hquiet rfl rfl ?_⟩
    intro call hcall
    obtain ⟨entry, -, rfl⟩ := List.mem_map.mp hcall
    exact (by decide : ¬ IsJobType messageTypeKeepAlive)
  | startComputation | endRead =>
    obtain ⟨-, ⟨⟩⟩ := Option.ite_none_right_eq_some.mp hr
    exact ⟨b, hb, hquiet rfl rfl (by simp)⟩
  | first orders timeUp sync =>
    obtain ⟨-, hr⟩ := Option.ite_none_right_eq_some.mp hr
    obtain ⟨rc, hrc, rfl⟩ := Option.map_eq_some_iff.mp hr
    have hrc' : (b.comp ((s.nodes id).net orders).networkId).firstStep ((s.nodes id).net orders)
        timeUp sync = some rc := by rwa [hnet, hcomp]
    have hstep := Job.ByteSystem.Step.first hrc' (hcarries orders (hok rc hrc))
    rw [hnet] at hstep
    exact ⟨_, hb.tail hstep, h.compute (n := { s.nodes id with phase := some .compute }) hlines
      htable none (fun _ => rfl) rfl (by simp)⟩
  | compute orders =>
    obtain ⟨-, hr⟩ := Option.ite_none_right_eq_some.mp hr
    obtain ⟨rc, hrc, rfl⟩ := Option.map_eq_some_iff.mp hr
    have hrc' : (b.comp ((s.nodes id).net orders).networkId).computeStep
        ((s.nodes id).net orders) = some rc := by rwa [hnet, hcomp]
    have hstep := Job.ByteSystem.Step.compute hrc' (hcarries orders (encodable_of_computeStep hrc))
    rw [hnet] at hstep
    exact ⟨_, hb.tail hstep, h.compute (n := { s.nodes id with phase := some .read }) hlines
      htable none (fun _ => rfl) rfl (by simp)⟩
  | read orders scratch outside =>
    rw [Node.next] at hr
    split at hr
    · cases hr
    · rename_i senderId m rest hmessages
      obtain ⟨-, hr⟩ := Option.ite_none_right_eq_some.mp hr
      obtain ⟨rc, hrc, rfl⟩ := Option.map_eq_some_iff.mp hr
      have hjob : IsJobType m.type := hs.queued id (senderId, m) (by simp [hmessages])
      have hqueue : queued s id = ⟨senderId, id, m⟩ :: rest.map fun e => ⟨e.1, id, e.2⟩ := by
        rw [queued, hmessages]
        rfl
      have hmem : Job.BytePacket.mk senderId id m ∈ b.packets := by
        have hcount := h.packets ⟨senderId, id, m⟩ hjob
        dsimp only at hcount
        rw [hqueue, List.count_cons_self] at hcount
        apply List.count_pos_iff.mp
        omega
      obtain ⟨pre, post, hpackets⟩ := List.append_of_mem hmem
      have hrc' : Job.ByteSystem.onReceived (b.comp ((s.nodes id).net orders).networkId)
          ((s.nodes id).net orders) senderId scratch outside m = some rc := by rwa [hnet, hcomp]
      have hhead : (senderId, m) ∈ (s.nodes id).messages.head? := by
        rw [hmessages]
        rfl
      have hstep := Job.ByteSystem.Step.receive hpackets (hnet orders).symm hrc'
        (hcarries orders (hok (senderId, m) hhead rc hrc))
      rw [hnet] at hstep
      refine ⟨_, hb.tail hstep, h.compute (n := { s.nodes id with messages := rest }) hlines htable
        (some ⟨senderId, id, m⟩) ?_ hqueue ?_⟩
      · intro q
        rw [hpackets, List.count_append, List.count_append, List.count_cons,
          Option.toList_some, List.count_singleton]
        omega
      · rintro q ⟨⟩
        rfl

theorem Computes.receive (h : Computes s b) {src : NetworkId} {m : Wire.Message} (hsized : m.Sized)
    (hlines : Carried s.lines lines (some ⟨src, id, m⟩)) :
    Computes (System.commit { s with lines := lines } id ((s.nodes id).onMessage src m)) b := by
  obtain ⟨-, calls, hsame, -, htype⟩ | ⟨msg, -, hsame⟩ | ⟨-, -, hsame⟩ :=
    (s.nodes id).onMessage_cases src m
  · rw [hsame]
    refine h.quiet hlines rfl ⟨[], (List.append_nil _).symm, by simp⟩ fun call hcall => ?_
    rw [htype call hcall]
    decide
  · rw [hsame]
    refine h.quiet hlines rfl ⟨[], (List.append_nil _).symm, by simp⟩ ?_
    apply not_isJobType_elect
    intro answer
    rw [Election.Message.answer_eq_build hsized]
    exact not_isJobType_build answer
  · rw [hsame]
    refine h.quiet hlines rfl ⟨[(src, m)], rfl, ?_⟩ (by simp)
    intro e he
    rw [List.mem_singleton.mp he]
    exact ⟨rfl, rfl⟩

theorem Computes.move (h : Computes s b) (hs : WellFormed s) {b₀ : Job.ByteSystem}
    (hb : Relation.ReflTransGen Job.ByteSystem.Step b₀ b) {a : Action} (hok : s.Sound a)
    {t : System} (hmove : Move s a t) :
    ∃ b', Relation.ReflTransGen Job.ByteSystem.Step b₀ b' ∧ Computes t b' := by
  cases hmove with
  | crash hup => exact ⟨b, hb, h.comp, h.packets⟩
  | @silent _ lines hlines =>
    refine ⟨b, hb, h.comp, fun q hq => ?_⟩
    have hold := h.packets q hq
    have hcount := count_traffic_carried hlines q
    change (traffic lines).count q + (queued s q.dst).count q ≤ _
    omega
  | @node _ id p r lines hup hlines hr =>
    cases hr with
    | turn hr => exact h.turn hs hb hlines hr hok
    | @register conn peer hend =>
      exact ⟨b, hb, h.quiet hlines rfl ⟨[], (List.append_nil _).symm, by simp⟩
        (not_isJobType_elect not_isJobType_build _)⟩
    | @discard conn peer hend =>
      exact ⟨b, hb, h.quiet hlines rfl ⟨[], (List.append_nil _).symm, by simp⟩ (by simp)⟩
    | @receive conn count src m hsized => exact ⟨b, hb, h.receive hsized hlines⟩

end Computation

end ParLib.Program
