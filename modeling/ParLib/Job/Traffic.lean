import ParLib.Job.FixedRuns

/-!
# How much is sent

A message makes its reader send others: who takes a job announces its end, and who is
asked to divide announces the two jobs. These chains are short, so that the messages of a
run are bounded by the number of turns in which the leader deals or checks.
-/

namespace ParLib.Job

set_option autoImplicit false

open Foundations

/-- The most that can come of a message among `count` nodes, the message included. -/
def Message.reserve (count : Nat) : Message → Nat
  | .stackAssignment _ _ => count
  | .assignmentFinished _ | .terminate => 1
  | .divideWith _ => count * count

/-- What a turn of the leader can set off among `count` nodes. -/
def traffic (count : Nat) : Nat := (count - 1) * (count + 2) + count * (count * count)

def reserveOf (count : Nat) (sent : List Send) : Nat := (sent.map fun q => q.msg.reserve count).sum

theorem reserveOf_append (count : Nat) (sent later : List Send) :
    reserveOf count (sent ++ later) = reserveOf count sent + reserveOf count later := by
  rw [reserveOf, List.map_append, List.sum_append]
  rfl

theorem reserveOf_broadcast (count : Nat) (net : Net) (msg : Message) :
    reserveOf count (net.broadcastMsg msg) = net.clients.length * msg.reserve count := by
  rw [reserveOf, Net.broadcastMsg, List.map_map]
  induction net.clients with
  | nil => simp
  | cons client clients ih =>
    rw [List.map_cons, List.sum_cons, ih, List.length_cons]
    simp only [Function.comp_apply]
    ring

namespace Computation

open ClientSets

/-- Who computes announces his end to the others. -/
def reserve (count : Nat) (c : Computation) : Nat := if c.state = .computing then count - 1 else 0

theorem reserve_le (count : Nat) (c : Computation) : c.reserve count ≤ count - 1 := by
  rw [reserve]
  split <;> omega

variable {net : Net} {count : Nat}

theorem reserveOf_onDivideWith (hclients : net.clients.length + 1 ≤ count) (c : Computation)
    (id : NetworkId) : reserveOf count (c.onDivideWith net id).2 ≤ (count - 1) * count := by
  cases eq_or_ne c.stack [] with
  | inl hnil =>
    rw [onDivideWith_of_nil net id hnil]
    exact Nat.zero_le _
  | inr hwork =>
    rw [onDivideWith_of_ne_nil net id hwork, reserveOf_broadcast]
    exact Nat.mul_le_mul_right count (by omega)

theorem reserveOf_divideJobs (hclients : net.clients.length + 1 ≤ count)
    (working needJob : List NetworkId) (c : Computation) :
    reserveOf count (divideJobs net working needJob c).2 ≤ working.length * (count * count) := by
  induction working generalizing needJob c with
  | nil => simp [divideJobs, reserveOf]
  | cons w working ih =>
    cases needJob with
    | nil => simp [divideJobs, reserveOf]
    | cons id needJob =>
      rw [List.length_cons, Nat.succ_mul, Nat.add_comm, divideJobs]
      split
      · rw [reserveOf_append]
        refine Nat.add_le_add ?_ (ih needJob c)
        rw [Net.sendMsg]
        split <;> simp [reserveOf, Message.reserve]
      · rw [reserveOf_append]
        refine Nat.add_le_add ?_ (ih needJob _)
        calc reserveOf count (c.onDivideWith net id).2
            ≤ (count - 1) * count := reserveOf_onDivideWith hclients c id
          _ ≤ count * count := Nat.mul_le_mul_right count (Nat.sub_le count 1)

/-- A check repeats its table or ends the computation, and asks for divisions. -/
theorem reserveOf_checkTable (hclients : net.clients.length + 1 ≤ count) (c : Computation)
    {table : StackAssignment}
    (hconnected : ∀ k, table.getAssignment k ≠ [] → k ∈ net.knownClients)
    (hlisted : ∀ k ∈ net.knownClients, k ∈ table.getClients) (sync : Bool) :
    reserveOf count (c.checkTable net table sync).2 + (count - 1) ≤ traffic count := by
  have hlost : (settled net table).disconnected.size = 0 := by
    rw [OrdSet.size_eq_zero]
    intro k hk
    obtain ⟨hknown, hjob⟩ := mem_disconnected.mp hk
    exact hknown (hconnected k hjob)
  have hnew : (settled net table).new.elems = [] := by
    rw [List.eq_nil_iff_forall_not_mem]
    intro k hk
    obtain ⟨hknown, hunlisted⟩ := mem_new.mp hk
    exact hunlisted (hlisted k hknown)
  have hfirst : reserveOf count (firstSent net table sync) ≤ (count - 1) * count + (count - 1) := by
    have hsynced : reserveOf count (if sync then
        net.broadcastMsg (.stackAssignment (settledTable net table) true) else []) ≤
          (count - 1) * count := by
      split
      · rw [reserveOf_broadcast]
        exact Nat.mul_le_mul_right count (by omega)
      · exact Nat.zero_le _
    have hended : reserveOf count (if (settled net table).noJobsLeft then
        net.broadcastMsg .terminate else []) ≤ count - 1 := by
      split
      · rw [reserveOf_broadcast, Message.reserve]
        omega
      · exact Nat.zero_le _
    rw [firstSent, hnew, List.flatMap_nil, List.append_nil, reserveOf_append]
    exact Nat.add_le_add hsynced hended
  have hworking : (settled net table).working.elems.length ≤ count := by
    have hsub : (settled net table).working.elems ⊆ net.knownClients :=
      fun k hk => (mem_working.mp hk).1
    have hle := (List.subperm_of_subset (settled net table).working.nodup hsub).length_le
    have hknown : net.knownClients.length = net.clients.length + 1 := by simp [Net.knownClients]
    omega
  rw [checkTable_eq, giveDisconnectedJobs, hlost, Nat.zero_min, if_neg (lt_irrefl 0),
    List.append_nil, reserveOf_append, traffic]
  have hasked := reserveOf_divideJobs hclients (settled net table).working.elems
    ((settled net table).needJob.elems.drop 0) (c.checked net table)
  calc reserveOf count (firstSent net table sync) + reserveOf count (divideJobs net
          (settled net table).working.elems ((settled net table).needJob.elems.drop 0)
          (c.checked net table)).2 + (count - 1)
      ≤ ((count - 1) * count + (count - 1)) + count * (count * count) + (count - 1) := by
        have hmul := Nat.mul_le_mul_right (count * count) hworking
        omega
    _ = (count - 1) * (count + 2) + count * (count * count) := by ring

end Computation

def Action.reads : Action → Bool
  | .receive _ _ => true
  | .first _ _ _ | .compute _ | .endRead _ | .connect _ _ | .crash _ | .discard _ _ => false

namespace System

variable {members : Finset NetworkId} {leader x : NetworkId} {M : Matrix} {start s t : System}

/-- The turns in which a leader deals, or its time for a check has come. -/
def checks (s : System) : Action → Bool
  | .first id timeUp _ => (s.net id).leader && ((s.comp id).state = .initial || timeUp)
  | .compute _ | .receive _ _ | .endRead _ | .connect _ _ | .crash _ | .discard _ _ => false

def reserve (members : Finset NetworkId) (s : System) : Nat :=
  s.total members (Computation.reserve members.card) fun p => p.msg.reserve members.card

theorem reserve_send (s : System) (hx : x ∈ members) (phase : Phase) (c : Computation)
    (sent : List Send) : (s.commit x phase (c, sent)).reserve members +
        (s.comp x).reserve members.card =
      s.reserve members + c.reserve members.card + reserveOf members.card sent :=
  total_send s hx _ _ phase c sent

theorem reserve_read {pre post : List Packet} {p : Packet} (hpackets : s.packets = pre ++ p :: post)
    (hx : p.dst ∈ members) (phase : Phase) (c : Computation) (sent : List Send) :
    (({ s with packets := pre ++ post } : System).commit p.dst phase (c, sent)).reserve members +
        (s.comp p.dst).reserve members.card + p.msg.reserve members.card =
      s.reserve members + c.reserve members.card + reserveOf members.card sent := by
  have hread : (({ s with packets := pre ++ post } : System).commit p.dst phase
      (c, sent)).reserve members + (s.comp p.dst).reserve members.card = _ :=
    total_commit s hx _ _ (pre ++ post) phase c sent
  rw [hread, reserve, total, hpackets, reserveOf]
  simp only [List.map_append, List.map_cons, List.sum_append, List.sum_cons]
  omega

/-- Dealing sends one assignment to each client. -/
theorem reserve_init (h : s.Regular members leader) {r : Computation × List Send}
    (hr : { s.comp leader with state := .waiting }.initLeaderStep (s.net leader) = some r) :
    (s.commit leader .compute r).reserve members ≤ traffic members.card + s.reserve members := by
  obtain ⟨mc, ps, pars, assign, -, -, -, -, heq⟩ := h.mesh.dealt hr
  have hclients := h.length_clients h.leader_mem
  have hsent : reserveOf members.card r.2 ≤ (members.card - 1) * members.card := by
    rw [heq, reserveOf_broadcast]
    exact Nat.mul_le_mul_right members.card (by omega)
  have hcommit := s.reserve_send h.leader_mem .compute r.1 r.2
  rw [Prod.mk.eta] at hcommit
  have hnode := Computation.reserve_le members.card r.1
  have hcredit : (members.card - 1) * members.card + (members.card - 1) ≤ traffic members.card :=
    calc (members.card - 1) * members.card + (members.card - 1)
        ≤ (members.card - 1) * (members.card + 2) := by
          rw [Nat.mul_add]
          omega
      _ ≤ traffic members.card := Nat.le_add_right ..
  omega

theorem reserve_check (h : s.Regular members leader) {table : StackAssignment}
    (htable : (s.comp leader).currAssignment = some table)
    (hstarted : (s.comp leader).state ≠ .initial) (sync : Bool) :
    (s.commit leader .compute
      ((s.comp leader).checkTable (s.net leader) table sync)).reserve members ≤
        traffic members.card + s.reserve members := by
  have hlisted : ∀ k ∈ (s.net leader).knownClients, k ∈ table.getClients := by
    intro k hk
    have hcomplete := h.complete hstarted k ((h.mesh.mem_knownClients h.leader_mem).mp hk)
    rwa [Computation.Listed, htable] at hcomplete
  have hsent := Computation.reserveOf_checkTable (h.length_clients h.leader_mem) (s.comp leader)
    (fun k => h.connected htable) hlisted sync
  have hcommit := s.reserve_send h.leader_mem .compute
    ((s.comp leader).checkTable (s.net leader) table sync).1
    ((s.comp leader).checkTable (s.net leader) table sync).2
  have hnode := Computation.reserve_le members.card
    ((s.comp leader).checkTable (s.net leader) table sync).1
  rw [Prod.mk.eta] at hcommit
  omega

/-- What a message sets off is paid for by the message. -/
theorem reserve_onMessage (h : s.Regular members leader) {pre post : List Packet} {p : Packet}
    {r : Computation × List Send} (hpackets : s.packets = pre ++ p :: post)
    (hr : (s.comp p.dst).onMessage (s.net p.dst) p.src p.msg = some r) :
    1 + (({ s with packets := pre ++ post } : System).commit p.dst .read r).reserve members ≤
      s.reserve members := by
  have hdst := (h.mem_of_packet (mem_of_read hpackets)).2.1
  have hclients := h.length_clients hdst
  have hread := reserve_read hpackets hdst .read r.1 r.2
  rw [Prod.mk.eta] at hread
  -- a node that computes already goes on to owe its announcement
  have hkept : r.1.reserve members.card ≤ (s.comp p.dst).reserve members.card →
      reserveOf members.card r.2 + 1 ≤ p.msg.reserve members.card →
      1 + (({ s with packets := pre ++ post } : System).commit p.dst .read r).reserve members ≤
        s.reserve members := by
    intro hnode hsent
    omega
  have hstarts : reserveOf members.card r.2 + members.card ≤ p.msg.reserve members.card →
      1 + (({ s with packets := pre ++ post } : System).commit p.dst .read r).reserve members ≤
        s.reserve members := by
    intro hsent
    have hnode := Computation.reserve_le members.card r.1
    omega
  cases hmsg : p.msg with
  | stackAssignment assign resent =>
    rw [hmsg] at hr
    cases hr
    apply hstarts
    rw [hmsg]
    exact (Nat.zero_add _).le
  | assignmentFinished best =>
    rw [hmsg] at hr
    obtain ⟨c, hc, rfl⟩ := Option.map_eq_some_iff.mp hr
    apply hkept
    · rw [Computation.reserve, Computation.reserve,
        (Computation.onAssignmentFinished_eq_some hc).2.2.2.1]
    · rw [hmsg]
      exact Nat.le_refl 1
  | terminate =>
    rw [hmsg] at hr
    cases hr
    apply hkept
    · exact Nat.zero_le _
    · rw [hmsg]
      exact Nat.le_refl 1
  | divideWith id =>
    rw [hmsg] at hr
    cases hr
    apply hstarts
    rw [hmsg]
    calc reserveOf members.card ((s.comp p.dst).onDivideWith (s.net p.dst) id).2 + members.card
        ≤ (members.card - 1) * members.card + members.card :=
          Nat.add_le_add_right (Computation.reserveOf_onDivideWith hclients _ id) _
      _ = members.card * members.card := by
          rw [← Nat.succ_mul, Nat.succ_eq_add_one, Nat.sub_add_cancel (by omega)]

/-- A step that sends nothing and starts nobody. -/
theorem reserve_quiet (members : Finset NetworkId) (s : System) (x : NetworkId) (phase : Phase)
    {c : Computation} (hnode : c.state = .computing → s.Computing x) :
    (s.commit x phase (c, [])).reserve members ≤ s.reserve members := by
  by_cases hx : x ∈ members
  · have hcommit := s.reserve_send hx phase c []
    have hnone : reserveOf members.card [] = 0 := rfl
    have hle : c.reserve members.card ≤ (s.comp x).reserve members.card := by
      rw [Computation.reserve]
      split
      · rename_i hcomputing
        rw [Computation.reserve, if_pos (show (s.comp x).state = .computing from hnode hcomputing)]
      · exact Nat.zero_le _
    omega
  · have hothers : ∀ y ∈ members, ((s.commit x phase (c, [])).comp y).reserve members.card =
        (s.comp y).reserve members.card := by
      intro y hy
      rw [commit_comp_of_ne _ _ _ (ne_of_mem_of_not_mem hy hx)]
    rw [reserve, total, Finset.sum_congr rfl hothers, commit_packets, List.map_nil, List.append_nil]
    exact Nat.le_refl _

theorem reserve_compute (h : s.Regular members leader) {r : Computation × List Send}
    (hr : (s.comp x).computeStep (s.net x) = some r) :
    (s.commit x .read r).reserve members ≤ s.reserve members := by
  obtain ⟨mc, ps, -, rfl | ⟨hcomputing, -, hsent, -, hwaiting, -⟩⟩ :=
    Computation.computeStep_eq_some hr
  · exact reserve_quiet members s x .read fun hcomputing => hcomputing
  · have hx := ((h.fit x).employed hcomputing).1
    have hclients := h.length_clients hx
    have hcommit := s.reserve_send hx .read r.1 r.2
    rw [Prod.mk.eta, hsent, reserveOf_broadcast, Computation.reserve, if_pos hcomputing,
      Computation.reserve, if_neg (by simp [hwaiting]), Message.reserve] at hcommit
    omega

/-- A step spends what it reads, and only a turn of the leader puts something in. -/
theorem reserve_next {a : Action} (h : s.Regular members leader) (ha : a.Fixed)
    (hstep : s.next a = some t) :
    a.reads.toNat + t.reserve members ≤
      (s.checks a).toNat * traffic members.card + s.reserve members := by
  have hquiet : a.reads = false → t.reserve members ≤ s.reserve members →
      a.reads.toNat + t.reserve members ≤
        (s.checks a).toNat * traffic members.card + s.reserve members := by
    intro hreads hle
    rw [hreads, Bool.toNat_false, Nat.zero_add]
    exact hle.trans (Nat.le_add_left _ _)
  cases move_of_next hstep with
  | @first id timeUp sync r hlive hr =>
    cases hr with
    | init hleads hstate hr =>
      obtain rfl := h.mesh.eq_of_leads hleads
      have hchecks : s.checks (.first id timeUp sync) = true := by simp [checks, hleads, hstate]
      rw [Action.reads, hchecks, Bool.toNat_false, Bool.toNat_true, Nat.zero_add, Nat.one_mul]
      exact reserve_init h hr
    | check hleads hstate htime htable =>
      obtain rfl := h.mesh.eq_of_leads hleads
      have hstarted : (s.comp id).state ≠ .initial := by
        cases hstate with
        | inl hcomputing => simp [hcomputing]
        | inr hwaiting => simp [hwaiting]
      have hchecks : s.checks (.first id timeUp sync) = true := by simp [checks, hleads, htime]
      rw [Action.reads, hchecks, Bool.toNat_false, Bool.toNat_true, Nat.zero_add, Nat.one_mul]
      exact reserve_check h htable hstarted sync
    | @idle c _ _ _ _ _ hstate =>
      apply hquiet rfl
      apply reserve_quiet
      intro hcomputing
      cases hstate with
      | inl hsame => exact hsame.symm.trans hcomputing
      | inr hstarts => simp [hstarts.2.2] at hcomputing
  | compute hr => exact hquiet rfl (reserve_compute h hr)
  | @receive id src pre post p r hpackets hfound herase hsrc hdst hr =>
    subst hsrc hdst
    rw [Action.reads, checks, Bool.toNat_true, Bool.toNat_false, Nat.zero_mul, Nat.zero_add]
    exact reserve_onMessage h hpackets hr
  | endRead => exact hquiet rfl (reserve_quiet members s _ .first fun hcomputing => hcomputing)
  | connect | crash | discard => exact ha.elim

/-- Every message in flight has something in reserve, if only for itself. -/
theorem length_le_reserve (h : s.Regular members leader) :
    s.packets.length ≤ s.reserve members := by
  have hcard : 1 ≤ members.card := Finset.card_pos.mpr ⟨leader, h.leader_mem⟩
  have hone : ∀ msg : Message, 1 ≤ msg.reserve members.card := by
    intro msg
    cases msg with
    | stackAssignment => exact hcard
    | assignmentFinished | terminate => exact Nat.le_refl 1
    | divideWith => exact Nat.mul_pos hcard hcard
  have hpackets : s.packets.length ≤
      (s.packets.map fun p => p.msg.reserve members.card).sum := by
    induction s.packets with
    | nil => simp
    | cons p packets ih =>
      have hp := hone p.msg
      rw [List.length_cons, List.map_cons, List.sum_cons]
      omega
  exact hpackets.trans (Nat.le_add_left _ _)

/-- However late messages are read, a run sends no more than the leader's turns allow. -/
theorem traffic_is_bounded {turns read : Nat} (hstart : Start members leader M start)
    (hrun : CountedRun next (fun _ a => a.Fixed) checks (fun _ a => a.reads) start s turns read) :
    read + s.packets.length ≤ turns * traffic members.card := by
  have hregular := regular_of_start hstart
  obtain ⟨hs, hbound⟩ := hrun.bounded hregular fun t a u ht ha hstep =>
    ⟨regular_next ha hstep ht, reserve_next ht ha hstep⟩
  have hstill : start.reserve members = 0 := by
    rw [reserve, total, hstart.packets]
    simp [hstart.comp, Computation.reserve, Computation.new]
  have hflight := length_le_reserve hs
  omega

/-- "B" deals, and "A" takes its share. -/
def takingRun : List Action :=
  [.first idB false false, .first idA false false, .compute idA, .receive idA idB]

theorem traffic_is_bounded_two_nodes :
    ∃ s, CountedRun next (fun _ a => a.Fixed) checks (fun _ a => a.reads)
      (.initial [idA, idB] idB fourClique) s 1 1 ∧ 1 + s.packets.length ≤ 1 * traffic 2 := by
  have hstart : Start [idA, idB].toFinset idB fourClique _ :=
    start_initial (by decide) (by decide) fourClique
  have hcounts : (runCounted next checks (fun _ a => a.reads)
      (.initial [idA, idB] idB fourClique, 0, 0) takingRun).map Prod.snd = some (1, 1) := by
    decide +kernel
  obtain ⟨⟨s, turns, read⟩, hrun, hcount⟩ := Option.map_eq_some_iff.mp hcounts
  obtain ⟨rfl, rfl⟩ := Prod.mk.inj hcount
  have hcounted : CountedRun next (fun _ a => a.Fixed) checks (fun _ a => a.reads)
      (.initial [idA, idB] idB fourClique) s 1 1 :=
    CountedRun.of_runCounted .refl hrun (by simp [takingRun, Action.Fixed])
  exact ⟨s, hcounted, traffic_is_bounded hstart hcounted⟩

end System

end ParLib.Job
