import ParLib.Job.LeaderCheck
import ParLib.Job.Draining

/-!
# A computation can be ended

The leader's table may record jobs that nobody has any more, if an announcement was read
before the assignment it was meant to undo. The leader gets rid of them when it repeats
its table: whoever is recorded with a job takes it once more, and announces its end.
-/

namespace ParLib.Job

set_option autoImplicit false

open Foundations

namespace Computation

open ClientSets

theorem checkTable_of_done (c : Computation) {net : Net} {table : StackAssignment}
    (hjobs : (settled net table).noJobsLeft = true)
    (hlisted : ∀ k ∈ net.knownClients, k ∈ table.getClients) :
    c.checkTable net table false = (c.checked net table, net.broadcastMsg .terminate) := by
  have hworking : (settled net table).working.elems = [] := by
    rw [List.eq_nil_iff_forall_not_mem]
    intro k hk
    exact (mem_working.mp hk).2 (getAssignment_of_noJobsLeft hjobs k)
  have hnew : (settled net table).new.elems = [] := by
    rw [List.eq_nil_iff_forall_not_mem]
    intro k hk
    obtain ⟨hknown, hunlisted⟩ := mem_new.mp hk
    exact hunlisted (hlisted k hknown)
  have hlost : (settled net table).disconnected.size = 0 := by
    rw [OrdSet.size_eq_zero]
    intro k hk
    exact (mem_disconnected.mp hk).2 (getAssignment_of_noJobsLeft hjobs k)
  rw [checkTable_eq, hworking, giveDisconnectedJobs, hlost, Nat.zero_min, if_neg (lt_irrefl 0),
    firstSent, hnew, hjobs]
  simp [divideJobs]

theorem repeats_of_sync (c : Computation) {net : Net} (table : StackAssignment) {k : NetworkId}
    (hk : k ∈ net.clients) :
    ⟨k, .stackAssignment (settledTable net table) true⟩ ∈ (c.checkTable net table true).2 := by
  rw [checkTable_eq]
  apply List.mem_append_left
  apply List.mem_append_left
  rw [firstSent]
  apply List.mem_append_left
  apply List.mem_append_left
  exact Net.mem_broadcastMsg.mpr ⟨hk, rfl⟩

end Computation

namespace System

variable {members : Finset NetworkId} {leader x : NetworkId} {M : Matrix} {s t : System}

/-- Somebody still owes the leader an announcement for the job that it records. -/
inductive Owes (leader k : NetworkId) (s : System) : Prop
  | works (hcomputing : s.Computing k)
  | takes {p : Packet} {assign : StackAssignment} {resent : Bool} (hp : p ∈ s.packets)
      (hdst : p.dst = k) (hmsg : p.msg = .stackAssignment assign resent)
      (hjob : assign.getAssignment k ≠ [])
  | announces {p : Packet} {best : Int32} (hp : p ∈ s.packets) (hsrc : p.src = k)
      (hdst : p.dst = leader) (hmsg : p.msg = .assignmentFinished best)

/-- Nothing will be assigned to the leader's table, and every job in it will be announced. -/
structure Heeded (leader : NetworkId) (s : System) : Prop where
  unassigned : ∀ p ∈ s.packets, p.dst = leader → ¬ IsAssignment p
  owed : ∀ k, s.recorded leader k ≠ [] → s.Owes leader k

theorem Heeded.quiet (h : s.Heeded leader) (hquiet : s.Quiet) (k : NetworkId) :
    s.recorded leader k = [] := by
  by_contra hrecorded
  cases h.owed k hrecorded with
  | works hcomputing => exact hquiet.2 k hcomputing
  | takes hp | announces hp =>
    rw [hquiet.1] at hp
    cases hp

theorem Quiet.heeded (hquiet : s.Quiet) (hnone : ∀ k, s.recorded leader k = []) :
    s.Heeded leader := by
  constructor
  · intro p hp
    rw [hquiet.1] at hp
    cases hp
  · exact fun k hk => absurd (hnone k) hk

theorem Still.quiet (h : s.Still t) (hquiet : s.Quiet) : t.Quiet :=
  ⟨h.1.trans hquiet.1, fun x => (h.2 x).not.mpr (hquiet.2 x)⟩

theorem Heeded.commit (h : s.Heeded leader) {phase : Phase} {r : Computation × List Send}
    (hrecorded : ∀ k, (s.commit x phase r).recorded leader k ≠ [] →
      s.recorded leader k ≠ [] ∧ (k = x → s.Computing x → r.1.state = .computing ∨
        (s.commit x phase r).Owes leader x))
    (hsent : ∀ q ∈ r.2, q.destId = leader → ¬ IsAssignment ⟨x, q.destId, q.msg⟩) :
    (s.commit x phase r).Heeded leader := by
  constructor
  · intro p hp
    rcases mem_commit_packets.mp hp with hp | ⟨q, hq, rfl⟩
    · exact h.unassigned p hp
    · exact hsent q hq
  · intro k hk
    obtain ⟨hbefore, hkept⟩ := hrecorded k hk
    cases h.owed k hbefore with
    | works hcomputing =>
      rcases eq_or_ne k x with rfl | hne
      · rcases hkept rfl hcomputing with hstate | howes
        · exact .works ((computing_commit_self _ _ _ _).mpr hstate)
        · exact howes
      · exact .works ((computing_commit_of_ne _ _ _ hne).mpr hcomputing)
    | takes hp hdst hmsg hjob =>
      exact .takes (mem_commit_packets.mpr (.inl hp)) hdst hmsg hjob
    | announces hp hsrc hdst hmsg =>
      exact .announces (mem_commit_packets.mpr (.inl hp)) hsrc hdst hmsg

/-- Reading the first message uses up only what that message stands for. -/
theorem Heeded.read (h : s.Heeded leader) {p : Packet} {rest : List Packet} {c : Computation}
    (hidle : ∀ x, ¬ s.Computing x) (hpackets : s.packets = p :: rest)
    (hrecorded : ∀ k, (({ s with packets := rest } : System).commit p.dst .read (c, [])).recorded
      leader k ≠ [] → s.recorded leader k ≠ [])
    (htake : ∀ assign resent, p.msg = .stackAssignment assign resent →
      assign.getAssignment p.dst ≠ [] → c.state = .computing)
    (hhear : ∀ best, p.msg = .assignmentFinished best → p.dst = leader →
      (({ s with packets := rest } : System).commit p.dst .read (c, [])).recorded leader p.src =
        []) :
    (({ s with packets := rest } : System).commit p.dst .read (c, [])).Heeded leader := by
  have hrest : ∀ q ∈ s.packets, q = p ∨
      q ∈ (({ s with packets := rest } : System).commit p.dst .read (c, [])).packets := by
    intro q hq
    rw [hpackets] at hq
    exact (List.mem_cons.mp hq).imp_right fun hq => mem_commit_packets.mpr (.inl hq)
  constructor
  · intro q hq
    rcases mem_commit_packets.mp hq with hq | ⟨q, hq, -⟩
    · exact h.unassigned q (hpackets ▸ List.mem_cons_of_mem p hq)
    · cases hq
  · intro k hk
    cases h.owed k (hrecorded k hk) with
    | works hcomputing => exact absurd hcomputing (hidle k)
    | takes hq hdst hmsg hjob =>
      rcases hrest _ hq with rfl | hq
      · obtain rfl := hdst
        exact .works ((computing_commit_self _ _ _ _).mpr (htake _ _ hmsg hjob))
      · exact .takes hq hdst hmsg hjob
    | announces hq hsrc hdst hmsg =>
      rcases hrest _ hq with rfl | hq
      · obtain rfl := hsrc
        exact absurd (hhear _ hmsg hdst) hk
      · exact .announces hq hsrc hdst hmsg

theorem recorded_commit_follower {s : System} {phase : Phase} {r : Computation × List Send}
    (hrecorded : ∀ k, r.1.recorded k = s.recorded x k) (k : NetworkId) :
    (s.commit x phase r).recorded leader k = s.recorded leader k := by
  rcases eq_or_ne leader x with rfl | hne
  · rw [recorded_commit_self, hrecorded]
  · exact recorded_commit_of_ne _ _ _ hne k

theorem heeded_of_drains {a : Action} (hregular : s.Regular members leader)
    (h : s.Heeded leader) (hdrains : s.Drains members a t) : t.Heeded leader := by
  cases hdrains with
  | @idle x phase c _ hx _ _ hrecorded hstate =>
    refine h.commit (fun k hk => ?_) (by simp)
    rw [recorded_commit_follower hrecorded] at hk
    refine ⟨hk, fun _ hcomputing => .inl ?_⟩
    rcases hstate with hsame | ⟨hinitial, -⟩
    · exact hsame.trans hcomputing
    · rw [Computing, hinitial] at hcomputing
      cases hcomputing
  | @explore x mc ps _ hx hcomputing =>
    refine h.commit (fun k hk => ?_) (by simp)
    rw [recorded_commit_follower fun _ => rfl] at hk
    exact ⟨hk, fun _ _ => .inl hcomputing⟩
  | @finish x r best _ hx hcomputing hwaiting hsent hrecorded =>
    refine h.commit ?_ ?_
    · intro k hk
      rcases eq_or_ne leader x with rfl | hne
      · rw [recorded_commit_self, hrecorded] at hk
        split at hk
        · exact absurd rfl hk
        · rename_i hother
          exact ⟨hk, fun heq => absurd heq hother⟩
      · rw [recorded_commit_of_ne _ _ _ hne] at hk
        refine ⟨hk, fun _ _ => .inr ?_⟩
        have hclient : leader ∈ (s.net x).clients :=
          (hregular.mesh.clients x leader).mpr ⟨hx, hregular.leader_mem, hne⟩
        refine .announces (p := ⟨x, leader, .assignmentFinished best⟩) ?_ rfl rfl rfl
        refine mem_commit_packets.mpr (.inr ⟨⟨leader, .assignmentFinished best⟩, ?_, rfl⟩)
        rw [hsent]
        exact Net.mem_broadcastMsg.mpr ⟨hclient, rfl⟩
    · rintro q hq - ⟨assign, resent, hassign⟩
      rw [hsent] at hq
      rw [(Net.mem_broadcastMsg.mp hq).2] at hassign
      cases hassign
  | @take p rest assign resent _ hidle hpackets hmsg =>
    have hother : leader ≠ p.dst := by
      intro heq
      exact h.unassigned p (hpackets ▸ List.mem_cons_self) heq.symm ⟨assign, resent, hmsg⟩
    refine h.read hidle hpackets (fun k hk => ?_) ?_ fun best hmsg' => ?_
    · rwa [recorded_commit_of_ne _ _ _ hother] at hk
    · intro assign' resent' hmsg' hjob
      obtain ⟨rfl, -⟩ := Message.stackAssignment.inj (hmsg.symm.trans hmsg')
      rw [(Computation.onAssignment_of_not_computing _ _ _ (hidle p.dst)).2,
        hregular.mesh.networkId, if_neg hjob]
    · rw [hmsg] at hmsg'
      cases hmsg'
  | @hear p rest c best _ hidle hpackets hmsg _ _ hrecorded =>
    refine h.read hidle hpackets (fun k hk => ?_) (fun assign resent hmsg' => ?_) ?_
    · rcases eq_or_ne leader p.dst with heq | hne
      · rw [heq, recorded_commit_self, hrecorded] at hk
        split at hk
        · exact absurd rfl hk
        · rwa [heq]
      · rwa [recorded_commit_of_ne _ _ _ hne] at hk
    · rw [hmsg] at hmsg'
      cases hmsg'
    · rintro - - rfl
      rw [recorded_commit_self, hrecorded, if_pos rfl]
  | @decline p rest client _ hidle hpackets hmsg =>
    refine h.read hidle hpackets (fun k hk => ?_) (fun assign resent hmsg' => ?_)
      fun best hmsg' => ?_
    · rwa [recorded_commit_follower fun _ => rfl] at hk
    · rw [hmsg] at hmsg'
      cases hmsg'
    · rw [hmsg] at hmsg'
      cases hmsg'

theorem Regular.leader_table (h : s.Regular members leader)
    (hstarted : (s.comp leader).state ≠ .initial) :
    (s.comp leader).currAssignment.isSome = true := by
  have hlisted := h.complete hstarted leader h.leader_mem
  cases htable : (s.comp leader).currAssignment with
  | some table => rfl
  | none =>
    rw [Computation.Listed, htable] at hlisted
    cases hlisted

theorem Drainable.heeded (h : s.Drainable members leader M) (hheeded : s.Heeded leader)
    (hrun : Run System.next (Draining members leader) s t) : t.Heeded leader := by
  have hboth := hrun.invariant (P := fun s => s.Drainable members leader M ∧ s.Heeded leader)
    ⟨h, hheeded⟩ fun s a t h ha hstep => by
      obtain ⟨ht, hdrains⟩ := h.1.next ha hstep
      exact ⟨ht, heeded_of_drains h.1.regular h.2 hdrains⟩
  exact hboth.2

theorem Drainable.exists_check (h : s.Drainable members leader M)
    (hstarted : (s.comp leader).state ≠ .initial) (hphase : s.phase leader = .first)
    (hidle : ¬ s.Computing leader) (sync : Bool) :
    ∃ table, (s.comp leader).currAssignment = some table ∧
      s.next (.first leader true sync) = some (s.commit leader .compute
        ((s.comp leader).checkTable (s.net leader) table sync)) := by
  have hlive := h.isOpen.unfinished leader h.regular.leader_mem
  obtain ⟨table, htable⟩ := Option.isSome_iff_exists.mp
    (h.regular.leader_table hstarted)
  refine ⟨table, htable, ?_⟩
  have hlead : (s.net leader).leader = true := by rw [h.regular.mesh.leads, decide_eq_true rfl]
  rw [System.next, if_pos ⟨by simp [atPhase, h.regular.running, hphase], hlive⟩,
    Computation.firstStep, if_pos hlead]
  have hstep : (s.comp leader).leaderStep (s.net leader) true sync =
      some ((s.comp leader).checkTable (s.net leader) table sync) := by
    rw [Computation.leaderStep]
    cases hstate : (s.comp leader).state with
    | initial => exact absurd hstate hstarted
    | computing => exact absurd hstate hidle
    | finished => exact absurd hstate hlive
    | waiting => simp [Computation.checkAssignments, htable]
    | terminating => exact absurd hstate (h.regular.fit leader).unhalted
  rw [hstep, Option.map_some]

theorem Drainable.checkTable_fst (h : s.Drainable members leader M) (hidle : ¬ s.Computing leader)
    {table : StackAssignment} (htable : (s.comp leader).currAssignment = some table) (sync : Bool) :
    ((s.comp leader).checkTable (s.net leader) table sync).1 =
      (s.comp leader).checked (s.net leader) table := by
  obtain ⟨before, own, after, -, -, -, ⟨heq, -⟩ | ⟨id, -, -, -, heq⟩⟩ :=
    Computation.checkTable_of_connected (c := s.comp leader)
      (fun k => h.regular.connected htable) sync
  · exact heq
  · have hnil : ((s.comp leader).checked (s.net leader) table).stack = [] :=
      h.isOpen.stack_eq_nil h.regular h.regular.leader_mem hidle
    rw [congrArg Prod.fst heq, Computation.onDivideWith_of_nil _ id hnil]

/-- Repeating its table gets a leader that waits an answer for every job it records. -/
theorem Drainable.exists_repeat (h : s.Drainable members leader M)
    (hstarted : (s.comp leader).state ≠ .initial) (hphase : s.phase leader = .first)
    (hquiet : s.Quiet) {k : NetworkId} (hk : s.recorded leader k ≠ []) :
    ∃ t, s.next (.first leader true true) = some t ∧ t.Drainable members leader M ∧
      (t.comp leader).state ≠ .initial ∧ t.Heeded leader := by
  obtain ⟨table, htable, hstep⟩ := h.exists_check hstarted hphase (hquiet.2 leader) true
  have hchecked := h.checkTable_fst (hquiet.2 leader) htable true
  have hrecorded : ∀ k, s.recorded leader k = table.getAssignment k := by
    intro k
    rw [System.recorded, Computation.recorded, htable]
    rfl
  have hjobs : (Computation.ClientSets.settled (s.net leader) table).noJobsLeft = false := by
    rw [Bool.eq_false_iff]
    intro hnone
    rw [hrecorded] at hk
    exact hk (Computation.ClientSets.noJobsLeft_iff.mp hnone k)
  have hsent := fun q hq => (Computation.checkTable_sent (s.comp leader) (s.net leader) table true q
    hq).1
  have hregular := regular_next (a := .first leader true true) trivial hstep h.regular
  refine ⟨_, hstep, ⟨hregular, genuine_next hstep h.genuine, ?_⟩, ?_, ?_⟩
  · constructor
    · intro x hx
      rcases eq_or_ne x leader with rfl | hne
      · rw [commit_comp_self]
        exact Computation.checkTable_not_finished true (h.isOpen.unfinished x hx) hjobs
      · rw [commit_comp_of_ne _ _ _ hne]
        exact h.isOpen.unfinished x hx
    · intro p hp hend
      rcases mem_commit_packets.mp hp with hp | ⟨q, hq, rfl⟩
      · exact h.isOpen.unended p hp hend
      · have hnone := Computation.checkTable_terminates (s.comp leader) (s.net leader) table true
        rw [hjobs, if_neg Bool.false_ne_true, List.filter_eq_nil_iff] at hnone
        exact hnone q hq (by rw [show q.msg = .terminate from hend]; rfl)
  · rw [commit_comp_self]
    exact Computation.checkTable_started _ _ true hstarted
  · constructor
    · intro p hp hdst
      rcases mem_commit_packets.mp hp with hp | ⟨q, hq, rfl⟩
      · rw [hquiet.1] at hp
        cases hp
      · exact absurd hdst ((h.regular.mesh.clients leader _).mp (hsent q hq)).2.2
    · intro k hk
      rw [recorded_commit_self, hchecked, Computation.checked_recorded htable] at hk
      have hne : k ≠ leader := by
        rintro rfl
        exact hquiet.2 k ((h.regular.fit k).own rfl hk)
      have hmember : k ∈ members :=
        (h.regular.fit leader).listed k (Computation.listed_of_recorded hk)
      have hclient : k ∈ (s.net leader).clients :=
        (h.regular.mesh.clients leader k).mpr ⟨h.regular.leader_mem, hmember, hne⟩
      refine .takes (mem_commit_packets.mpr (.inr ⟨_, Computation.repeats_of_sync _ table hclient,
        rfl⟩)) rfl rfl ?_
      rw [Computation.ClientSets.getAssignment_settledTable, ← hrecorded]
      exact hk

/-- Everything can be worked off until the leader's table records nothing. -/
theorem Drainable.exists_done (hM : 1 ≤ M.size) (h : s.Drainable members leader M)
    (hstarted : (s.comp leader).state ≠ .initial) :
    ∃ t, Run System.next (fun _ a => a.Fixed) s t ∧ t.Drainable members leader M ∧
      (t.comp leader).state ≠ .initial ∧ t.phase leader = .first ∧ t.Quiet ∧
      ∀ k, t.recorded leader k = [] := by
  -- once the table is heeded, whatever is still to be done ends with an empty table
  have hheed : ∀ {u : System}, Run System.next (fun _ a => a.Fixed) s u →
      u.Drainable members leader M → (u.comp leader).state ≠ .initial → u.Heeded leader →
      ∃ t, Run System.next (fun _ a => a.Fixed) s t ∧ t.Drainable members leader M ∧
        (t.comp leader).state ≠ .initial ∧ t.phase leader = .first ∧ t.Quiet ∧
        ∀ k, t.recorded leader k = [] := by
    intro u hrun hu hstartedu hheeded
    obtain ⟨v, hworked, hquiet⟩ := hu.exists_quiet hM hstartedu
    have hv := hu.run hworked
    obtain ⟨t, hturn, hstill, hphase⟩ :=
      hv.exists_first_phase hM hv.regular.leader_mem (hquiet.2 leader)
    have hall := hworked.trans hturn
    have hquiett := hstill.quiet hquiet
    exact ⟨t, hrun.trans (fixed_of_draining hall), hu.run hall, hu.started hstartedu hall,
      hphase, hquiett, (hu.heeded hheeded hall).quiet hquiett⟩
  obtain ⟨u, hworked, hquiet⟩ := h.exists_quiet hM hstarted
  have hu := h.run hworked
  obtain ⟨v, hturn, hstill, hphase⟩ :=
    hu.exists_first_phase hM hu.regular.leader_mem (hquiet.2 leader)
  have hall := hworked.trans hturn
  have hrun := fixed_of_draining hall
  have hquietv := hstill.quiet hquiet
  have hv := h.run hall
  have hstartedv := h.started hstarted hall
  by_cases hnone : ∀ k, v.recorded leader k = []
  · exact hheed hrun hv hstartedv (hquietv.heeded hnone)
  · obtain ⟨k, hk⟩ := not_forall.mp hnone
    obtain ⟨w, hstep, hw, hstartedw, hheeded⟩ := hv.exists_repeat hstartedv hphase hquietv hk
    have hturned : Action.Fixed (.first leader true true) := trivial
    exact hheed (hrun.tail hturned hstep) hw hstartedw hheeded

/-- The leader has ended the computation, and `left` is still to read it. -/
structure Closing (members : Finset NetworkId) (leader : NetworkId) (M : Matrix)
    (left : List NetworkId) (s : System) : Prop where
  regular : s.Regular members leader
  matrix : ∀ x, (s.comp x).maximumCut.matrix = M
  idle : ∀ x, ¬ s.Computing x
  packets : s.packets = left.map fun x => ⟨leader, x, .terminate⟩
  nodup : left.Nodup
  waits : ∀ x ∈ left, (s.comp x).state ≠ .finished
  ended : ∀ x ∈ members, x ∉ left → (s.comp x).state = .finished

section Closing

variable {left : List NetworkId}

theorem Closing.turn (h : s.Closing members leader M left) (hx : x ∈ left) {a : Action}
    {phase : Phase} {c : Computation} (ha : a.Fixed)
    (hstep : s.next a = some (s.commit x phase (c, [])))
    (hmatrix : c.maximumCut.matrix = (s.comp x).maximumCut.matrix) (hidle : c.state ≠ .computing)
    (hlive : c.state ≠ .finished) : (s.commit x phase (c, [])).Closing members leader M left := by
  refine ⟨regular_next ha hstep h.regular, ?_, ?_, ?_, h.nodup, ?_, ?_⟩
  · intro y
    rcases eq_or_ne y x with rfl | hne
    · rw [commit_comp_self, hmatrix]
      exact h.matrix y
    · rw [commit_comp_of_ne _ _ _ hne]
      exact h.matrix y
  · intro y
    rcases eq_or_ne y x with rfl | hne
    · rwa [computing_commit_self]
    · rw [computing_commit_of_ne _ _ _ hne]
      exact h.idle y
  · simpa using h.packets
  · intro y hy
    rcases eq_or_ne y x with rfl | hne
    · rwa [commit_comp_self]
    · rw [commit_comp_of_ne _ _ _ hne]
      exact h.waits y hy
  · intro y hy hout
    have hne : y ≠ x := by
      rintro rfl
      exact hout hx
    rw [commit_comp_of_ne _ _ _ hne]
    exact h.ended y hy hout

theorem Closing.not_leader (h : s.Closing members leader M left) (hx : x ∈ left) :
    x ∈ members ∧ x ≠ leader := by
  have hp : (⟨leader, x, .terminate⟩ : Packet) ∈ s.packets := by
    rw [h.packets]
    exact List.mem_map_of_mem hx
  exact (h.regular.mem_of_packet hp).2

theorem Closing.exists_compute (h : s.Closing members leader M left) (hx : x ∈ left)
    (hphase : s.phase x = .first) : ∃ t, Run System.next (fun _ a => a.Fixed) s t ∧
      t.Closing members leader M left ∧ t.phase x = .compute := by
  obtain ⟨r, hr⟩ := exists_first h.regular (h.waits x hx) hphase
    fun heq => absurd heq (h.not_leader hx).2
  have hfollows : ¬ (s.net x).leader = true := by
    rw [h.regular.mesh.leads, decide_eq_true_iff]
    exact (h.not_leader hx).2
  obtain ⟨-, hfirst⟩ := Option.ite_none_right_eq_some.mp hr
  obtain ⟨r', hr', hcommit⟩ := Option.map_eq_some_iff.mp hfirst
  rw [← hcommit] at hr
  cases Computation.firstStep_cases hr' with
  | init hleads | check hleads => exact absurd hleads hfollows
  | @idle c hcut _ _ _ _ hstate =>
    refine ⟨_, .tail .refl (by trivial) hr, h.turn hx (by trivial) hr (by rw [hcut]) ?_ ?_,
      Function.update_self ..⟩
    · rcases hstate with hsame | ⟨-, -, hwaiting⟩
      · rw [hsame]
        exact h.idle x
      · simp [hwaiting]
    · rcases hstate with hsame | ⟨-, -, hwaiting⟩
      · rw [hsame]
        exact h.waits x hx
      · simp [hwaiting]

theorem Closing.exists_read (hM : 1 ≤ M.size) (h : s.Closing members leader M left)
    (hx : x ∈ left) :
    ∃ t, Run System.next (fun _ a => a.Fixed) s t ∧ t.Closing members leader M left ∧
      t.phase x = .read := by
  have hcompute : ∀ {u : System}, Run System.next (fun _ a => a.Fixed) s u →
      u.Closing members leader M left → u.phase x = .compute →
      ∃ t, Run System.next (fun _ a => a.Fixed) s t ∧ t.Closing members leader M left ∧
        t.phase x = .read := by
    intro u hrun hu hphase
    obtain ⟨r, hr⟩ := System.exists_compute hu.regular (by rwa [hu.matrix]) hphase
    obtain ⟨-, hstep⟩ := Option.ite_none_right_eq_some.mp hr
    obtain ⟨r', hr', hcommit⟩ := Option.map_eq_some_iff.mp hstep
    rw [← hcommit] at hr
    obtain ⟨mc, ps, hexplored, rfl | ⟨hcomputing, -⟩⟩ := Computation.computeStep_eq_some hr'
    · exact ⟨_, hrun.tail (by trivial) hr, hu.turn hx (by trivial) hr hexplored.matrix (hu.idle x)
        (hu.waits x hx), Function.update_self ..⟩
    · exact absurd hcomputing (hu.idle x)
  cases hphase : s.phase x with
  | read => exact ⟨s, .refl, h, hphase⟩
  | compute => exact hcompute .refl h hphase
  | first =>
    obtain ⟨u, hrun, hu, huphase⟩ := h.exists_compute hx hphase
    exact hcompute hrun hu huphase

theorem Closing.exists_end (hM : 1 ≤ M.size) (h : s.Closing members leader M (x :: left)) :
    ∃ t, Run System.next (fun _ a => a.Fixed) s t ∧ t.Closing members leader M left := by
  obtain ⟨u, hrun, hu, hphase⟩ := h.exists_read hM List.mem_cons_self
  have hpackets := hu.packets
  rw [List.map_cons] at hpackets
  have hstep : u.next (.receive x leader) = some
      (({ u with packets := left.map fun y => ⟨leader, y, .terminate⟩ } : System).commit x .read
        ((u.comp x).onTerminate, [])) := by
    rw [next, if_pos (by simp [atPhase, hu.regular.running, hphase]), hpackets,
      List.find?_cons_of_pos (by simp [Packet.onConnection]),
      List.eraseP_cons_of_pos (by simp [Packet.onConnection])]
    rfl
  obtain ⟨hout, hnodup⟩ := List.nodup_cons.mp hu.nodup
  refine ⟨_, hrun.tail (by trivial) hstep, regular_next (a := .receive x leader) trivial hstep
    hu.regular, ?_, ?_, ?_, hnodup, ?_, ?_⟩
  · intro y
    rcases eq_or_ne y x with rfl | hne
    · rw [commit_comp_self]
      exact hu.matrix y
    · rw [commit_comp_of_ne _ _ _ hne]
      exact hu.matrix y
  · intro y
    rcases eq_or_ne y x with rfl | hne
    · rw [computing_commit_self]
      exact State.noConfusion
    · rw [computing_commit_of_ne _ _ _ hne]
      exact hu.idle y
  · simp
  · intro y hy
    have hne : y ≠ x := by
      rintro rfl
      exact hout hy
    rw [commit_comp_of_ne _ _ _ hne]
    exact hu.waits y (List.mem_cons_of_mem x hy)
  · intro y hy hleft
    rcases eq_or_ne y x with rfl | hne
    · rw [commit_comp_self]
      rfl
    · rw [commit_comp_of_ne _ _ _ hne]
      exact hu.ended y hy (by simp [hne, hleft])

theorem Closing.exists_ended (hM : 1 ≤ M.size) (h : s.Closing members leader M left) :
    ∃ t, Run System.next (fun _ a => a.Fixed) s t ∧ t.packets = [] ∧
      ∀ x ∈ members, (t.comp x).state = .finished := by
  induction left generalizing s with
  | nil => exact ⟨s, .refl, h.packets, fun x hx => h.ended x hx List.not_mem_nil⟩
  | cons x left ih =>
    obtain ⟨u, hrun, hu⟩ := h.exists_end hM
    obtain ⟨t, hrest, ht⟩ := ih hu
    exact ⟨t, hrun.trans hrest, ht⟩

end Closing

/-- A leader without records ends the computation, and its clients are told. -/
theorem Drainable.closing (h : s.Drainable members leader M)
    (hstarted : (s.comp leader).state ≠ .initial) (hphase : s.phase leader = .first)
    (hquiet : s.Quiet) (hnone : ∀ k, s.recorded leader k = []) :
    ∃ t, s.next (.first leader true false) = some t ∧
      t.Closing members leader M (s.net leader).clients := by
  have hleader := h.regular.leader_mem
  obtain ⟨table, htable, hstep⟩ := h.exists_check hstarted hphase (hquiet.2 leader) false
  have hjobs : (Computation.ClientSets.settled (s.net leader) table).noJobsLeft = true := by
    apply Computation.ClientSets.noJobsLeft_iff.mpr
    intro k
    have hk := hnone k
    rwa [System.recorded, Computation.recorded, htable] at hk
  have hlisted : ∀ k ∈ (s.net leader).knownClients, k ∈ table.getClients := by
    intro k hk
    have hcomplete :=
      h.regular.complete hstarted k ((h.regular.mesh.mem_knownClients hleader).mp hk)
    rwa [Computation.Listed, htable] at hcomplete
  rw [(s.comp leader).checkTable_of_done hjobs hlisted] at hstep
  have hfinished : ((s.comp leader).checked (s.net leader) table).state = .finished := by
    rw [Computation.checked, if_pos hjobs]
  have hclients := h.regular.mesh.clients leader
  refine ⟨_, hstep, regular_next (a := .first leader true false) trivial hstep h.regular,
    ?_, ?_, ?_, h.regular.mesh.nodup leader, ?_, ?_⟩
  · intro y
    rcases eq_or_ne y leader with rfl | hne
    · rw [commit_comp_self]
      exact (h.genuine.paths y).matrix
    · rw [commit_comp_of_ne _ _ _ hne]
      exact (h.genuine.paths y).matrix
  · intro y
    rcases eq_or_ne y leader with rfl | hne
    · rw [computing_commit_self]
      simp [hfinished]
    · rw [computing_commit_of_ne _ _ _ hne]
      exact hquiet.2 y
  · rw [commit_packets, hquiet.1, List.nil_append, Net.broadcastMsg, List.map_map]
    rfl
  · intro y hy
    obtain ⟨-, hmember, hne⟩ := (hclients y).mp hy
    rw [commit_comp_of_ne _ _ _ hne]
    exact h.isOpen.unfinished y hmember
  · intro y hy hout
    obtain rfl : y = leader := by
      by_contra hne
      exact hout ((hclients y).mpr ⟨hleader, hy, hne⟩)
    rwa [commit_comp_self]

theorem Drainable.exists_dealt (hM : 1 ≤ M.size) (h : s.Drainable members leader M)
    (hphase : s.phase leader = .first) (hinitial : (s.comp leader).state = .initial) :
    ∃ t, s.next (.first leader false false) = some t ∧ t.Drainable members leader M ∧
      (t.comp leader).state ≠ .initial := by
  have hlive := h.isOpen.unfinished leader h.regular.leader_mem
  have hsize : 1 ≤ (s.comp leader).maximumCut.matrix.size := by
    rwa [(h.genuine.paths leader).matrix]
  obtain ⟨r, hr⟩ := Computation.exists_initLeaderStep
    (c := { s.comp leader with state := .waiting })
    (s.net leader) hsize State.noConfusion
  have hfirst : (s.comp leader).firstStep (s.net leader) false false = some r := by
    rw [Computation.firstStep, h.regular.mesh.leads, decide_eq_true rfl, if_pos rfl,
      Computation.leaderStep, hinitial]
    exact hr
  have hstep : s.next (.first leader false false) = some (s.commit leader .compute r) := by
    rw [System.next, if_pos ⟨by simp [atPhase, h.regular.running, hphase], hlive⟩, hfirst,
      Option.map_some]
  obtain ⟨mc, ps, pars, assign, -, -, -, -, rfl⟩ := h.regular.mesh.dealt hr
  refine ⟨_, hstep, ⟨regular_next (a := .first leader false false) trivial hstep h.regular,
    genuine_next hstep h.genuine, ?_⟩, ?_⟩
  · constructor
    · intro x hx
      rcases eq_or_ne x leader with rfl | hne
      · rw [commit_comp_self]
        exact Computation.onAssignment_not_finished _ _ _
      · rw [commit_comp_of_ne _ _ _ hne]
        exact h.isOpen.unfinished x hx
    · intro p hp hend
      rcases mem_commit_packets.mp hp with hp | ⟨q, hq, rfl⟩
      · exact h.isOpen.unended p hp hend
      · rw [show q.msg = _ from (Net.mem_broadcastMsg.mp hq).2] at hend
        cases hend
  · rw [commit_comp_self]
    exact Computation.onAssignment_started _ _ _

theorem Drainable.exists_started (hM : 1 ≤ M.size) (h : s.Drainable members leader M) :
    ∃ t, Run System.next (fun _ a => a.Fixed) s t ∧ t.Drainable members leader M ∧
      (t.comp leader).state ≠ .initial := by
  by_cases hinitial : (s.comp leader).state = .initial
  · have hleader := h.regular.leader_mem
    obtain ⟨u, hrun, -, hphase⟩ :=
      h.exists_first_phase hM hleader ((h.regular.fresh hinitial).2 leader)
    have hu := h.run hrun
    have hfixed := fixed_of_draining hrun
    by_cases hstill : (u.comp leader).state = .initial
    · obtain ⟨t, hstep, ht, hstarted⟩ := hu.exists_dealt hM hphase hstill
      have hdeals : Action.Fixed (.first leader false false) := trivial
      exact ⟨t, hfixed.tail hdeals hstep, ht, hstarted⟩
    · exact ⟨u, hfixed, hu, hstill⟩
  · exact ⟨s, .refl, h, hinitial⟩

/-- As long as nobody has ended it, a computation of fixed members can be ended, whatever
has been dealt, divided, announced and left unread. -/
theorem computation_can_always_end {start : System} (hM : 1 ≤ M.size)
    (hstart : Start members leader M start)
    (hrun : Run next (fun _ a => a.Fixed) start s)
    (hopen : (∀ x ∈ members, (s.comp x).state ≠ .finished) ∧
      ∀ p ∈ s.packets, p.msg ≠ .terminate) :
    ∃ t, Run next (fun _ a => a.Fixed) s t ∧ t.packets = [] ∧
      ∀ x ∈ members, (t.comp x).state = .finished := by
  have hgenuine := genuine_of_run hstart (hrun.mono fun _ _ _ => trivial)
  have hs : s.Drainable members leader M :=
    ⟨regular_of_run hstart hrun, hgenuine, hopen.1, hopen.2⟩
  obtain ⟨u, hdealt, hu, hstarted⟩ := hs.exists_started hM
  obtain ⟨v, hworked, hv, hstartedv, hphase, hquiet, hnone⟩ := hu.exists_done hM hstarted
  obtain ⟨w, hstep, hw⟩ := hv.closing hstartedv hphase hquiet hnone
  obtain ⟨t, hend, hpackets, hfinished⟩ := hw.exists_ended hM
  have hchecked : Action.Fixed (.first leader true false) := trivial
  exact ⟨t, ((hdealt.trans hworked).tail hchecked hstep).trans hend, hpackets, hfinished⟩

/-- The leader "B" has dealt, and "A" has not yet looked at anything. -/
theorem computation_can_always_end_two_nodes :
    ∃ s, Run next (fun _ a => a.Fixed) (.initial [idA, idB] idB fourClique) s ∧
      s.packets ≠ [] ∧ ∃ t, Run next (fun _ a => a.Fixed) s t ∧ t.packets = [] ∧
        ∀ x ∈ [idA, idB].toFinset, (t.comp x).state = .finished := by
  have hstart : Start [idA, idB].toFinset idB fourClique _ :=
    start_initial (by decide) (by decide) fourClique
  obtain ⟨s, hs⟩ : ∃ s, runActions next (.initial [idA, idB] idB fourClique)
      [.first idB false false] = some s := Option.isSome_iff_exists.mp (by decide +kernel)
  have hchecked : ∀ t ∈ runActions next (.initial [idA, idB] idB fourClique)
      [.first idB false false], t.packets.length = 1 ∧
        (∀ x ∈ [idA, idB].toFinset, (t.comp x).state ≠ .finished) ∧
        ∀ p ∈ t.packets, p.msg.isTerminate = false := by
    decide +kernel
  obtain ⟨hlength, hunfinished, hunended⟩ := hchecked s hs
  have hrun : Run next (fun _ a => a.Fixed) (.initial [idA, idB] idB fourClique) s :=
    .of_runActions hs (by simp [Action.Fixed])
  refine ⟨s, hrun, by simp [← List.length_pos_iff, hlength], ?_⟩
  refine computation_can_always_end (by decide) hstart hrun ⟨hunfinished, fun p hp hmsg => ?_⟩
  have hnot := hunended p hp
  rw [hmsg] at hnot
  cases hnot

end System

end ParLib.Job
