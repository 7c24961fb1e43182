import ParLib.PathSearch
import ParLib.Job.System

/-!
# What a crash of a worker loses

The leader redoes the job that it records for a worker that crashed. Nothing is
lost if every state that the worker has popped, but not announced, extends a
recorded one. That is so as long as the job is recorded before it is started,
stays the worker's own, and is not divided behind what has been popped.
-/

namespace ParLib

set_option autoImplicit false

open Foundations ParallelStack

/-- The state extends, or is, one of the listed ones. -/
def Extends (a : Path) (states : List Path) : Prop := ∃ b ∈ states, b <+: a

instance (a : Path) (states : List Path) : Decidable (Extends a states) :=
  inferInstanceAs (Decidable (∃ b ∈ states, b <+: a))

theorem Extends.of_mem {a : Path} {states : List Path} (h : a ∈ states) : Extends a states :=
  ⟨a, h, List.prefix_rfl⟩

theorem Extends.append {a b : Path} {states : List Path} (h : Extends a states) (hab : a <+: b) :
    Extends b states := by
  obtain ⟨c, hc, hca⟩ := h
  exact ⟨c, hc, hca.trans hab⟩

theorem MaximumCut.Explored.extends_pending {mc mc' : MaximumCut} {ps : List Path}
    (h : Explored mc mc' ps) {a : Path} (ha : a ∈ ps ∨ a ∈ mc'.states.data) :
    Extends a mc.states.data := by
  have hmem : a ∈ mc.matrix.searchTree.forest (mc.states.data : Multiset Path) := by
    rw [h.forest, Multiset.mem_add]
    refine ha.imp id fun ha => ?_
    exact (SearchTree.mem_forest _).mpr ⟨a, ha, SearchTree.self_mem_descendants _ a⟩
  obtain ⟨b, hb, hab⟩ := (SearchTree.mem_forest _).mp hmem
  exact ⟨b, hb, Matrix.prefix_of_below ((SearchTree.mem_descendants_iff ..).mp hab)⟩

namespace Job

namespace System

def unannounced (s : System) (x : NetworkId) : List Path := (s.comp x).unannounced

/-- What the node would take with it: its stack and what it has not announced. -/
def unfinished (s : System) (x : NetworkId) : List Path := s.stack x ++ s.unannounced x

/-- The leader records something for the worker that the state extends, and will still do
so after reading what has been sent. -/
def Backs (s : System) (leader worker : NetworkId) (a : Path) : Prop :=
  (∀ v ∈ s.pendingWrites leader worker, Extends a v) ∧
    (s.pendingWrites leader worker = [] → Extends a (s.recorded leader worker))

/-- The worker starts a job only if the leader records it, divides it only if what it keeps
has all that it has popped below it, and gets one of another only when it has none. -/
def ReadsSafely (s : System) (leader worker : NetworkId) (p : Packet) : Prop :=
  match p.msg with
  | .stackAssignment assign _ => p.dst = worker → ¬ s.Computing worker →
    ∀ a ∈ assign.getAssignment worker, s.Backs leader worker a
  | .divideWith client => s.stack p.dst ≠ [] →
    (p.dst = worker → ∀ a ∈ s.unannounced worker, Extends a (newDataB (s.stack worker))) ∧
      (p.dst ≠ worker → client = worker → s.unfinished worker = [])
  | .assignmentFinished _ | .terminate => True

/-- Reads are safe, and the leader's check leaves the worker its job. -/
def Guarded (leader worker : NetworkId) (s : System) : Action → Prop
  | .first id timeUp _ => id = leader → timeUp = true →
    ∀ table ∈ (s.comp leader).currAssignment, s.unfinished worker = [] ∨
      Computation.LeavesJob (s.net leader) table worker
  | .receive id src => ∀ p ∈ s.packets.find? (Packet.onConnection src id),
    s.ReadsSafely leader worker p
  | .compute _ | .endRead _ | .connect _ _ | .crash _ | .discard _ _ => True

instance (s : System) (leader worker : NetworkId) (a : Path) :
    Decidable (s.Backs leader worker a) := inferInstanceAs (Decidable (_ ∧ _))

instance (s : System) (leader worker : NetworkId) : DecidablePred (s.ReadsSafely leader worker)
  | ⟨_, _, .stackAssignment _ _⟩ => inferInstanceAs (Decidable (_ → _ → _))
  | ⟨_, _, .divideWith _⟩ => inferInstanceAs (Decidable (_ → (_ → _) ∧ (_ → _ → _)))
  | ⟨_, _, .assignmentFinished _⟩ | ⟨_, _, .terminate⟩ => inferInstanceAs (Decidable True)

instance (s : System) (leader worker : NetworkId) : DecidablePred (Guarded leader worker s)
  | .first _ _ _ =>
    inferInstanceAs (Decidable (_ → _ → ∀ table ∈ (s.comp leader).currAssignment, _))
  | .receive _ _ => inferInstanceAs (Decidable (∀ p ∈ List.find? _ s.packets, _))
  | .compute _ | .endRead _ | .connect _ _ | .crash _ | .discard _ _ =>
    inferInstanceAs (Decidable True)

/-- The invariant of guarded runs. -/
structure Recoverable (leader worker : NetworkId) (s : System) : Prop where
  linked : s.Linked leader
  fresh : (s.comp leader).state = .initial →
    s.packets = [] ∧ ∀ x, ¬ s.Computing x ∧ s.unfinished x = []
  requests : ∀ p ∈ s.packets, ∀ id, p.msg = .divideWith id → id ≠ p.dst
  backed : ∀ a ∈ s.unfinished worker, s.Backs leader worker a

section Facts

variable {leader worker : NetworkId} {s t : System}

/-- Writes may be read in any order: each of them backs the state. -/
theorem Backs.mono {a b : Path} (h : s.Backs leader worker a) (hab : a <+: b)
    (hpending : ∀ v ∈ t.pendingWrites leader worker,
      v ∈ s.pendingWrites leader worker ∨ Extends b v)
    (hrecorded : t.pendingWrites leader worker = [] →
      s.pendingWrites leader worker = [] ∧ t.recorded leader worker = s.recorded leader worker ∨
        t.recorded leader worker ∈ s.pendingWrites leader worker) :
    t.Backs leader worker b := by
  obtain ⟨hsent, hnow⟩ := h
  constructor
  · intro v hv
    cases hpending v hv with
    | inl hv => exact (hsent v hv).append hab
    | inr hv => exact hv
  · intro hnone
    rcases hrecorded hnone with ⟨hnone, hsame⟩ | hread
    · rw [hsame]
      exact (hnow hnone).append hab
    · exact (hsent _ hread).append hab

theorem Backs.of_same {a b : Path} (h : s.Backs leader worker a) (hab : a <+: b)
    (hpending : t.pendingWrites leader worker = s.pendingWrites leader worker)
    (hrecorded : t.recorded leader worker = s.recorded leader worker) :
    t.Backs leader worker b := by
  refine h.mono hab ?_ ?_
  · intro v hv
    rw [hpending] at hv
    exact .inl hv
  · intro hnone
    rw [hpending] at hnone
    exact .inl ⟨hnone, hrecorded⟩

/-- A step that leaves the worker's entry alone and adds only extensions to what the worker
has not finished. -/
theorem Recoverable.backed_of_same (h : s.Recoverable leader worker)
    (hunfinished : ∀ b ∈ t.unfinished worker, Extends b (s.unfinished worker))
    (hpending : t.pendingWrites leader worker = s.pendingWrites leader worker)
    (hrecorded : t.recorded leader worker = s.recorded leader worker) :
    ∀ b ∈ t.unfinished worker, t.Backs leader worker b := by
  intro b hb
  obtain ⟨a, ha, hab⟩ := hunfinished b hb
  exact (h.backed a ha).of_same hab hpending hrecorded

section Steps

variable {x : NetworkId} {phase : Phase} {rest : List Packet} {r : Computation × List Send}

theorem unfinished_commit_of_ne (hne : worker ≠ x) :
    (s.commit x phase r).unfinished worker = s.unfinished worker := by
  rw [unfinished, stack_commit_of_ne _ _ _ hne, unannounced, commit_comp_of_ne _ _ _ hne,
    unfinished, unannounced]

theorem unfinished_commit_self :
    (s.commit x phase r).unfinished x = r.1.stack ++ r.1.unannounced := by
  rw [unfinished, stack_commit_self, unannounced, commit_comp_self]

/-- What a step has to show that changes one node, reads and sends. -/
theorem Recoverable.of_commit (h : s.Recoverable leader worker) (hrest : ∀ p ∈ rest, p ∈ s.packets)
    (hstarted : x = leader → r.1.state = .initial → (s.comp leader).state = .initial)
    (hfresh : (s.comp leader).state = .initial → (x = leader → r.1.state = .initial) →
      r.2 = [] ∧ r.1.state ≠ .computing ∧ r.1.stack ++ r.1.unannounced = [])
    (hrequests : ∀ q ∈ r.2, ∀ id, q.msg = .divideWith id → id ≠ q.destId)
    (hbacked : ∀ a ∈ ({ s with packets := rest }.commit x phase r).unfinished worker,
      ({ s with packets := rest }.commit x phase r).Backs leader worker a) :
    ({ s with packets := rest }.commit x phase r).Recoverable leader worker := by
  refine ⟨h.linked.of_net (commit_net ..), ?_, ?_, hbacked⟩
  · intro hinitial
    have hbefore : (s.comp leader).state = .initial ∧ (x = leader → r.1.state = .initial) := by
      rcases eq_or_ne leader x with rfl | hne
      · rw [commit_comp_self] at hinitial
        exact ⟨hstarted rfl hinitial, fun _ => hinitial⟩
      · rw [commit_comp_of_ne _ _ _ hne] at hinitial
        exact ⟨hinitial, fun heq => absurd heq.symm hne⟩
    obtain ⟨hnone, hnobody⟩ := h.fresh hbefore.1
    obtain ⟨hsent, hidle, hempty⟩ := hfresh hbefore.1 hbefore.2
    constructor
    · rw [commit_packets, hsent, List.map_nil, List.append_nil, List.eq_nil_iff_forall_not_mem]
      intro p hp
      have hp := hrest p hp
      rw [hnone] at hp
      cases hp
    · intro y
      rcases eq_or_ne y x with rfl | hne
      · rw [computing_commit_self, unfinished_commit_self]
        exact ⟨hidle, hempty⟩
      · rw [computing_commit_of_ne _ _ _ hne, unfinished_commit_of_ne hne]
        exact hnobody y
  · intro p hp id hid
    rcases mem_commit_packets.mp hp with hp | ⟨q, hq, rfl⟩
    · exact h.requests p (hrest p hp) id hid
    · exact hrequests q hq id hid

theorem recorded_commit_of_same {k : NetworkId} (hsame : x = leader →
    r.1.recorded k = s.recorded leader k) :
    (s.commit x phase r).recorded leader k = s.recorded leader k := by
  rcases eq_or_ne leader x with rfl | hne
  · rw [recorded_commit_self, hsame rfl]
  · exact recorded_commit_of_ne _ _ _ hne k

/-- A node that leaves its own table and what it has not finished alone, and writes
nothing to the leader's entry of the worker. -/
theorem Recoverable.of_quiet (h : s.Recoverable leader worker)
    (hstate : r.1.state = (s.comp x).state ∨ r.1.state ≠ .initial ∧ r.1.state ≠ .computing)
    (hstack : r.1.stack = s.stack x) (hunannounced : r.1.unannounced = s.unannounced x)
    (hsent : r.2 = []) (hrecorded : ∀ k, r.1.recorded k = s.recorded x k) :
    (s.commit x phase r).Recoverable leader worker := by
  refine h.of_commit (fun _ hp => hp) ?_ ?_ (by simp [hsent]) (h.backed_of_same ?_ ?_ ?_)
  · rintro rfl hinitial
    rcases hstate with hsame | ⟨hstarted, -⟩
    · rwa [← hsame]
    · exact absurd hinitial hstarted
  · intro hinitial _
    obtain ⟨hidle, hempty⟩ := (h.fresh hinitial).2 x
    refine ⟨hsent, ?_, ?_⟩
    · rcases hstate with hsame | ⟨-, hidle'⟩
      · rwa [hsame]
      · exact hidle'
    · rw [hstack, hunannounced]
      exact hempty
  · intro b hb
    refine .of_mem ?_
    rcases eq_or_ne worker x with rfl | hne
    · rwa [unfinished_commit_self, hstack, hunannounced] at hb
    · rwa [unfinished_commit_of_ne hne] at hb
  · exact pendingWrites_commit_of_none (by simp [hsent])
  · exact recorded_commit_of_same fun heq => by rw [hrecorded, heq]

/-- What is popped or left pending extends the job; a finished job is announced. -/
theorem Recoverable.compute (h : s.Recoverable leader worker)
    (hr : (s.comp x).computeStep (s.net x) = some r) :
    (s.commit x phase r).Recoverable leader worker := by
  obtain ⟨mc, ps, hexplored, hcase⟩ := Computation.computeStep_eq_some hr
  rcases hcase with rfl | ⟨hcomputing, hdone, hsent, hcut, hwaiting, hannounced, -, hrecorded, -⟩
  · have hextends : ∀ b ∈ mc.states.data ++ mc.popped.drop (s.comp x).announced,
        Extends b (s.unfinished x) := by
      have hstack : ∀ b, b ∈ ps ∨ b ∈ mc.states.data → Extends b (s.unfinished x) := by
        intro b hb
        obtain ⟨a, ha, hab⟩ := hexplored.extends_pending hb
        exact ⟨a, List.mem_append_left _ ha, hab⟩
      intro b hb
      cases List.mem_append.mp hb with
      | inl hb => exact hstack b (.inr hb)
      | inr hb =>
        rw [hexplored.popped, List.drop_append] at hb
        cases List.mem_append.mp hb with
        | inl hb => exact .of_mem (List.mem_append_right _ hb)
        | inr hb => exact hstack b (.inl (List.mem_of_mem_drop hb))
    refine h.of_commit (fun _ hp => hp) (fun heq hi => heq ▸ hi) ?_ (by simp)
      (h.backed_of_same ?_ ?_ ?_)
    · intro hinitial _
      obtain ⟨hidle, hempty⟩ := (h.fresh hinitial).2 x
      refine ⟨rfl, hidle, List.eq_nil_iff_forall_not_mem.mpr fun b hb => ?_⟩
      obtain ⟨a, ha, -⟩ := hextends b hb
      rw [hempty] at ha
      cases ha
    · rcases eq_or_ne worker x with rfl | hne
      · rw [unfinished_commit_self]
        exact hextends
      · rw [unfinished_commit_of_ne hne]
        exact fun b hb => .of_mem hb
    · exact pendingWrites_commit_of_none (by simp)
    · exact recorded_commit_of_same fun heq => by rw [← heq]; rfl
  · have hempty : r.1.stack ++ r.1.unannounced = [] := by
      rw [Computation.stack, Computation.unannounced, hannounced, hcut, hdone, List.drop_length]
      rfl
    refine h.of_commit (fun _ hp => hp) ?_ ?_ ?_ ?_
    · intro _ hinitial
      rw [hwaiting] at hinitial
      cases hinitial
    · intro hinitial _
      exact absurd hcomputing ((h.fresh hinitial).2 x).1
    · intro q hq id hid
      rw [hsent] at hq
      rw [(Net.mem_broadcastMsg.mp hq).2] at hid
      cases hid
    · rcases eq_or_ne worker x with rfl | hne
      · rw [unfinished_commit_self, hempty]
        simp
      · refine h.backed_of_same ?_ ?_ ?_
        · rw [unfinished_commit_of_ne hne]
          exact fun b hb => .of_mem hb
        · refine pendingWrites_commit_of_none fun q hq _ => ?_
          rw [hsent] at hq
          rw [(Net.mem_broadcastMsg.mp hq).2]
          exact if_neg hne
        · refine recorded_commit_of_same fun heq => ?_
          rw [hrecorded, h.linked.networkId, if_neg hne, recorded, heq]

/-- The kept half has everything below it that the worker has not announced. -/
theorem Recoverable.divide (h : s.Recoverable leader worker) (hworker : worker ≠ leader)
    {client : NetworkId} (hne : client ≠ x) (hstarted : (s.comp leader).state ≠ .initial)
    (hown : s.stack x ≠ [] → x = worker →
      ∀ a ∈ s.unannounced worker, Extends a (newDataB (s.stack worker)))
    (hother : s.stack x ≠ [] → x ≠ worker → client = worker → s.unfinished worker = []) :
    (s.commit x phase ((s.comp x).onDivideWith (s.net x) client)).Recoverable leader worker := by
  by_cases hwork : s.stack x = []
  · rw [Computation.onDivideWith_of_nil _ _ hwork]
    exact h.of_quiet (.inl rfl) rfl rfl rfl fun _ => rfl
  have hid : client ≠ (s.net x).networkId := by rwa [h.linked.networkId]
  obtain ⟨c, heq, hcomputing, hcut, -, hannounced, hrecorded, -⟩ :=
    Computation.onDivideWith_spec hid hwork
  have hfind := Computation.find?_dividedAssignment (s.net x) client (s.comp x).stack worker
  rw [h.linked.networkId] at hfind
  rw [heq]
  refine h.of_commit (fun _ hp => hp) ?_ (fun hi => absurd hi hstarted) ?_ ?_
  · intro _ hinitial
    rw [hcomputing] at hinitial
    cases hinitial
  · intro q hq id hid
    rw [(Net.mem_broadcastMsg.mp hq).2] at hid
    cases hid
  rcases eq_or_ne worker x with rfl | hworker'
  · rw [if_neg (Ne.symm hne), if_pos rfl] at hfind
    intro b hb
    have hstack : c.stack = newDataB (s.stack worker) := by rw [Computation.stack, hcut]; rfl
    have hsame : c.unannounced = s.unannounced worker := by
      rw [Computation.unannounced, hannounced, hcut]
      rfl
    rw [unfinished_commit_self, hstack, hsame, List.mem_append] at hb
    have hbefore : b ∈ s.unfinished worker := by
      rw [unfinished, List.mem_append]
      exact hb.imp_left fun hb => mem_newDataA_or_newDataB.mp (.inl hb)
    have hkept : Extends b (newDataB (s.stack worker)) :=
      hb.elim .of_mem (hown hwork rfl b)
    refine (h.backed b hbefore).mono List.prefix_rfl ?_ ?_
    · intro v hv
      rw [pendingWrites_commit] at hv
      refine (List.mem_append.mp hv).imp_right fun hv => ?_
      obtain ⟨q, hq, hv⟩ := List.mem_filterMap.mp hv
      obtain ⟨-, hv⟩ := Option.ite_none_right_eq_some.mp hv
      rw [(Net.mem_broadcastMsg.mp hq).2] at hv
      cases hfind.symm.trans hv
      exact hkept
    · intro hnone
      rw [pendingWrites_commit, List.append_eq_nil_iff] at hnone
      exact .inl ⟨hnone.1, recorded_commit_of_ne _ _ _ (Ne.symm hworker) worker⟩
  · by_cases hclient : client = worker
    · rw [unfinished_commit_of_ne hworker', hother hwork (Ne.symm hworker') hclient]
      simp
    · rw [if_neg (Ne.symm hclient), if_neg hworker'] at hfind
      refine h.backed_of_same ?_ ?_ ?_
      · rw [unfinished_commit_of_ne hworker']
        exact fun b hb => .of_mem hb
      · refine pendingWrites_commit_of_none fun q hq _ => ?_
        rw [(Net.mem_broadcastMsg.mp hq).2]
        exact hfind
      · refine recorded_commit_of_same fun heq => ?_
        rw [hrecorded, hfind, recorded, ← heq]
        rfl

theorem Recoverable.of_read (h : s.Recoverable leader worker) {pre post : List Packet}
    {p : Packet} {c : Computation} (hpackets : s.packets = pre ++ p :: post)
    (hstarted : p.dst = leader → c.state = .initial → (s.comp leader).state = .initial)
    (hrecorded : ∀ k, c.recorded k = (p.write? k).getD (s.recorded p.dst k))
    (hunfinished : p.dst = worker →
      ∀ b ∈ c.stack ++ c.unannounced, b ∈ s.unfinished worker ∨ s.Backs leader worker b) :
    ({ s with packets := pre ++ post }.commit p.dst phase (c, [])).Recoverable leader worker := by
  refine h.of_commit (fun q hq => mem_of_rest hpackets hq) hstarted ?_ (by simp) ?_
  · intro hinitial _
    have hnone := (h.fresh hinitial).1
    rw [hpackets] at hnone
    exact absurd hnone (by simp)
  intro b hb
  have hbacked : s.Backs leader worker b := by
    cases eq_or_ne worker p.dst with
    | inl heq =>
      rw [heq, unfinished_commit_self] at hb
      cases hunfinished heq.symm b hb with
      | inl hb => exact h.backed b hb
      | inr hb => exact hb
    | inr hne =>
      rw [unfinished_commit_of_ne hne] at hb
      exact h.backed b hb
  have hpending : ({ s with packets := pre ++ post } : System).pendingWrites leader worker =
      pre.filterMap (fun q => if q.dst = leader then q.write? worker else none) ++
        post.filterMap (fun q => if q.dst = leader then q.write? worker else none) :=
    List.filterMap_append
  have hbefore : s.pendingWrites leader worker =
      pre.filterMap (fun q => if q.dst = leader then q.write? worker else none) ++
        ((if p.dst = leader then p.write? worker else none).toList ++
        post.filterMap (fun q => if q.dst = leader then q.write? worker else none)) := by
    rw [pendingWrites, hpackets, List.filterMap_append, List.filterMap_cons]
    cases (if p.dst = leader then p.write? worker else none) <;> rfl
  refine hbacked.mono List.prefix_rfl ?_ ?_
  · intro v hv
    rw [pendingWrites_commit_of_none (by simp), hpending, List.mem_append] at hv
    left
    rw [hbefore, List.mem_append, List.mem_append]
    exact hv.imp_right .inr
  · intro hnone
    rw [pendingWrites_commit_of_none (by simp), hpending, List.append_eq_nil_iff] at hnone
    rw [hbefore, hnone.1, hnone.2, List.nil_append, List.append_nil]
    cases eq_or_ne leader p.dst with
    | inl heq =>
      rw [if_pos heq.symm, heq, recorded_commit_self, hrecorded]
      cases p.write? worker with
      | none => exact .inl ⟨rfl, rfl⟩
      | some v => exact .inr (List.mem_singleton_self v)
    | inr hne =>
      rw [if_neg (Ne.symm hne)]
      exact .inl ⟨rfl, recorded_commit_of_ne _ _ _ hne worker⟩

end Steps

theorem Recoverable.of_linked (h : s.Recoverable leader worker) (hlinked : t.Linked leader)
    (hcomp : t.comp = s.comp) (hpackets : t.packets = s.packets) :
    t.Recoverable leader worker := by
  obtain ⟨-, hfresh, hrequests, hbacked⟩ := h
  refine ⟨hlinked, ?_, ?_, ?_⟩
  · simpa only [Computing, unfinished, stack, unannounced, hcomp, hpackets] using hfresh
  · rwa [hpackets]
  · simpa only [Backs, pendingWrites, recorded, unfinished, stack, unannounced, hcomp, hpackets]
      using hbacked

/-- The leader's first step, before which nobody has anything. -/
theorem Recoverable.init (h : s.Recoverable leader worker) (hworker : worker ≠ leader)
    {phase : Phase} {r : Computation × List Send} (hstate : (s.comp leader).state = .initial)
    (hr : { s.comp leader with state := .waiting }.initLeaderStep (s.net leader) = some r) :
    (s.commit leader phase r).Recoverable leader worker := by
  obtain ⟨mc, -, -, assign, -, -, -, -, rfl⟩ := h.linked.dealt hr
  have hstarted := Computation.onAssignment_started
    { s.comp leader with state := .waiting, maximumCut := mc } (s.net leader) assign
  refine h.of_commit (fun _ hp => hp) (fun _ hi => absurd hi hstarted)
    (fun _ hi => absurd (hi rfl) hstarted) ?_ ?_
  · intro q hq id hid
    rw [(Net.mem_broadcastMsg.mp hq).2] at hid
    cases hid
  · rw [unfinished_commit_of_ne hworker, ((h.fresh hstate).2 worker).2]
    simp

theorem Recoverable.check (h : s.Recoverable leader worker) (hworker : worker ≠ leader)
    {phase : Phase} {table : StackAssignment} (sync : Bool)
    (hstarted : (s.comp leader).state ≠ .initial)
    (htable : (s.comp leader).currAssignment = some table)
    (hleaves : s.unfinished worker = [] ∨ Computation.LeavesJob (s.net leader) table worker) :
    (s.commit leader phase ((s.comp leader).checkTable (s.net leader) table sync)).Recoverable
      leader worker := by
  have hsent := (s.comp leader).checkTable_sent (s.net leader) table sync
  refine h.of_commit (fun _ hp => hp)
    (fun _ hi => absurd hi (Computation.checkTable_started _ _ sync hstarted))
    (fun hi => absurd hi hstarted) (fun q hq => (hsent q hq).2) ?_
  cases hleaves with
  | inl hempty =>
    rw [unfinished_commit_of_ne hworker, hempty]
    simp
  | inr hleaves =>
    refine h.backed_of_same ?_ ?_ ?_
    · rw [unfinished_commit_of_ne hworker]
      exact fun b hb => .of_mem hb
    · refine pendingWrites_commit_of_none fun q hq hdst => ?_
      exact absurd (hdst ▸ (hsent q hq).1) (h.linked.irrefl leader)
    · refine recorded_commit_of_same fun _ => ?_
      refine Computation.checkTable_recorded htable sync ?_ hleaves
      rwa [h.linked.networkId]

theorem recoverable_next {a : Action} (ha : s.Guarded leader worker a) (hstep : s.next a = some t)
    (hworker : worker ≠ leader) (h : s.Recoverable leader worker) :
    t.Recoverable leader worker := by
  cases move_of_next hstep with
  | @first id timeUp sync r hlive hr =>
    cases hr with
    | init hleads hstate hr =>
      obtain rfl := h.linked.eq_of_leads hleads
      exact h.init hworker hstate hr
    | @check table hleads hstate htime htable =>
      obtain rfl := h.linked.eq_of_leads hleads
      refine h.check hworker sync ?_ htable (ha rfl htime table htable)
      rcases hstate with hstate | hstate <;> simp [hstate]
    | idle hcut _ hannounced hrecorded _ hstate =>
      refine h.of_quiet ?_ ?_ ?_ rfl hrecorded
      · refine hstate.imp_right fun hfirst => ?_
        simp [hfirst.2.2]
      · rw [Computation.stack, hcut]
        rfl
      · rw [Computation.unannounced, hcut, hannounced]
        rfl
  | compute hr => exact h.compute hr
  | @receive id src pre post p r hpackets hfound herase hsrc hdst hr =>
    subst hsrc hdst
    have hsafe : s.ReadsSafely leader worker p := ha p hfound
    have hp := mem_of_read hpackets
    cases hmsg : p.msg with
    | stackAssignment assign resent =>
      rw [hmsg] at hr
      cases hr
      have hpopped : ((s.comp p.dst).onAssignment (s.net p.dst) assign).unannounced =
          s.unannounced p.dst := by
        obtain ⟨data, hcut⟩ := (s.comp p.dst).onAssignment_maximumCut (s.net p.dst) assign
        rw [Computation.unannounced, Computation.onAssignment_announced, hcut]
        rfl
      simp only [ReadsSafely, hmsg] at hsafe
      refine h.of_read hpackets (fun _ hi => absurd hi ?_) ?_ ?_
      · exact Computation.onAssignment_started _ _ _
      · intro k
        rw [Computation.onAssignment_recorded, Packet.write?, hmsg]
        rfl
      · rintro rfl b hb
        rw [hpopped, List.mem_append] at hb
        cases hb with
        | inl hb =>
          by_cases hcomputing : s.Computing p.dst
          · left
            apply List.mem_append_left _
            rwa [Computation.stack,
              (Computation.onAssignment_of_computing _ _ _ hcomputing).1] at hb
          · right
            rw [Computation.stack,
              (Computation.onAssignment_of_not_computing _ _ _ hcomputing).1,
              h.linked.networkId] at hb
            exact hsafe rfl hcomputing b hb
        | inr hb => exact .inl (List.mem_append_right _ hb)
    | assignmentFinished best =>
      rw [hmsg] at hr
      obtain ⟨c, hc, rfl⟩ := Option.map_eq_some_iff.mp hr
      obtain ⟨hrecorded, -, hcut, hstate, hannounced, -⟩ :=
        Computation.onAssignmentFinished_eq_some hc
      refine h.of_read hpackets (fun heq hi => ?_) ?_ ?_
      · rw [hstate] at hi
        exact heq ▸ hi
      · intro k
        rw [hrecorded, Packet.write?, hmsg]
        dsimp only
        split <;> rfl
      · rintro rfl b hb
        rw [Computation.stack, Computation.unannounced, hcut, hannounced] at hb
        exact .inl hb
    | terminate =>
      rw [hmsg] at hr
      cases hr
      refine h.of_read hpackets (fun _ hi => State.noConfusion hi) ?_ ?_
      · intro k
        rw [Packet.write?, hmsg]
        rfl
      · rintro rfl b hb
        exact .inl hb
    | divideWith client =>
      rw [hmsg] at hr
      cases hr
      have hdropped : ({ s with packets := pre ++ post } : System).Recoverable leader worker := by
        rw [← commit_same ({ s with packets := pre ++ post } : System) p.dst]
        refine h.of_read hpackets (fun heq hi => heq ▸ hi) ?_ ?_
        · intro k
          rw [Packet.write?, hmsg]
          rfl
        · rintro rfl b hb
          exact .inl hb
      simp only [ReadsSafely, hmsg] at hsafe
      refine hdropped.divide hworker (h.requests p hp client hmsg) ?_
        (fun hwork => (hsafe hwork).1) fun hwork => (hsafe hwork).2
      intro hinitial
      rw [(h.fresh hinitial).1] at hp
      cases hp
  | @endRead id => exact h.of_quiet (.inl rfl) rfl rfl rfl fun _ => rfl
  | connect hne hnew => exact h.of_linked (h.linked.connect hne hnew) rfl rfl
  | crash => exact h.of_linked (h.linked.of_net rfl) rfl rfl
  | @discard id peer hpeer =>
    refine h.of_linked (h.linked.setClients ?_ ?_) rfl rfl
    · exact fun hmem => h.linked.irrefl id (List.mem_of_mem_erase hmem)
    · exact (h.linked.nodup id).erase peer

theorem recoverable_of_start {members : Finset NetworkId} {matrix : Matrix}
    (h : Start members leader matrix s) : s.Recoverable leader worker where
  linked := h.linked
  fresh _ := by
    refine ⟨h.packets, fun x => ?_⟩
    rw [Computing, unfinished, stack, unannounced, h.comp]
    exact ⟨State.noConfusion, rfl⟩
  requests p hp := by
    rw [h.packets] at hp
    cases hp
  backed a ha := by
    rw [unfinished, stack, unannounced, h.comp] at ha
    cases ha

theorem unannounced_extends_recorded {members : Finset NetworkId} {matrix : Matrix}
    {start : System} (hstart : Start members leader matrix start) (hworker : worker ≠ leader)
    (hrun : Run next (Guarded leader worker) start s)
    (hread : ∀ p ∈ s.packets, p.dst = leader → p.msg.writesTable = false) :
    ∀ a ∈ s.unannounced worker, ∃ b ∈ s.recorded leader worker, b <+: a := by
  have hinv : s.Recoverable leader worker := hrun.invariant (recoverable_of_start hstart)
    fun t a u h ha hstep => recoverable_next ha hstep hworker h
  intro a ha
  apply (hinv.backed a (List.mem_append_right _ ha)).2
  refine pendingWrites_eq_nil.mpr fun p hp hdst => ?_
  rw [Packet.entries_eq_nil (hread p hp hdst)]
  exact List.not_mem_nil

end Facts

/-- Two cliques of four vertices, and two vertices without edges. -/
def twoCliques : Matrix where
  size := 10
  array :=
    [[0, 0, 0, 0, 0, 0, 0, 0, 0, 0], [0, 0, 1, 1, 0, 1, 0, 0, 0, 0],
      [0, 1, 0, 1, 0, 1, 0, 0, 0, 0], [0, 1, 1, 0, 0, 1, 0, 0, 0, 0],
      [0, 0, 0, 0, 0, 0, 0, 0, 0, 0], [0, 1, 1, 1, 0, 0, 0, 0, 0, 0],
      [0, 0, 0, 0, 0, 0, 0, 1, 1, 1], [0, 0, 0, 0, 0, 0, 1, 0, 1, 1],
      [0, 0, 0, 0, 0, 0, 1, 1, 0, 1], [0, 0, 0, 0, 0, 0, 1, 1, 1, 0]]
  rows := rfl
  cols := by decide

/-- "B" divides its job with "A" before it pops anything, and crashes in the middle of it. -/
def crashRun : List Action :=
  [.first idC false false, .compute idC,
    .first idA false false, .compute idA, .receive idA idC, .endRead idA,
    .first idA false false, .compute idA,
    .first idB false false, .compute idB, .receive idB idC,
    .receive idC idA, .endRead idC, .first idC true false, .compute idC,
    .receive idB idC, .receive idB idC, .endRead idB, .first idB false false, .compute idB,
    .crash idB, .receive idC idB]

theorem crashed_worker_extends_recorded :
    ∃ s, Run next (Guarded idC idB) (.initial [idA, idB, idC] idC twoCliques) s ∧
      s.crashed idB = true ∧ (s.unannounced idB).length = 11 ∧
      ∀ a ∈ s.unannounced idB, ∃ b ∈ s.recorded idC idB, b <+: a := by
  have hstart : Start [idA, idB, idC].toFinset idC twoCliques _ :=
    start_initial (by decide) (by decide) twoCliques
  obtain ⟨s, hs⟩ : ∃ s, runWhile next (Guarded idC idB)
      (.initial [idA, idB, idC] idC twoCliques) crashRun = some s :=
    Option.isSome_iff_exists.mp (by decide +kernel)
  have hchecked : ∀ t ∈ runWhile next (Guarded idC idB)
      (.initial [idA, idB, idC] idC twoCliques) crashRun,
      t.crashed idB = true ∧ (t.unannounced idB).length = 11 ∧
        ∀ p ∈ t.packets, p.dst = idC → p.msg.writesTable = false := by
    decide +kernel
  obtain ⟨hcrashed, hlength, hread⟩ := hchecked s hs
  exact ⟨s, .of_runWhile hs, hcrashed, hlength,
    unannounced_extends_recorded hstart (by decide) (.of_runWhile hs) hread⟩

/-- "B" divides its job with "A" after it has popped some of what it gives away. -/
def lateDivisionRun : List Action :=
  [.first idC false false, .compute idC,
    .first idA false false, .compute idA, .receive idA idC, .endRead idA,
    .first idB false false, .compute idB, .receive idB idC, .endRead idB,
    .first idA false false, .compute idA,
    .receive idC idA, .endRead idC, .first idC true false, .compute idC,
    .first idB false false, .compute idB, .receive idB idC, .receive idB idC,
    .receive idC idB]

theorem division_forgets_popped_states :
    ¬ ∀ (matrix : Matrix) (members : Finset NetworkId) (leader worker : NetworkId)
      (start s : System), Start members leader matrix start → worker ≠ leader →
      Run next (fun _ a => a ≠ .crash leader) start s →
      (∀ p ∈ s.packets, p.dst = leader → p.msg.writesTable = false) →
      ∀ a ∈ s.unannounced worker, ∃ b ∈ s.recorded leader worker, b <+: a := by
  intro h
  have hstart : Start [idA, idB, idC].toFinset idC twoCliques _ :=
    start_initial (by decide) (by decide) twoCliques
  obtain ⟨s, hs⟩ : ∃ s, runActions next (.initial [idA, idB, idC] idC twoCliques)
      lateDivisionRun = some s := Option.isSome_iff_exists.mp (by decide +kernel)
  have hchecked : ∀ t ∈ runActions next (.initial [idA, idB, idC] idC twoCliques)
      lateDivisionRun, (∀ p ∈ t.packets, p.dst = idC → p.msg.writesTable = false) ∧
        [6, 8, 7] ∈ t.unannounced idB ∧
        ¬ ∃ b ∈ t.recorded idC idB, b <+: [6, 8, 7] := by
    decide +kernel
  obtain ⟨hread, hpopped, hlost⟩ := hchecked s hs
  exact hlost (h twoCliques _ idC idB _ s hstart (by decide)
    (.of_runActions hs (by simp [lateDivisionRun])) hread [6, 8, 7] hpopped)

end System

end Job

end ParLib
