import ParLib.CutWeight
import ParLib.Job.BestFound
import ParLib.Job.ValidPaths

/-!
# What the computation answers

Whatever fails, joins or comes out of order, a value that some node has found is
the value of a path. With fixed membership and nothing read out of date, the
leader has the value that a single search of the whole graph ends with.
-/

namespace ParLib

set_option autoImplicit false

open Foundations

namespace Matrix

/-- The announced value of a path, or the value that a node starts from. -/
def IsValue (M : Matrix) (v : Int32) : Prop :=
  v = 0 ∨ ∃ a, M.IsSimplePath a ∧ v = (M.sum a).toUInt32.toInt32

theorem isValue_larger {M : Matrix} {v w : Int32} (hv : M.IsValue v) (hw : M.IsValue w) :
    M.IsValue (if v > w then v else w) := by
  split
  · exact hv
  · exact hw

end Matrix

namespace MaximumCut

variable {M : Matrix} {mc : MaximumCut}

/-- The best value of a search is the value of one of the states that it popped. -/
theorem Best.isValue (hbest : mc.Best) (hmatrix : mc.matrix = M)
    (hpopped : ∀ p ∈ mc.popped, M.IsSimplePath p) : M.IsValue mc.getBestMax := by
  have hgreatest := (bestOf_isGreatest M mc.popped 0).1
  rw [Best, hmatrix] at hbest
  rw [← hbest] at hgreatest
  rcases hgreatest with hzero | ⟨a, ha, hsum⟩
  · left
    rw [getBestMax, UInt32.toNat_inj.mp (hzero.trans UInt32.toNat_zero.symm)]
    rfl
  · right
    refine ⟨a, hpopped a ha, ?_⟩
    rw [getBestMax, UInt32.toNat_inj.mp hsum]

end MaximumCut

namespace Job

/-- An announced value is the value of a path. -/
def Message.Genuine (M : Matrix) : Message → Prop
  | .assignmentFinished best => M.IsValue best
  | .stackAssignment _ _ | .terminate | .divideWith _ => True

namespace Computation

/-- The search's best is that of what it popped, and what the node has found is the value
of a path, and no less than `least`. -/
structure Genuine (M : Matrix) (least : Int32) (c : Computation) : Prop where
  best : c.maximumCut.Best
  found : M.IsValue c.bestFound
  least_le : least ≤ c.bestFound

variable {M : Matrix} {least : Int32} {c : Computation} {net : Net}

theorem genuine_new (M : Matrix) : (new M).Genuine M 0 := ⟨rfl, .inl rfl, Int32.le_refl _⟩

theorem Genuine.of_same (h : c.Genuine M least) {c' : Computation}
    (hcut : ∃ data, c'.maximumCut = c.maximumCut.assignData data)
    (hfound : c'.bestFound = c.bestFound) : c'.Genuine M least := by
  obtain ⟨data, hcut⟩ := hcut
  refine ⟨?_, ?_, ?_⟩
  · rw [hcut]
    exact h.best
  · rw [hfound]
    exact h.found
  · rw [hfound]
    exact h.least_le

theorem Genuine.onAssignment (h : c.Genuine M least) (assign : StackAssignment) :
    (c.onAssignment net assign).Genuine M least :=
  h.of_same (c.onAssignment_maximumCut net assign) (Computation.onAssignment_bestFound ..)

theorem Genuine.onAssignmentFinished (h : c.Genuine M least) {c' : Computation} {best : Int32}
    {clientId : NetworkId} (hbest : M.IsValue best)
    (hc' : c.onAssignmentFinished best clientId = some c') : c'.Genuine M least := by
  obtain ⟨-, -, hcut, -, -, hfound⟩ := onAssignmentFinished_eq_some hc'
  refine ⟨?_, ?_, ?_⟩
  · rw [hcut]
    exact h.best
  · rw [hfound]
    exact Matrix.isValue_larger hbest h.found
  · rw [hfound]
    exact Int32.le_trans h.least_le (System.le_larger best c.bestFound).1

theorem Genuine.onDivideWith (h : c.Genuine M least) (id : NetworkId) :
    (c.onDivideWith net id).1.Genuine M least := by
  cases eq_or_ne c.stack [] with
  | inl hnil => rwa [onDivideWith_of_nil net id hnil]
  | inr hwork =>
    rw [onDivideWith_of_ne_nil net id hwork]
    apply Genuine.onAssignment
    exact h.of_same ⟨_, rfl⟩ rfl

theorem Genuine.explored (h : c.Genuine M least) {mc : MaximumCut} {ps : List Path}
    (hexplored : MaximumCut.Explored c.maximumCut mc ps) :
    { c with maximumCut := mc }.Genuine M least :=
  ⟨h.best.explored hexplored, h.found, h.least_le⟩

theorem Genuine.computeStep (h : c.Genuine M least) (hpaths : c.OnPaths M)
    {r : Computation × List Send} (hr : c.computeStep net = some r) :
    r.1.Genuine M least ∧ ∀ q ∈ r.2, q.msg.Genuine M := by
  obtain ⟨mc, ps, hexplored, hcase⟩ := computeStep_eq_some hr
  have hmc := h.explored hexplored
  have hvalue : M.IsValue mc.getBestMax :=
    hmc.best.isValue (hpaths.explored hexplored).matrix (hpaths.explored hexplored).popped
  rcases hcase with rfl | ⟨-, -, hsent, hcut, -, -, hfound, -⟩
  · exact ⟨hmc, by simp⟩
  · refine ⟨⟨?_, ?_, ?_⟩, ?_⟩
    · rw [hcut]
      exact hmc.best
    · rw [hfound]
      exact Matrix.isValue_larger hvalue h.found
    · rw [hfound]
      exact Int32.le_trans h.least_le (System.le_larger mc.getBestMax c.bestFound).1
    · intro q hq
      rw [hsent] at hq
      rw [(Net.mem_broadcastMsg.mp hq).2]
      exact hvalue

theorem Genuine.computeSteps (n : Nat) (h : c.Genuine M least) (hpaths : c.OnPaths M)
    {r : Computation × List Send} (hr : computeSteps net n c = some r) :
    r.1.Genuine M least ∧ ∀ q ∈ r.2, q.msg.Genuine M := by
  induction n generalizing c r with
  | zero =>
    cases hr
    exact ⟨h, by simp⟩
  | succ n ih =>
    rw [Computation.computeSteps] at hr
    obtain ⟨first, hfirst, hr⟩ := Option.bind_eq_some_iff.mp hr
    obtain ⟨rest, hrest, ⟨⟩⟩ := Option.bind_eq_some_iff.mp hr
    obtain ⟨hgenuine, hsent⟩ := h.computeStep hpaths hfirst
    obtain ⟨hgenuine, hlater⟩ := ih hgenuine (hpaths.computeStep hfirst).1 hrest
    refine ⟨hgenuine, ?_⟩
    intro q hq
    cases List.mem_append.mp hq with
    | inl hq => exact hsent q hq
    | inr hq => exact hlater q hq

theorem OnPaths.populateStates (h : c.OnPaths M) :
    { c with maximumCut := c.maximumCut.populateStates }.OnPaths M := by
  have hstack := h.stack
  rw [← h.matrix] at hstack
  have hpopulated := MaximumCut.isSimplePath_populateStates hstack
  rw [h.matrix] at hpopulated
  exact ⟨h.matrix, hpopulated, h.popped, h.table⟩

theorem Genuine.initLeaderStep (h : c.Genuine M least) (hpaths : c.OnPaths M)
    {r : Computation × List Send} (hr : c.initLeaderStep net = some r) :
    r.1.Genuine M least ∧ ∀ q ∈ r.2, q.msg.Genuine M := by
  rw [Computation.initLeaderStep] at hr
  obtain ⟨searched, hsearched, hr⟩ := Option.bind_eq_some_iff.mp hr
  have hpopulated : { c with maximumCut := c.maximumCut.populateStates }.Genuine M least :=
    ⟨h.best, h.found, h.least_le⟩
  obtain ⟨hgenuine, hsent⟩ := hpopulated.computeSteps 5 hpaths.populateStates hsearched
  dsimp only at hr
  split at hr
  · cases hr
  · cases hr
    refine ⟨hgenuine.onAssignment _, ?_⟩
    intro q hq
    cases List.mem_append.mp hq with
    | inl hq => exact hsent q hq
    | inr hq =>
      obtain ⟨client, -, hq⟩ := List.mem_flatMap.mp hq
      rw [(Net.mem_sendMsg.mp hq).2]
      trivial

theorem divideJobs_genuine (working needJob : List NetworkId) (c : Computation) :
    ∀ q ∈ (divideJobs net working needJob c).2, q.msg.Genuine M := by
  induction working generalizing needJob c with
  | nil => simp [divideJobs]
  | cons w working ih =>
    cases needJob with
    | nil => simp [divideJobs]
    | cons id needJob =>
      intro q hq
      rw [divideJobs] at hq
      split at hq
      · cases List.mem_append.mp hq with
        | inl hq =>
          rw [(Net.mem_sendMsg.mp hq).2]
          trivial
        | inr hq => exact ih needJob c q hq
      · cases List.mem_append.mp hq with
        | inl hq =>
          rw [(onDivideWith_sent hq).2]
          trivial
        | inr hq => exact ih needJob _ q hq

/-- A check announces nothing. -/
theorem Genuine.checkTable (h : c.Genuine M least) (table : StackAssignment) (sync : Bool) :
    (c.checkTable net table sync).1.Genuine M least ∧
      ∀ q ∈ (c.checkTable net table sync).2, q.msg.Genuine M := by
  constructor
  · refine checkTable_fst_induction sync ⟨h.best, h.found, h.least_le⟩ ?_ ?_
    · exact fun hchecked => giveDisconnectedJobs_fst_induction hchecked hchecked.onAssignment
    · exact fun c id hc => hc.onDivideWith id
  · intro q hq
    rw [checkTable_eq] at hq
    rcases List.mem_append.mp hq with hq | hq
    · rcases List.mem_append.mp hq with hq | hq
      · rcases firstSent_notice sync q hq with ⟨-, ⟨_, hmsg, -⟩ | ⟨hmsg, -⟩⟩ | ⟨-, id, hmsg, -⟩
        · rw [hmsg]
          trivial
        · rw [hmsg]
          trivial
        · rw [hmsg]
          trivial
      · rw [giveDisconnectedJobs] at hq
        split at hq
        · rw [(Net.mem_broadcastMsg.mp hq).2]
          trivial
        · cases hq
    · exact divideJobs_genuine _ _ _ q hq

theorem Genuine.firstStep (h : c.Genuine M least) (hpaths : c.OnPaths M) {timeUp sync : Bool}
    {r : Computation × List Send} (hr : c.FirstStep net timeUp sync r) :
    r.1.Genuine M least ∧ ∀ q ∈ r.2, q.msg.Genuine M := by
  cases hr with
  | init _ _ hr =>
    have hwaiting : { c with state := .waiting }.Genuine M least := ⟨h.best, h.found, h.least_le⟩
    exact hwaiting.initLeaderStep (hpaths.setState .waiting) hr
  | check => exact h.checkTable _ sync
  | idle hcut hfound =>
    refine ⟨h.of_same ⟨c.maximumCut.states.data, ?_⟩ hfound, by simp⟩
    rw [hcut]
    rfl

theorem Genuine.onMessage (h : c.Genuine M least) {senderId : NetworkId} {msg : Message}
    (hmsg : msg.Genuine M) {r : Computation × List Send}
    (hr : c.onMessage net senderId msg = some r) :
    r.1.Genuine M least ∧ ∀ q ∈ r.2, q.msg.Genuine M := by
  cases msg with
  | stackAssignment assign resent =>
    cases hr
    exact ⟨h.onAssignment assign, by simp⟩
  | assignmentFinished best =>
    obtain ⟨c', hc', rfl⟩ := Option.map_eq_some_iff.mp hr
    exact ⟨h.onAssignmentFinished hmsg hc', by simp⟩
  | terminate =>
    cases hr
    exact ⟨⟨h.best, h.found, h.least_le⟩, by simp⟩
  | divideWith id =>
    cases hr
    refine ⟨h.onDivideWith id, ?_⟩
    intro q hq
    rw [(onDivideWith_sent hq).2]
    trivial

end Computation

namespace System

/-- Every node and every message speaks of paths and of their values. -/
structure Genuine (M : Matrix) (least : NetworkId → Int32) (s : System) : Prop where
  paths : ∀ x, (s.comp x).OnPaths M
  comp : ∀ x, (s.comp x).Genuine M (least x)
  packets : ∀ p ∈ s.packets, p.msg.OnPaths M ∧ p.msg.Genuine M

variable {M : Matrix} {least : NetworkId → Int32} {members : Finset NetworkId}
  {leader x : NetworkId} {start s t : System}

theorem genuine_of_start (h : Start members leader M s) : s.Genuine M fun _ => 0 where
  paths x := by
    rw [h.comp]
    exact Computation.onPaths_new M
  comp x := by
    rw [h.comp]
    exact Computation.genuine_new M
  packets := by simp [h.packets]

theorem Genuine.commit (h : s.Genuine M least) {rest : List Packet}
    (hrest : ∀ p ∈ rest, p ∈ s.packets) {phase : Phase} {r : Computation × List Send}
    (hpaths : r.1.OnPaths M ∧ ∀ q ∈ r.2, q.msg.OnPaths M)
    (hgenuine : r.1.Genuine M (least x) ∧ ∀ q ∈ r.2, q.msg.Genuine M) :
    ({ s with packets := rest }.commit x phase r).Genuine M least := by
  refine ⟨?_, ?_, ?_⟩
  · intro y
    rcases eq_or_ne y x with rfl | hne
    · rw [commit_comp_self]
      exact hpaths.1
    · rw [commit_comp_of_ne _ _ _ hne]
      exact h.paths y
  · intro y
    rcases eq_or_ne y x with rfl | hne
    · rw [commit_comp_self]
      exact hgenuine.1
    · rw [commit_comp_of_ne _ _ _ hne]
      exact h.comp y
  · intro p hp
    rcases mem_commit_packets.mp hp with hp | ⟨q, hq, rfl⟩
    · exact h.packets p (hrest p hp)
    · exact ⟨hpaths.2 q hq, hgenuine.2 q hq⟩

theorem genuine_next {a : Action} (hstep : s.next a = some t) (h : s.Genuine M least) :
    t.Genuine M least := by
  cases move_of_next hstep with
  | @first id timeUp sync r hlive hr =>
    obtain ⟨-, hnext⟩ := Option.ite_none_right_eq_some.mp hstep
    obtain ⟨r', hr', hcommit⟩ := Option.map_eq_some_iff.mp hnext
    rw [← hcommit]
    exact h.commit (fun p hp => hp) ((h.paths id).firstStep hr')
      ((h.comp id).firstStep (h.paths id) (Computation.firstStep_cases hr'))
  | @compute id r hr =>
    exact h.commit (fun p hp => hp) ((h.paths id).computeStep hr)
      ((h.comp id).computeStep (h.paths id) hr)
  | @receive id src pre post p r hpackets hfound herase hsrc hdst hr =>
    obtain ⟨hpaths, hgenuine⟩ := h.packets p (mem_of_read hpackets)
    exact h.commit (fun q hq => mem_of_rest hpackets hq) ((h.paths id).onMessage hpaths hr)
      ((h.comp id).onMessage hgenuine hr)
  | @endRead id => exact h.commit (fun p hp => hp) ⟨h.paths id, by simp⟩ ⟨h.comp id, by simp⟩
  | connect | crash | discard => exact ⟨h.paths, h.comp, h.packets⟩

theorem genuine_of_run (hstart : Start members leader M start)
    (hrun : Run next (fun _ _ => True) start s) : s.Genuine M fun _ => 0 :=
  hrun.invariant (genuine_of_start hstart) fun _ _ _ h _ hstep => genuine_next hstep h

end System

end Job

namespace MaximumCut

variable {M : Matrix} {mc : MaximumCut}

theorem Best.bestMax_mem_values (hbest : mc.Best) (hmatrix : mc.matrix = M)
    (hpopped : ∀ p ∈ mc.popped, M.IsSimplePath p) : mc.bestMax.toNat ∈ values M := by
  rw [hbest, hmatrix]
  refine Set.insert_subset_insert ?_ (bestOf_isGreatest M mc.popped 0).1
  rintro w ⟨a, ha, hsum⟩
  exact ⟨a, hpopped a ha, hsum⟩

theorem Best.sum_le (hbest : mc.Best) {a : Path} (ha : a ∈ mc.popped) :
    (mc.matrix.sum a).toUInt32.toNat ≤ mc.bestMax.toNat := by
  rw [hbest]
  exact (bestOf_isGreatest mc.matrix mc.popped 0).2 (.inr ⟨a, ha, rfl⟩)

end MaximumCut

namespace Job.System

open MaximumCut

variable {M : Matrix} {least : NetworkId → Int32} {members : Finset NetworkId}
  {leader : NetworkId} {start s : System}

/-- The sums stay below 2^31, so an announced number is the number found. -/
theorem toInt_of_isValue {v : Int32} (hv : M.IsValue v) (hsums : ∀ w ∈ values M, w < 2 ^ 31) :
    ∃ w ∈ values M, v.toInt = w := by
  rcases hv with rfl | ⟨a, ha, rfl⟩
  · exact ⟨0, .inl rfl, rfl⟩
  · refine ⟨_, .inr ⟨a, ha, rfl⟩, ?_⟩
    rw [toInt_toInt32, if_pos (hsums _ (.inr ⟨a, ha, rfl⟩))]

theorem Genuine.bestMax_mem_values (h : s.Genuine M least) (x : NetworkId) :
    (s.bestMax x).toNat ∈ values M :=
  (h.comp x).best.bestMax_mem_values (h.paths x).matrix (h.paths x).popped

/-- At the end the leader has heard of what everybody found, save for its own search
before it announces a job. -/
theorem le_bestFound_of_terminates (hsound : s.Sound leader) (hkept : s.BestKept leader)
    (hend : s.Terminates leader) {x : NetworkId} (hx : (s.bestMax x).toNat < 2 ^ 31) :
    ((s.bestMax x).toNat : Int) ≤ (s.comp leader).bestFound.toInt ∨
      x = leader ∧ (s.comp leader).announced = 0 := by
  have hidle := hsound.not_active_of_terminates hend x
  rcases hkept.heard x fun hcomputing => hidle (.inl hcomputing) with
    hknown | hown | ⟨p, hp, hsrc, hdst, hmsg⟩
  · exact .inl (toNat_le_toInt hknown hx)
  · exact .inr hown
  · exact absurd (.inr (.inr ⟨p, hp, hsrc, hdst, _, hmsg⟩)) hidle

theorem larger_isGreatest (hsound : s.Sound leader) (hcovered : s.Covered M leader)
    (hkept : s.BestKept leader) (hgenuine : s.Genuine M least) (hend : s.Terminates leader)
    (hsums : ∀ w ∈ values M, w < 2 ^ 31) {w : Nat} (hw : IsGreatest (values M) w) :
    max (s.comp leader).bestFound.toInt (s.bestMax leader).toNat = (w : Int) := by
  apply le_antisymm
  · apply max_le
    · obtain ⟨v, hv, heq⟩ := toInt_of_isValue (hgenuine.comp leader).found hsums
      rw [heq]
      exact Int.ofNat_le.mpr (hw.2 hv)
    · exact Int.ofNat_le.mpr (hw.2 (hgenuine.bestMax_mem_values leader))
  · rcases hw.1 with rfl | ⟨a, ha, rfl⟩
    · exact le_max_of_le_right (Int.ofNat_le.mpr (Nat.zero_le _))
    · have hstarted : (s.comp leader).state ≠ .initial := by
        obtain ⟨-, hstate | hstate, -⟩ := hend <;> simp [hstate]
      obtain ⟨x, hx⟩ := (hcovered.accounts hstarted).explored_of_none_held
        (hsound.not_held_of_terminates hend) ha
      have hle : (M.sum a).toUInt32.toNat ≤ (s.bestMax x).toNat := by
        rw [← hcovered.matrix_eq x]
        exact (hgenuine.comp x).best.sum_le hx
      cases le_bestFound_of_terminates hsound hkept hend
          (hsums _ (hgenuine.bestMax_mem_values x)) with
      | inl hfound => exact le_max_of_le_left ((Int.ofNat_le.mpr hle).trans hfound)
      | inr hown =>
        rw [hown.1] at hle
        exact le_max_of_le_right (Int.ofNat_le.mpr hle)

theorem bestMax_le_bestFound (hsound : s.Sound leader) (hkept : s.BestKept leader)
    (hend : s.Terminates leader) (hreports : s.Reports leader)
    (hlt : (s.bestMax leader).toNat < 2 ^ 31) :
    ((s.bestMax leader).toNat : Int) ≤ (s.comp leader).bestFound.toInt := by
  cases hreports with
  | inl hsome =>
    exact (le_bestFound_of_terminates hsound hkept hend hlt).resolve_right fun h => hsome h.2
  | inr hnothing =>
    have hzero := hkept.best.eq_zero hnothing
    refine toNat_le_toInt ?_ hlt
    rw [bestMax, hzero]
    exact hkept.nonneg

theorem distributed_search_answers (hM : 1 ≤ M.size) (hsums : ∀ w ∈ values M, w < 2 ^ 31)
    (hstart : Start members leader M start)
    (hrun : Run next (fun s a => s.Orderly leader a ∧ a.Fixed) start s)
    (hend : s.Terminates leader) :
    ∃ mc, ComputeRun (new M).populateStates mc ∧
      max (s.comp leader).bestFound.toInt (s.bestMax leader).toNat = mc.getBestMax.toInt ∧
      (s.Reports leader → (s.comp leader).bestFound = mc.getBestMax) := by
  obtain ⟨mc, hmc⟩ := exists_computeRun (new M).populateStates hM
  obtain ⟨hsound, hcovered, hkept⟩ := hrun.invariant
    (P := fun s => s.Sound leader ∧ s.Covered M leader ∧ s.BestKept leader)
    ⟨sound_of_start hstart, covered_of_start hstart, bestKept_of_start hstart⟩
    fun t a u ⟨hsound, hcovered, hkept⟩ ⟨horderly, hfixed⟩ hstep =>
      ⟨sound_next horderly hstep hsound, covered_next horderly hfixed hstep hsound hcovered,
        bestKept_next horderly hstep hsound hkept⟩
  have hgenuine := genuine_of_run hstart (hrun.mono fun _ _ _ => trivial)
  have hgreatest := hmc.isGreatest_values
  have hlarger := larger_isGreatest hsound hcovered hkept hgenuine hend hsums hgreatest
  have hanswer : mc.getBestMax.toInt = mc.bestMax.toNat := by
    rw [toInt_getBestMax, if_pos (hsums _ hgreatest.1)]
  refine ⟨mc, hmc, hlarger.trans hanswer.symm, ?_⟩
  intro hreports
  have hle := bestMax_le_bestFound hsound hkept hend hreports
    (hsums _ (hgenuine.bestMax_mem_values leader))
  rw [max_eq_left hle] at hlarger
  exact Int32.toInt_inj.mp (hlarger.trans hanswer.symm)

theorem distributed_search_answers_fourClique :
    1 ≤ fourClique.size ∧ (∀ w ∈ values fourClique, w < 2 ^ 31) ∧
    ∃ s, Run next (fun s a => s.Orderly idB a ∧ a.Fixed) (.initial [idA, idB] idB fourClique) s ∧
      s.Terminates idB ∧ s.Reports idB ∧
      ∃ mc, ComputeRun (new fourClique).populateStates mc ∧
        max (s.comp idB).bestFound.toInt (s.bestMax idB).toNat = mc.getBestMax.toInt ∧
        (s.Reports idB → (s.comp idB).bestFound = mc.getBestMax) := by
  have hsums : ∀ w ∈ values fourClique, w < 2 ^ 31 := values_lt (by decide) (by decide) (by decide)
  have hstart : Start [idA, idB].toFinset idB fourClique _ :=
    start_initial (by decide) (by decide) fourClique
  obtain ⟨s, hs⟩ : ∃ s, runWhile next (fun s a => s.Orderly idB a ∧ a.Fixed)
      (.initial [idA, idB] idB fourClique) sharedRun = some s :=
    Option.isSome_iff_exists.mp (by decide +kernel)
  have hchecked : ∀ t ∈ runWhile next (fun s a => s.Orderly idB a ∧ a.Fixed)
      (.initial [idA, idB] idB fourClique) sharedRun, t.Terminates idB ∧ t.Reports idB := by
    decide +kernel
  obtain ⟨hend, hreports⟩ := hchecked s hs
  exact ⟨by decide, hsums, s, .of_runWhile hs, hend, hreports,
    distributed_search_answers (by decide) hsums hstart (.of_runWhile hs) hend⟩

end Job.System

end ParLib
