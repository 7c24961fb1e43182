import ParLib.Foundations.Runs
import ParLib.PathSearch
import ParLib.Job.LeaderStep

/-!
# Runs of one node

The rest of the system is replaced by all that it may do: at every step the
`NetworkManager` may know any clients and may lead or not, and any message may
be read. The steps may come in any order, of which `ComputationLoop` takes one.
-/

namespace ParLib.Job

set_option autoImplicit false

open Foundations ParallelStack

inductive NodeAction
  | first (net : Net) (timeUp sync : Bool)
  | compute (net : Net)
  | read (net : Net) (senderId : NetworkId) (msg : Message)

namespace NodeAction

def net : NodeAction → Net
  | .first net _ _ | .compute net | .read net _ _ => net

def isFirst : NodeAction → Bool
  | .first _ _ _ => true
  | .compute _ | .read _ _ _ => false

def leads : NodeAction → Bool
  | .first net _ _ => net.leader
  | .compute _ | .read _ _ _ => false

def readsAssignment : NodeAction → Bool
  | .read _ _ (.stackAssignment _ _) => true
  | _ => false

end NodeAction

namespace Computation

def nodeStep (c : Computation) : NodeAction → Option Computation
  | .first net timeUp sync => (c.firstStep net timeUp sync).map Prod.fst
  | .compute net => (c.computeStep net).map Prod.fst
  | .read net senderId msg => (c.onMessage net senderId msg).map Prod.fst

open ClientSets

theorem checkTable_fst (c : Computation) (net : Net) (table : StackAssignment) (sync : Bool) :
    (c.checkTable net table sync).1 = (divideJobs net (settled net table).working.elems
      ((settled net table).needJob.elems.drop (settled net table).disconnected.size)
      ((c.checked net table).giveDisconnectedJobs net (settledTable net table)
        (settled net table)).1).1 := by
  rw [checkTable_eq]

theorem divideJobs_induction {P : Computation → Prop} {net : Net} {c : Computation}
    (working needJob : List NetworkId) (hc : P c)
    (hdivide : ∀ c id, P c → P (c.onDivideWith net id).1) :
    P (divideJobs net working needJob c).1 := by
  induction working generalizing needJob c with
  | nil => simpa only [divideJobs] using hc
  | cons w working ih =>
    cases needJob with
    | nil => simpa only [divideJobs] using hc
    | cons id needJob =>
      rw [divideJobs]
      split
      · exact ih needJob hc
      · exact ih needJob (hdivide c id hc)

/-- A check of the leader clears the table, then may read an assignment of its own, then
divides: what these keep, it keeps. -/
theorem checkTable_fst_induction {P : Computation → Prop} {c : Computation} {net : Net}
    {table : StackAssignment} (sync : Bool) (hchecked : P (c.checked net table))
    (hgive : P (c.checked net table) →
      P ((c.checked net table).giveDisconnectedJobs net (settledTable net table)
        (settled net table)).1)
    (hdivide : ∀ c id, P c → P (c.onDivideWith net id).1) :
    P (c.checkTable net table sync).1 := by
  rw [checkTable_fst]
  exact divideJobs_induction _ _ (hgive hchecked) hdivide

/-- A node that gives jobs away reads an assignment of its own, or does nothing. -/
theorem giveDisconnectedJobs_fst_induction {P : Computation → Prop} {c : Computation} {net : Net}
    {table : StackAssignment} {sets : ClientSets} (hc : P c)
    (hread : ∀ assign, P (c.onAssignment net assign)) :
    P (c.giveDisconnectedJobs net table sets).1 := by
  rw [giveDisconnectedJobs]
  split
  · exact hread _
  · exact hc

theorem clearDisconnected_isSome (c : Computation) (net : Net) (timeUp : Bool) :
    (c.clearDisconnected net timeUp).currAssignment.isSome = c.currAssignment.isSome := by
  rw [clearDisconnected]
  split
  · cases htable : c.currAssignment with
    | none => rw [htable]
    | some table => rfl
  · rfl

theorem nonLeaderStep_isSome (c : Computation) (net : Net) (timeUp : Bool) :
    (c.nonLeaderStep net timeUp).currAssignment.isSome = c.currAssignment.isSome := by
  rw [nonLeaderStep]
  split
  · exact clearDisconnected_isSome _ net timeUp
  · exact c.clearDisconnected_isSome net timeUp

theorem onAssignment_isSome (c : Computation) (net : Net) (assign : StackAssignment) :
    (c.onAssignment net assign).currAssignment.isSome = true := by
  rw [onAssignment_currAssignment]
  rfl

section Table

/-- The loop goes on as long as the node is not finished. -/
def Taken (c : Computation) (a : NodeAction) : Prop := a.isFirst = true → c.state ≠ .finished

instance (c : Computation) (a : NodeAction) : Decidable (c.Taken a) :=
  inferInstanceAs (Decidable (_ → _))

def loopStep (c : Computation) (a : NodeAction) : Option Computation :=
  if c.Taken a then c.nodeStep a else none

/-- A leader without a table distributes the work instead of checking assignments, and
no job is ended without a table. -/
def TableExists (c : Computation) : NodeAction → Prop
  | .first net _ _ => net.leader = true → c.currAssignment = none → c.state = .initial
  | .compute _ => ∀ mc, c.maximumCut.compute = some (true, mc) → c.state = .computing →
      c.currAssignment ≠ none
  | .read _ _ (.assignmentFinished _) => c.currAssignment ≠ none
  | .read _ _ _ => True

/-- An assignment has been read, or the first iteration was one of the leader. -/
def workGiven (past : List NodeAction) : Bool :=
  past.any NodeAction.readsAssignment || (past.find? NodeAction.isFirst).any NodeAction.leads

/-- A leader that has been through the loop before checks only what has been given, and
only what has been given is ended. -/
def AfterWork (past : List NodeAction) : NodeAction → Prop
  | .first net _ _ => net.leader = true → past.any NodeAction.isFirst = true →
      workGiven past = true
  | .read _ _ (.assignmentFinished _) => workGiven past = true
  | .compute _ | .read _ _ _ => True

theorem workGiven_concat (past : List NodeAction) (a : NodeAction) :
    workGiven (past ++ [a]) = (workGiven past || a.readsAssignment ||
      !past.any NodeAction.isFirst && a.leads) := by
  have hleads : a.leads = true → a.isFirst = true := by
    cases a with
    | first net timeUp sync => exact fun _ => rfl
    | compute net | read net senderId msg => exact fun h => h
  have hany : past.any NodeAction.isFirst = (past.find? NodeAction.isFirst).isSome := by
    rw [Bool.eq_iff_iff, List.any_eq_true, List.find?_isSome]
  rw [workGiven, workGiven, List.any_append, List.find?_append, hany]
  cases past.find? NodeAction.isFirst with
  | some b => simp [Bool.or_right_comm]
  | none =>
    cases hlead : a.leads with
    | true => simp [hlead, hleads hlead]
    | false => cases ha : a.isFirst <;> simp [hlead, ha]

/-- A node without a table. -/
structure WithoutTable (c : Computation) : Prop where
  table : c.currAssignment = none
  stack : c.stack = []
  state : c.state ≠ .computing

theorem initLeaderStep_onAssignment {c : Computation} {net : Net} {r : Computation × List Send}
    (h : c.initLeaderStep net = some r) :
    ∃ (c' : Computation) (assign : StackAssignment), r.1 = c'.onAssignment net assign := by
  rw [initLeaderStep] at h
  obtain ⟨⟨c', sent⟩, -, h⟩ := Option.bind_eq_some_iff.mp h
  dsimp only at h
  split at h
  · cases h
  · cases h
    exact ⟨c', _, rfl⟩

theorem onDivideWith_isSome {c : Computation} (net : Net) (id : NetworkId)
    (hsome : c.currAssignment.isSome = true) :
    (c.onDivideWith net id).1.currAssignment.isSome = true := by
  cases eq_or_ne c.stack [] with
  | inl hnil => rwa [onDivideWith_of_nil net id hnil]
  | inr hwork =>
    rw [onDivideWith_of_ne_nil net id hwork]
    exact onAssignment_isSome _ net _

theorem onAssignmentFinished_isSome {c c' : Computation} {best : Int32} {clientId : NetworkId}
    (h : c.onAssignmentFinished best clientId = some c') : c'.currAssignment.isSome = true := by
  rw [onAssignmentFinished] at h
  split at h
  · cases h
  · cases h
    rfl

theorem computeStep_isSome {c : Computation} {net : Net} {r : Computation × List Send}
    (hsome : c.currAssignment.isSome = true) (h : c.computeStep net = some r) :
    r.1.currAssignment.isSome = true := by
  rw [computeStep] at h
  split at h
  · cases h
  · dsimp only at h
    split at h
    · obtain ⟨c', hc', rfl⟩ := Option.map_eq_some_iff.mp h
      have htable := onAssignmentFinished_isSome hc'
      exact htable
    · cases h
      exact hsome

theorem checkTable_isSome (c : Computation) (net : Net) (table : StackAssignment) (sync : Bool) :
    (c.checkTable net table sync).1.currAssignment.isSome = true := by
  apply checkTable_fst_induction (P := fun c => c.currAssignment.isSome = true)
  · rfl
  · intro hchecked
    exact giveDisconnectedJobs_fst_induction (P := fun c => c.currAssignment.isSome = true)
      hchecked fun assign => onAssignment_isSome _ net assign
  · exact fun c id hc => onDivideWith_isSome net id hc

theorem firstStep_isSome {c : Computation} {net : Net} {timeUp sync : Bool}
    {r : Computation × List Send} (h : c.firstStep net timeUp sync = some r) :
    r.1.currAssignment.isSome =
      (c.currAssignment.isSome || (net.leader && decide (c.state = .initial))) := by
  rw [firstStep] at h
  split at h
  · rename_i hleader
    have hcheck : c.state ≠ .initial → c.checkAssignments net timeUp sync = some r →
        r.1.currAssignment.isSome =
          (c.currAssignment.isSome || (net.leader && decide (c.state = .initial))) := by
      intro hstate h
      rw [checkAssignments] at h
      split at h
      · split at h
        · cases h
        · rename_i table htable
          cases h
          rw [checkTable_isSome, htable]
          rfl
      · cases h
        simp [hstate]
    rw [leaderStep] at h
    cases hstate : c.state with
    | initial =>
      rw [hstate] at h
      obtain ⟨c', assign, heq⟩ := initLeaderStep_onAssignment h
      rw [heq, onAssignment_isSome]
      simp [hleader]
    | computing | waiting =>
      rw [hstate] at h hcheck
      exact hcheck State.noConfusion h
    | terminating | finished =>
      rw [hstate] at h
      cases h
      simp
  · rename_i hleader
    cases h
    rw [nonLeaderStep_isSome]
    simp [hleader]

theorem firstStep_started {c : Computation} {net : Net} {timeUp sync : Bool}
    {r : Computation × List Send} (h : c.firstStep net timeUp sync = some r) :
    r.1.state ≠ .initial := by
  have hclear : ∀ c : Computation, (c.clearDisconnected net timeUp).state = c.state := by
    intro c
    obtain ⟨table, heq, -⟩ := c.clearDisconnected_spec net timeUp
    rw [heq]
  rw [firstStep] at h
  split at h
  · have hcheck : c.state ≠ .initial → c.checkAssignments net timeUp sync = some r →
        r.1.state ≠ .initial := by
      intro hstate h
      rw [checkAssignments] at h
      split at h
      · split at h
        · cases h
        · cases h
          exact checkTable_started net _ sync hstate
      · cases h
        exact hstate
    rw [leaderStep] at h
    cases hstate : c.state with
    | initial =>
      rw [hstate] at h
      obtain ⟨c', assign, heq⟩ := initLeaderStep_onAssignment h
      rw [heq]
      exact onAssignment_started c' net assign
    | computing | waiting =>
      rw [hstate] at h
      exact hcheck (by simp [hstate]) h
    | terminating | finished =>
      rw [hstate] at h
      cases h
      simp [hstate]
  · cases h
    rw [nonLeaderStep]
    split
    · rw [hclear]
      exact State.noConfusion
    · rename_i hstate
      rwa [hclear]

theorem computeStep_of_nil {c : Computation} {net : Net} {r : Computation × List Send}
    (hnil : c.stack = []) (hstate : c.state ≠ .computing) (h : c.computeStep net = some r) :
    r.1.stack = [] ∧ r.1.state = c.state ∧ r.1.currAssignment = c.currAssignment := by
  obtain ⟨mc, ps, hexplored, rfl | ⟨hcomputing, -⟩⟩ := computeStep_eq_some h
  · exact ⟨(hexplored.of_nil hnil).2.1, rfl, rfl⟩
  · exact absurd hcomputing hstate

theorem nodeStep_isSome {c t : Computation} {a : NodeAction}
    (hsome : c.currAssignment.isSome = true) (h : c.nodeStep a = some t) :
    t.currAssignment.isSome = true := by
  cases a with
  | first net timeUp sync =>
    obtain ⟨r, hr, rfl⟩ := Option.map_eq_some_iff.mp h
    rw [firstStep_isSome hr, hsome, Bool.true_or]
  | compute net =>
    obtain ⟨r, hr, rfl⟩ := Option.map_eq_some_iff.mp h
    exact computeStep_isSome hsome hr
  | read net senderId msg =>
    obtain ⟨r, hr, rfl⟩ := Option.map_eq_some_iff.mp h
    cases msg with
    | stackAssignment assign resent =>
      cases hr
      exact c.onAssignment_isSome net assign
    | assignmentFinished best =>
      obtain ⟨c', hc', rfl⟩ := Option.map_eq_some_iff.mp hr
      exact onAssignmentFinished_isSome hc'
    | terminate =>
      cases hr
      exact hsome
    | divideWith id =>
      cases hr
      exact onDivideWith_isSome net id hsome

theorem WithoutTable.firstStep {c : Computation} {net : Net} {timeUp sync : Bool}
    {r : Computation × List Send} (hc : c.WithoutTable)
    (h : c.firstStep net timeUp sync = some r) (hnone : r.1.currAssignment = none) :
    r.1.WithoutTable := by
  cases firstStep_cases h with
  | init hleader hinitial hr =>
    obtain ⟨c', assign, heq⟩ := initLeaderStep_onAssignment hr
    have hsome := c'.onAssignment_isSome net assign
    rw [← heq, hnone] at hsome
    cases hsome
  | check hleader hrunning htime htable =>
    rw [hc.table] at htable
    cases htable
  | idle hcut hbest hannounced hrecorded hlisted hstate =>
    refine ⟨hnone, ?_, ?_⟩
    · exact (congrArg (fun mc : MaximumCut => mc.states.data) hcut).trans hc.stack
    · rcases hstate with hsame | ⟨-, -, hwaiting⟩
      · rw [hsame]
        exact hc.state
      · rw [hwaiting]
        exact State.noConfusion

/-- What a step does to a node without a table: it gives the node one, or leaves it
without work and without a table. -/
theorem WithoutTable.nodeStep {c t : Computation} {a : NodeAction} (hc : c.WithoutTable)
    (h : c.nodeStep a = some t) :
    t.currAssignment.isSome = (a.readsAssignment || (a.leads && decide (c.state = .initial))) ∧
      (t.currAssignment = none → t.WithoutTable ∧
        (a.isFirst = true → t.state ≠ .initial) ∧
        (a.isFirst = false → t.state = c.state ∨ t.state = .finished)) := by
  cases a with
  | first net timeUp sync =>
    obtain ⟨r, hr, rfl⟩ := Option.map_eq_some_iff.mp h
    refine ⟨?_, ?_⟩
    · rw [firstStep_isSome hr, hc.table]
      rfl
    · exact fun hnone => ⟨hc.firstStep hr hnone, fun _ => firstStep_started hr, Bool.noConfusion⟩
  | compute net =>
    obtain ⟨r, hr, rfl⟩ := Option.map_eq_some_iff.mp h
    obtain ⟨hnil, hsame, htable⟩ := computeStep_of_nil hc.stack hc.state hr
    refine ⟨?_, ?_⟩
    · rw [htable, hc.table]
      rfl
    · intro hnone
      refine ⟨⟨hnone, hnil, ?_⟩, Bool.noConfusion, fun _ => .inl hsame⟩
      rw [hsame]
      exact hc.state
  | read net senderId msg =>
    obtain ⟨r, hr, rfl⟩ := Option.map_eq_some_iff.mp h
    cases msg with
    | stackAssignment assign resent =>
      cases hr
      have hsome := c.onAssignment_isSome net assign
      refine ⟨hsome, fun hnone => ?_⟩
      rw [hnone] at hsome
      cases hsome
    | assignmentFinished best =>
      obtain ⟨c', hc', rfl⟩ := Option.map_eq_some_iff.mp hr
      rw [onAssignmentFinished, hc.table] at hc'
      cases hc'
    | terminate =>
      cases hr
      refine ⟨congrArg Option.isSome hc.table, fun hnone => ?_⟩
      exact ⟨⟨hnone, hc.stack, State.noConfusion⟩, Bool.noConfusion, fun _ => .inr rfl⟩
    | divideWith id =>
      cases hr
      rw [onDivideWith_of_nil net id hc.stack]
      exact ⟨congrArg Option.isSome hc.table, fun _ => ⟨hc, Bool.noConfusion, fun _ => .inl rfl⟩⟩

/-- There is a table as soon as work has been given; until then the state tells whether
the node has been through the loop. -/
structure TableHistory (past : List NodeAction) (c : Computation) : Prop where
  given : c.currAssignment.isSome = workGiven past
  without : c.currAssignment = none → c.WithoutTable
  begun : c.currAssignment = none → c.state ≠ .finished →
    (c.state = .initial ↔ past.any NodeAction.isFirst = false)

theorem TableHistory.loopStep {past : List NodeAction} {c t : Computation} {a : NodeAction}
    (hc : TableHistory past c) (h : c.loopStep a = some t) : TableHistory (past ++ [a]) t := by
  obtain ⟨htaken, h⟩ := Option.ite_none_right_eq_some.mp h
  cases htable : c.currAssignment with
  | some table =>
    have hsome : c.currAssignment.isSome = true := by
      rw [htable]
      rfl
    have hsome' := nodeStep_isSome hsome h
    have habsurd : t.currAssignment ≠ none := by
      intro hnone
      rw [hnone] at hsome'
      cases hsome'
    refine ⟨?_, fun hnone => absurd hnone habsurd, fun hnone => absurd hnone habsurd⟩
    rw [hsome', workGiven_concat, ← hc.given, hsome]
    rfl
  | none =>
    obtain ⟨hgives, hleft⟩ := (hc.without htable).nodeStep h
    have hbegun := hc.begun htable
    have hnotGiven := hc.given
    rw [htable] at hnotGiven
    refine ⟨?_, fun hnone => (hleft hnone).1, ?_⟩
    · rw [hgives, workGiven_concat, ← hnotGiven]
      cases hlead : a.leads with
      | false => simp
      | true =>
        have hfirst : a.isFirst = true := by
          cases a with
          | first net timeUp sync => rfl
          | compute net | read net senderId msg => cases hlead
        have hstate := hbegun (htaken hfirst)
        by_cases hinitial : c.state = .initial
        · simp [hinitial, hstate.mp hinitial]
        · have hany : past.any NodeAction.isFirst = true := by
            rw [← Bool.not_eq_false]
            exact fun hany => hinitial (hstate.mpr hany)
          simp [hinitial, hany]
    · intro hnone hlive
      obtain ⟨-, hfirst, hother⟩ := hleft hnone
      rw [List.any_append]
      cases ha : a.isFirst with
      | true => simp [ha, hfirst ha]
      | false =>
        have hsame : t.state = c.state := (hother ha).resolve_right hlive
        rw [hsame] at hlive ⊢
        simp [ha, hbegun hlive]

/-- A node with a table at every use, exactly if each of its iterations as the leader is
its first one or comes after work was given, and each end of a job after that too. -/
theorem table_exists_iff (matrix : Matrix) (actions : List NodeAction) :
    Along loopStep (.new matrix) (fun _ c a => c.Taken a → c.TableExists a) actions ↔
      Along loopStep (.new matrix) (fun past c a => c.Taken a → AfterWork past a) actions := by
  refine along_congr ?_ actions
  intro past a c h
  have hc : TableHistory past c := runActions_induction
    ⟨rfl, fun _ => ⟨rfl, rfl, State.noConfusion⟩, fun _ _ => ⟨fun _ => rfl, fun _ => rfl⟩⟩
    (fun past a t u ht hu => ht.loopStep hu) h
  have hgiven : c.currAssignment ≠ none ↔ workGiven past = true := by
    rw [← hc.given, Option.isSome_iff_ne_none]
  refine forall_congr' fun htaken => ?_
  cases a with
  | first net timeUp sync =>
    refine forall_congr' fun hleader => ?_
    constructor
    · intro hexists hbegun
      rw [← hgiven]
      intro hnone
      have hnew := (hc.begun hnone (htaken rfl)).mp (hexists hnone)
      rw [hbegun] at hnew
      cases hnew
    · intro hafter hnone
      rw [hc.begun hnone (htaken rfl), ← Bool.not_eq_true]
      exact fun hbegun => hgiven.mpr (hafter hbegun) hnone
  | compute net =>
    refine iff_of_true ?_ trivial
    exact fun mc _ hcomputing hnone => (hc.without hnone).state hcomputing
  | read net senderId msg =>
    cases msg with
    | assignmentFinished best => exact hgiven
    | stackAssignment assign resent | terminate | divideWith id => exact Iff.rfl

/-- The network of B, alone with A. -/
def netOfB (leader : Bool) : Net where
  networkId := idB
  clients := [idA]
  leader := leader

/-- B leads from its second iteration on. -/
theorem late_leader_checks_without_a_table :
    ¬ ∀ actions, Along loopStep (.new MaximumCut.edgeMatrix)
      (fun _ c a => c.Taken a → c.TableExists a) actions := by
  intro h
  have hlate := h [.first (netOfB false) false false, .compute (netOfB false),
    .first (netOfB true) true false] [.first (netOfB false) false false, .compute (netOfB false)]
    (.first (netOfB true) true false) [] rfl
    { new MaximumCut.edgeMatrix with state := .waiting } rfl
  exact absurd (hlate (fun _ => State.noConfusion) rfl rfl) State.noConfusion

theorem exists_computeStep {c : Computation} (net : Net) (hmatrix : 1 ≤ c.maximumCut.matrix.size)
    (htable : ∀ mc, c.maximumCut.compute = some (true, mc) → c.state = .computing →
      c.currAssignment ≠ none) : ∃ r, c.computeStep net = some r := by
  obtain ⟨done, mc, hcompute⟩ := MaximumCut.compute_eq_some hmatrix
  simp only [computeStep, hcompute]
  split
  · rename_i hfinish
    obtain ⟨rfl, hcomputing⟩ := hfinish
    obtain ⟨table, hsome⟩ := Option.ne_none_iff_exists'.mp (htable mc hcompute hcomputing)
    simp [onAssignmentFinished, hsome]
  · exact ⟨_, rfl⟩

theorem exists_computeSteps (net : Net) (n : Nat) {c : Computation}
    (hmatrix : 1 ≤ c.maximumCut.matrix.size) (hstate : c.state ≠ .computing) :
    ∃ r, computeSteps net n c = some r := by
  induction n generalizing c with
  | zero => exact ⟨_, rfl⟩
  | succ n ih =>
    obtain ⟨r, hr⟩ := exists_computeStep net hmatrix fun _ _ hcomputing => absurd hcomputing hstate
    obtain ⟨mc, ps, hexplored, rfl | ⟨hcomputing, -⟩⟩ := computeStep_eq_some hr
    · have hmatrix' : 1 ≤ mc.matrix.size := by rwa [hexplored.matrix]
      obtain ⟨r', hr'⟩ := ih (c := { c with maximumCut := mc }) hmatrix' hstate
      simp [computeSteps, hr, hr']
    · exact absurd hcomputing hstate

theorem exists_initLeaderStep {c : Computation} (net : Net)
    (hmatrix : 1 ≤ c.maximumCut.matrix.size) (hstate : c.state ≠ .computing) :
    ∃ r, c.initLeaderStep net = some r := by
  obtain ⟨r, hr⟩ := exists_computeSteps net 5
    (c := { c with maximumCut := c.maximumCut.populateStates }) hmatrix hstate
  have hlen : (getParallelStacks r.1.maximumCut.states.data net.knownClients.length).length =
      net.knownClients.length := by
    apply getParallelStacks_length
    simp [Net.knownClients]
  simp [initLeaderStep, hr, hlen]

/-- A node that has loaded a graph ends its process only for want of a table. -/
theorem exists_nodeStep {c : Computation} {a : NodeAction}
    (hmatrix : 1 ≤ c.maximumCut.matrix.size) (hexists : c.TableExists a) :
    ∃ t, c.nodeStep a = some t := by
  have hmap : ∀ {o : Option (Computation × List Send)}, (∃ r, o = some r) →
      ∃ t, o.map Prod.fst = some t := by
    rintro _ ⟨r, rfl⟩
    exact ⟨r.1, rfl⟩
  cases a with
  | first net timeUp sync =>
    apply hmap
    rw [firstStep]
    split
    · rename_i hleader
      have hcheck : c.state ≠ .initial → ∃ r, c.checkAssignments net timeUp sync = some r := by
        intro hstate
        obtain ⟨table, htable⟩ := Option.ne_none_iff_exists'.mp
          fun hnone => hstate (hexists hleader hnone)
        rw [checkAssignments, htable]
        split <;> exact ⟨_, rfl⟩
      rw [leaderStep]
      cases hstate : c.state with
      | initial => exact exists_initLeaderStep net hmatrix State.noConfusion
      | computing | waiting => exact hcheck (by simp [hstate])
      | terminating | finished => exact ⟨_, rfl⟩
    · exact ⟨_, rfl⟩
  | compute net => exact hmap (exists_computeStep net hmatrix hexists)
  | read net senderId msg =>
    apply hmap
    cases msg with
    | assignmentFinished best =>
      obtain ⟨table, htable⟩ := Option.ne_none_iff_exists'.mp hexists
      simp [onMessage, onAssignmentFinished, htable]
    | stackAssignment assign resent | terminate | divideWith id => exact ⟨_, rfl⟩

end Table

section Finished

/-- `OnAssignment` writes the state without looking whether the node is finished. -/
def KeepsFinished (c : Computation) : NodeAction → Prop
  | .read _ _ (.stackAssignment _ _) => False
  | .read _ _ (.divideWith _) => c.stack = []
  | _ => True

theorem onAssignment_not_finished (c : Computation) (net : Net) (assign : StackAssignment) :
    (c.onAssignment net assign).state ≠ .finished := by
  rcases c.onAssignment_state net assign with hstate | hstate <;> simp [hstate]

theorem firstStep_of_finished {c : Computation} {net : Net} {timeUp sync : Bool}
    {r : Computation × List Send} (hc : c.state = .finished)
    (h : c.firstStep net timeUp sync = some r) : r.1.state = .finished := by
  cases firstStep_cases h with
  | init hleader hstate =>
    rw [hc] at hstate
    cases hstate
  | check hleader hstate =>
    rw [hc] at hstate
    rcases hstate with hstate | hstate <;> cases hstate
  | idle hcut hbest hannounced hrecorded hlisted hstate =>
    rcases hstate with hsame | ⟨-, hstate, -⟩
    · rwa [hsame]
    · rw [hc] at hstate
      cases hstate

theorem nodeStep_of_finished {c t : Computation} {a : NodeAction} (hc : c.state = .finished)
    (h : c.nodeStep a = some t) : t.state = .finished ↔ c.KeepsFinished a := by
  cases a with
  | first net timeUp sync =>
    obtain ⟨r, hr, rfl⟩ := Option.map_eq_some_iff.mp h
    exact iff_of_true (firstStep_of_finished hc hr) trivial
  | compute net =>
    obtain ⟨r, hr, rfl⟩ := Option.map_eq_some_iff.mp h
    refine iff_of_true ?_ trivial
    obtain ⟨mc, ps, -, rfl | ⟨hcomputing, -⟩⟩ := computeStep_eq_some hr
    · exact hc
    · rw [hc] at hcomputing
      cases hcomputing
  | read net senderId msg =>
    obtain ⟨r, hr, rfl⟩ := Option.map_eq_some_iff.mp h
    cases msg with
    | stackAssignment assign resent =>
      cases hr
      exact iff_of_false (c.onAssignment_not_finished net assign) id
    | assignmentFinished best =>
      obtain ⟨c', hc', rfl⟩ := Option.map_eq_some_iff.mp hr
      refine iff_of_true ?_ trivial
      rw [(onAssignmentFinished_eq_some hc').2.2.2.1, hc]
    | terminate =>
      cases hr
      exact iff_of_true rfl trivial
    | divideWith id =>
      cases hr
      cases eq_or_ne c.stack [] with
      | inl hnil =>
        rw [onDivideWith_of_nil net id hnil]
        exact iff_of_true hc hnil
      | inr hwork =>
        rw [onDivideWith_of_ne_nil net id hwork]
        exact iff_of_false (onAssignment_not_finished _ net _) hwork

theorem keepsFinished_iff {c : Computation} (hc : c.state = .finished) (a : NodeAction) :
    c.KeepsFinished a ↔ ∀ t, c.nodeStep a = some t → t.state = .finished := by
  constructor
  · intro hkeeps t h
    exact (nodeStep_of_finished hc h).mpr hkeeps
  · intro h
    cases a with
    | first net timeUp sync | compute net => trivial
    | read net senderId msg =>
      cases msg with
      | stackAssignment assign resent | divideWith id =>
        exact (nodeStep_of_finished hc rfl).mp (h _ rfl)
      | assignmentFinished best | terminate => trivial

/-- With every job ended there is nobody to give a job to and nobody to ask for one. -/
theorem checkTable_of_noJobsLeft (c : Computation) {net : Net} {table : StackAssignment}
    (sync : Bool) (h : (settled net table).noJobsLeft = true) :
    (c.checkTable net table sync).1 = c.checked net table := by
  have hworking : (settled net table).working.elems = [] := by
    rw [List.eq_nil_iff_forall_not_mem]
    intro k hk
    exact (mem_working.mp hk).2 (getAssignment_of_noJobsLeft h k)
  have hnone : (settled net table).disconnected.size = 0 := by
    rw [noJobsLeft, decide_eq_true_eq] at h
    exact h.2
  have hgave : ((c.checked net table).giveDisconnectedJobs net (settledTable net table)
      (settled net table)).1 = c.checked net table := by
    rw [giveDisconnectedJobs, hnone, Nat.zero_min, if_neg (lt_irrefl 0)]
  rw [checkTable_fst, hworking, hgave]
  simp only [divideJobs]

/-- A leader is finished when its check has ended the computation. From then on a node
stays finished exactly if it reads no assignment, and divides no work that it still has. -/
theorem finished_stays_iff (c : Computation) (actions : List NodeAction) :
    (∀ (net : Net) (table : StackAssignment) (sync : Bool),
      (settled net table).noJobsLeft = true →
        (c.checkTable net table sync).1.state = .finished) ∧
      (Throughout nodeStep c.onTerminate (fun t => t.state = .finished) actions ↔
        Along nodeStep c.onTerminate (fun _ => KeepsFinished) actions) := by
  constructor
  · intro net table sync h
    rw [checkTable_of_noJobsLeft c sync h, checked, if_pos h]
  · apply throughout_iff_along
    · rfl
    · exact fun t a ht => keepsFinished_iff ht a

/-- The leader B alone, with its own job ended. -/
theorem lone_leader_stays_finished :
    (settled { netOfB true with clients := [] } (StackAssignment.empty.setAssignment idB
        [])).noJobsLeft = true ∧
      ((new MaximumCut.edgeMatrix).checkTable { netOfB true with clients := [] }
        (StackAssignment.empty.setAssignment idB []) false).1.state = .finished ∧
      Throughout nodeStep (new MaximumCut.edgeMatrix).onTerminate (fun t => t.state = .finished)
        [.read (netOfB false) idA .terminate, .compute (netOfB false)] := by
  have hjobs : (settled { netOfB true with clients := [] } (StackAssignment.empty.setAssignment idB
      [])).noJobsLeft = true := by decide
  refine ⟨hjobs, (finished_stays_iff _ []).1 _ _ false hjobs, (finished_stays_iff _ _).2.mpr ?_⟩
  exact along_of_forall (by simp [KeepsFinished])

/-- An assignment behind the message that terminates B puts it to work again. -/
theorem finished_node_takes_work :
    ¬ ∀ (c : Computation) (actions : List NodeAction),
      Throughout nodeStep c.onTerminate (fun t => t.state = .finished) actions := by
  intro h
  have hstill := h (new MaximumCut.edgeMatrix)
    [.read (netOfB false) idA (.stackAssignment (.setAssignment .empty idB [[0]]) false)] _
    (List.prefix_refl _) _ rfl
  exact State.noConfusion hstill

end Finished

section Work

/-- The call of `OnAssignment` in `OnDivideWith`: the node's state then, and what it reads. -/
def divideCall (c : Computation) (net : Net) (id : NetworkId) :
    List (Computation × StackAssignment) :=
  match getParallelStacks c.maximumCut.states.data 2 with
  | [kept, given] =>
    if kept.size = 0 then []
    else [({ c with maximumCut := c.maximumCut.assignData kept.data },
      (StackAssignment.empty.setAssignment net.networkId kept.data).setAssignment id given.data)]
  | _ => []

/-- The calls of `OnAssignment` in the loop of `divideJobs`. -/
def divideCalls (net : Net) : List NetworkId → List NetworkId → Computation →
    List (Computation × StackAssignment)
  | workingClient :: working, needsJob :: needJob, c =>
    if workingClient ≠ net.networkId then divideCalls net working needJob c
    else c.divideCall net needsJob ++
      divideCalls net working needJob (c.onDivideWith net needsJob).1
  | _, _, _ => []

/-- The calls of `OnAssignment` in a check of the leader. -/
def checkCalls (c : Computation) (net : Net) (table : StackAssignment) :
    List (Computation × StackAssignment) :=
  let sets := settled net table
  let c := c.checked net table
  let newAssignments := giveJobs (settledTable net table) sets.disconnected.elems
    sets.needJob.elems .empty
  let gave := if min sets.disconnected.size sets.needJob.size > 0 then [(c, newAssignments)] else []
  gave ++ divideCalls net sets.working.elems (sets.needJob.elems.drop sets.disconnected.size)
    (c.giveDisconnectedJobs net (settledTable net table) sets).1

/-- The calls of `OnAssignment` in one step, except the one in `InitLeaderStep`. -/
def assignmentCalls (c : Computation) : NodeAction → List (Computation × StackAssignment)
  | .first net timeUp _ =>
    match c.currAssignment with
    | some table =>
      if net.leader ∧ timeUp ∧ (c.state = .computing ∨ c.state = .waiting) then
        c.checkCalls net table
      else []
    | none => []
  | .compute _ => []
  | .read _ _ (.stackAssignment assign _) => [(c, assign)]
  | .read net _ (.divideWith id) => c.divideCall net id
  | .read _ _ _ => []

/-- A node that is neither computing nor finished has nothing on its stack. -/
def WorksOnStack (c : Computation) : Prop :=
  c.stack ≠ [] → c.state = .computing ∨ c.state = .finished

theorem onAssignment_worksOnStack (c : Computation) (net : Net) (assign : StackAssignment) :
    (c.onAssignment net assign).WorksOnStack := by
  intro hwork
  by_cases hstate : c.state = .computing
  · exact .inl (c.onAssignment_of_computing net assign hstate).2
  · obtain ⟨hcut, hstate'⟩ := c.onAssignment_of_not_computing net assign hstate
    rw [stack, hcut] at hwork
    have hshare : assign.getAssignment net.networkId ≠ [] := hwork
    rw [hstate', if_neg hshare]
    exact .inl rfl

theorem WorksOnStack.onDivideWith {c : Computation} (hc : c.WorksOnStack) (net : Net)
    (id : NetworkId) : (c.onDivideWith net id).1.WorksOnStack := by
  cases eq_or_ne c.stack [] with
  | inl hnil => rwa [onDivideWith_of_nil net id hnil]
  | inr hwork =>
    rw [onDivideWith_of_ne_nil net id hwork]
    exact onAssignment_worksOnStack _ net _

theorem WorksOnStack.computeStep {c : Computation} {net : Net} {r : Computation × List Send}
    (hc : c.WorksOnStack) (h : c.computeStep net = some r) : r.1.WorksOnStack := by
  obtain ⟨mc, ps, hexplored, rfl | ⟨-, hnil, -, hmc, -⟩⟩ := computeStep_eq_some h
  · intro hwork
    exact hc fun hnil => hwork (hexplored.of_nil hnil).2.1
  · intro hwork
    rw [stack, hmc] at hwork
    exact absurd hnil hwork

theorem WorksOnStack.checked {c : Computation} (hc : c.WorksOnStack) (net : Net)
    (table : StackAssignment) : (c.checked net table).WorksOnStack := by
  intro hwork
  rw [Computation.checked]
  split
  · exact .inr rfl
  · exact hc hwork

theorem WorksOnStack.giveDisconnectedJobs {c : Computation} (hc : c.WorksOnStack) (net : Net)
    (table : StackAssignment) (sets : ClientSets) :
    (c.giveDisconnectedJobs net table sets).1.WorksOnStack :=
  giveDisconnectedJobs_fst_induction hc fun assign => c.onAssignment_worksOnStack net assign

theorem WorksOnStack.firstStep {c : Computation} {net : Net} {timeUp sync : Bool}
    {r : Computation × List Send} (hc : c.WorksOnStack)
    (h : c.firstStep net timeUp sync = some r) : r.1.WorksOnStack := by
  cases firstStep_cases h with
  | init hleader hstate hr =>
    obtain ⟨c', assign, heq⟩ := initLeaderStep_onAssignment hr
    rw [heq]
    exact c'.onAssignment_worksOnStack net assign
  | check =>
    apply checkTable_fst_induction
    · exact hc.checked net _
    · exact fun hchecked => hchecked.giveDisconnectedJobs net _ _
    · exact fun c id hc => hc.onDivideWith net id
  | idle hcut hbest hannounced hrecorded hlisted hstate =>
    intro hwork
    rw [stack, hcut] at hwork
    have hrunning := hc hwork
    rcases hstate with hsame | ⟨-, hinitial, -⟩
    · rwa [hsame]
    · rw [hinitial] at hrunning
      rcases hrunning with hrunning | hrunning <;> cases hrunning

theorem WorksOnStack.nodeStep {c t : Computation} {a : NodeAction} (hc : c.WorksOnStack)
    (h : c.nodeStep a = some t) : t.WorksOnStack := by
  cases a with
  | first net timeUp sync =>
    obtain ⟨r, hr, rfl⟩ := Option.map_eq_some_iff.mp h
    exact hc.firstStep hr
  | compute net =>
    obtain ⟨r, hr, rfl⟩ := Option.map_eq_some_iff.mp h
    exact hc.computeStep hr
  | read net senderId msg =>
    obtain ⟨r, hr, rfl⟩ := Option.map_eq_some_iff.mp h
    cases msg with
    | stackAssignment assign resent =>
      cases hr
      exact c.onAssignment_worksOnStack net assign
    | assignmentFinished best =>
      obtain ⟨c', hc', rfl⟩ := Option.map_eq_some_iff.mp hr
      obtain ⟨-, -, hcut, hstate, -⟩ := onAssignmentFinished_eq_some hc'
      intro hwork
      rw [stack, hcut] at hwork
      rw [hstate]
      exact hc hwork
    | terminate =>
      cases hr
      exact fun _ => .inr rfl
    | divideWith id =>
      cases hr
      exact hc.onDivideWith net id

theorem divideCall_of_nil {c : Computation} (net : Net) (id : NetworkId) (h : c.stack = []) :
    c.divideCall net id = [] := by
  have hsize := (size_keptHalf c).mpr h
  simp only [divideCall, getParallelStacks_two, hsize, if_true]

theorem divideCall_of_ne_nil {c : Computation} (net : Net) (id : NetworkId) (h : c.stack ≠ []) :
    c.divideCall net id = [({ c with maximumCut := c.maximumCut.assignData (newDataB c.stack) },
      dividedAssignment net id c.stack)] := by
  have hsize := (size_keptHalf c).not.mpr h
  simp only [divideCall, getParallelStacks_two, hsize, if_false]
  rfl

/-- A division is its calls. -/
theorem foldl_divideCall (c : Computation) (net : Net) (id : NetworkId) :
    (c.onDivideWith net id).1 =
      (c.divideCall net id).foldl (fun _ call => call.1.onAssignment net call.2) c := by
  cases eq_or_ne c.stack [] with
  | inl hnil =>
    rw [onDivideWith_of_nil net id hnil, divideCall_of_nil net id hnil]
    rfl
  | inr hwork =>
    rw [onDivideWith_of_ne_nil net id hwork, divideCall_of_ne_nil net id hwork]
    rfl

theorem foldl_divideCalls (net : Net) (working needJob : List NetworkId) (c : Computation) :
    (divideJobs net working needJob c).1 =
      (divideCalls net working needJob c).foldl (fun _ call => call.1.onAssignment net call.2)
        c := by
  induction working generalizing needJob c with
  | nil => simp only [divideJobs, divideCalls, List.foldl_nil]
  | cons workingClient working ih =>
    cases needJob with
    | nil => simp only [divideJobs, divideCalls, List.foldl_nil]
    | cons needsJob needJob =>
      rw [divideJobs, divideCalls]
      split
      · exact ih needJob c
      · rw [List.foldl_append, ← foldl_divideCall]
        exact ih needJob (c.onDivideWith net needsJob).1

/-- A check does what its calls do, once the table is settled. -/
theorem foldl_checkCalls (c : Computation) (net : Net) (table : StackAssignment) (sync : Bool) :
    (c.checkTable net table sync).1 =
      (c.checkCalls net table).foldl (fun _ call => call.1.onAssignment net call.2)
        (c.checked net table) := by
  rw [checkTable_fst, foldl_divideCalls, checkCalls, List.foldl_append]
  congr 1
  rw [giveDisconnectedJobs]
  split <;> rfl

/-- What the last call leaves does not depend on where the first one began. -/
theorem foldl_calls_eq {net : Net} {calls : List (Computation × StackAssignment)}
    (hcalls : calls ≠ []) (c c' : Computation) :
    calls.foldl (fun _ call => call.1.onAssignment net call.2) c =
      calls.foldl (fun _ call => call.1.onAssignment net call.2) c' := by
  cases calls with
  | nil => exact absurd rfl hcalls
  | cons call calls => rfl

/-- A step ends where its last call does. One without calls leaves the stack as it is, unless it
deals out the work, as a leader that has just begun, or searches. -/
structure StepsByCalls (c : Computation) (a : NodeAction) (t : Computation) : Prop where
  calls : c.assignmentCalls a ≠ [] → t =
    (c.assignmentCalls a).foldl (fun _ call => call.1.onAssignment a.net call.2) c
  others : c.assignmentCalls a = [] → t.stack = c.stack ∨
    (c.state = .initial ∧ a.leads = true) ∨ ∃ net, a = .compute net

theorem stepsByCalls_checkTable {c : Computation} {net : Net} {table : StackAssignment}
    {timeUp sync : Bool}
    (hcalls : c.assignmentCalls (.first net timeUp sync) = c.checkCalls net table) :
    c.StepsByCalls (.first net timeUp sync) (c.checkTable net table sync).1 := by
  constructor
  · rw [hcalls, foldl_checkCalls]
    exact fun hne => foldl_calls_eq hne _ _
  · rw [hcalls, foldl_checkCalls]
    intro hnil
    rw [hnil]
    exact .inl rfl

theorem firstStep_calls {c : Computation} {net : Net} {timeUp sync : Bool}
    {r : Computation × List Send} (h : c.firstStep net timeUp sync = some r) :
    c.StepsByCalls (.first net timeUp sync) r.1 := by
  by_cases hcheck : net.leader = true ∧ timeUp = true ∧ (c.state = .computing ∨ c.state = .waiting)
  · obtain ⟨hleader, htime, hstate⟩ := hcheck
    have hcheck : c.checkAssignments net timeUp sync = some r := by
      rw [firstStep, if_pos hleader, leaderStep] at h
      rcases hstate with hstate | hstate <;> simpa only [hstate] using h
    rw [checkAssignments, if_pos htime] at hcheck
    split at hcheck
    · cases hcheck
    · rename_i table htable
      cases hcheck
      apply stepsByCalls_checkTable
      simp only [assignmentCalls, htable, hleader, htime, hstate, and_self, if_true]
  · have hnone : c.assignmentCalls (.first net timeUp sync) = [] := by
      rw [assignmentCalls]
      split
      · exact if_neg hcheck
      · rfl
    refine ⟨fun hne => absurd hnone hne, fun _ => ?_⟩
    cases firstStep_cases h with
    | init hleader hstate => exact .inr (.inl ⟨hstate, hleader⟩)
    | check hleader hstate htime => exact absurd ⟨hleader, htime, hstate⟩ hcheck
    | idle hcut => exact .inl (congrArg (fun mc => mc.states.data) hcut)

theorem nodeStep_calls {c t : Computation} {a : NodeAction} (h : c.nodeStep a = some t) :
    c.StepsByCalls a t := by
  cases a with
  | first net timeUp sync =>
    obtain ⟨r, hr, rfl⟩ := Option.map_eq_some_iff.mp h
    exact firstStep_calls hr
  | compute net => exact ⟨fun hne => absurd rfl hne, fun _ => .inr (.inr ⟨net, rfl⟩)⟩
  | read net senderId msg =>
    obtain ⟨r, hr, rfl⟩ := Option.map_eq_some_iff.mp h
    cases msg with
    | stackAssignment assign resent =>
      cases hr
      exact ⟨fun _ => rfl, nofun⟩
    | assignmentFinished best =>
      obtain ⟨c', hc', rfl⟩ := Option.map_eq_some_iff.mp hr
      have hcut := (onAssignmentFinished_eq_some hc').2.2.1
      exact ⟨fun hne => absurd rfl hne, fun _ => .inl (congrArg (fun mc => mc.states.data) hcut)⟩
    | terminate =>
      cases hr
      exact ⟨fun hne => absurd rfl hne, fun _ => .inl rfl⟩
    | divideWith id =>
      cases hr
      refine ⟨fun _ => foldl_divideCall c net id, fun hnil => .inl ?_⟩
      rw [foldl_divideCall, show c.divideCall net id = [] from hnil]
      rfl

theorem WorksOnStack.divideCall {c : Computation} {net : Net} {id : NetworkId}
    {call : Computation × StackAssignment} (hc : c.WorksOnStack)
    (h : call ∈ c.divideCall net id) : call.1.WorksOnStack := by
  cases eq_or_ne c.stack [] with
  | inl hnil =>
    rw [divideCall_of_nil net id hnil] at h
    cases h
  | inr hwork =>
    rw [divideCall_of_ne_nil net id hwork, List.mem_singleton] at h
    rw [h]
    exact fun _ => hc hwork

theorem WorksOnStack.divideCalls {net : Net} {call : Computation × StackAssignment}
    (working needJob : List NetworkId) {c : Computation} (hc : c.WorksOnStack)
    (h : call ∈ divideCalls net working needJob c) : call.1.WorksOnStack := by
  induction working generalizing needJob c with
  | nil => simp [Computation.divideCalls] at h
  | cons w working ih =>
    cases needJob with
    | nil => simp [Computation.divideCalls] at h
    | cons id needJob =>
      rw [Computation.divideCalls] at h
      split at h
      · exact ih needJob hc h
      · cases List.mem_append.mp h with
        | inl h => exact hc.divideCall h
        | inr h => exact ih needJob (hc.onDivideWith net id) h

theorem WorksOnStack.assignmentCalls {c : Computation} {a : NodeAction}
    {call : Computation × StackAssignment} (hc : c.WorksOnStack)
    (h : call ∈ c.assignmentCalls a) : call.1.WorksOnStack := by
  cases a with
  | first net timeUp sync =>
    rw [Computation.assignmentCalls] at h
    split at h
    · rename_i table htable
      split at h
      · have hchecked := hc.checked net table
        cases List.mem_append.mp h with
        | inl h =>
          split at h
          · rw [List.mem_singleton.mp h]
            exact hchecked
          · cases h
        | inr h => exact (hchecked.giveDisconnectedJobs net _ _).divideCalls _ _ h
      · cases h
    · cases h
  | compute net => cases h
  | read net senderId msg =>
    cases msg with
    | stackAssignment assign resent =>
      rw [List.mem_singleton.mp h]
      exact hc
    | divideWith id => exact hc.divideCall h
    | assignmentFinished best | terminate => cases h

/-- On a node that is waiting for work or has not begun, nothing is left to explore; so
an assignment that is accepted overwrites nothing, unless the node has been terminated. -/
theorem assignment_overwrites_no_work {matrix : Matrix} {past : List NodeAction}
    {c : Computation} (h : runActions nodeStep (.new matrix) past = some c) :
    (c.state = .initial ∨ c.state = .waiting → c.stack = []) ∧
      (∀ a, ∀ call ∈ c.assignmentCalls a, call.1.state ≠ .finished →
        (call.1.stack : Multiset Path) ≤ (call.1.onAssignment a.net call.2).stack) ∧
      ∀ a t, c.nodeStep a = some t → c.StepsByCalls a t := by
  have hc : c.WorksOnStack := runActions_induction (P := fun _ c => c.WorksOnStack)
    (fun hwork => absurd rfl hwork) (fun past a t u ht hu => ht.nodeStep hu) h
  constructor
  · intro hidle
    by_contra hwork
    rcases hidle with hstate | hstate <;> simpa [hstate] using hc hwork
  refine ⟨?_, fun a t ht => nodeStep_calls ht⟩
  intro a call hcall hlive
  by_cases hstate : call.1.state = .computing
  · rw [stack, stack, (call.1.onAssignment_of_computing a.net call.2 hstate).1]
  · have hnil : call.1.stack = [] := by
      by_contra hwork
      exact (hc.assignmentCalls hcall hwork).elim hstate hlive
    rw [hnil]
    exact Multiset.zero_le _

/-- B waits for work, and reads some. -/
theorem assignment_overwrites_no_work_of_waiting :
    ∃ c, runActions nodeStep (new MaximumCut.edgeMatrix) [.first (netOfB false) false false] =
        some c ∧ c.state = .waiting ∧ c.stack = [] ∧
      ∃ call, c.assignmentCalls
          (.read (netOfB false) idA
            (.stackAssignment (.setAssignment .empty idB [[0], [1]]) false)) = [call] ∧
        call.1.state ≠ .finished ∧
          (call.1.stack : Multiset Path) ≤ (call.1.onAssignment (netOfB false) call.2).stack ∧
          ∀ t, c.nodeStep (.read (netOfB false) idA
              (.stackAssignment (.setAssignment .empty idB [[0], [1]]) false)) = some t →
            t = call.1.onAssignment (netOfB false) call.2 := by
  have hrun : runActions nodeStep (new MaximumCut.edgeMatrix)
      [.first (netOfB false) false false] =
    some { new MaximumCut.edgeMatrix with state := .waiting } := rfl
  obtain ⟨hempty, hkeeps, hcalls⟩ := assignment_overwrites_no_work hrun
  refine ⟨_, hrun, rfl, hempty (.inr rfl), (_, .setAssignment .empty idB [[0], [1]]), rfl,
    State.noConfusion, ?_, fun t ht => (hcalls _ t ht).calls (List.cons_ne_nil _ _)⟩
  exact hkeeps (.read (netOfB false) idA (.stackAssignment _ false)) _ (List.mem_singleton_self _)
    State.noConfusion

end Work

end Computation

end ParLib.Job
