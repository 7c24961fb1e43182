import ParLib.PathSearch
import ParLib.Job.NodeRuns

/-!
# Every handler keeps to the paths of the graph

Search states are made by the search alone: all the handlers do is to divide,
copy and merge lists of them.
-/

namespace ParLib

set_option autoImplicit false

open Foundations ParallelStack

namespace MaximumCut

theorem isSimplePath_populateStates {mc : MaximumCut}
    (h : ∀ p ∈ mc.states.data, mc.matrix.IsSimplePath p) :
    ∀ p ∈ mc.populateStates.states.data, mc.matrix.IsSimplePath p := by
  intro p hp
  rw [populateStates_data, List.mem_append, List.mem_map] at hp
  rcases hp with hp | ⟨v, hv, rfl⟩
  · exact h p hp
  · exact Matrix.isSimplePath_singleton.mpr (List.mem_range.mp hv)

/-- The search turns paths into longer paths. -/
theorem Explored.isSimplePath {mc mc' : MaximumCut} {ps : List Path}
    (hexplored : Explored mc mc' ps)
    (h : ∀ p ∈ mc.states.data, mc.matrix.IsSimplePath p) :
    (∀ p ∈ ps, mc.matrix.IsSimplePath p) ∧ ∀ p ∈ mc'.states.data, mc.matrix.IsSimplePath p := by
  have hforest : ∀ p ∈ mc.matrix.searchTree.forest (mc.states.data : Multiset Path),
      mc.matrix.IsSimplePath p := by
    intro p hp
    obtain ⟨s, hs, hbelow⟩ := (SearchTree.mem_forest _).mp hp
    exact Matrix.isSimplePath_of_below (h s hs) ((SearchTree.mem_descendants_iff _ s p).mp hbelow)
  rw [hexplored.forest] at hforest
  constructor
  · exact fun p hp => hforest p (Multiset.mem_add.mpr (.inl hp))
  · intro p hp
    apply hforest p (Multiset.mem_add.mpr (.inr _))
    exact (SearchTree.mem_forest _).mpr ⟨p, hp, SearchTree.self_mem_descendants _ p⟩

end MaximumCut

namespace Job

namespace StackAssignment

/-- Every state that the table names is a path. -/
def OnPaths (M : Matrix) (a : StackAssignment) : Prop :=
  ∀ k, ∀ p ∈ a.getAssignment k, M.IsSimplePath p

variable {M : Matrix} {a assign : StackAssignment} {client : NetworkId}

theorem onPaths_empty : empty.OnPaths M := by
  intro k p hp
  cases hp

theorem OnPaths.setAssignment (h : a.OnPaths M) {states : List Path}
    (hstates : ∀ p ∈ states, M.IsSimplePath p) : (a.setAssignment client states).OnPaths M := by
  intro k p hp
  rw [getAssignment_setAssignment] at hp
  split at hp
  · exact hstates p hp
  · exact h k p hp

theorem OnPaths.touch (h : a.OnPaths M) : (a.touch client).OnPaths M := by
  intro k p hp
  rw [getAssignment_touch] at hp
  exact h k p hp

theorem OnPaths.update (h : a.OnPaths M) (hassign : assign.OnPaths M) :
    (a.update assign).OnPaths M := by
  intro k p hp
  rw [getAssignment_update] at hp
  cases hk : assign.find? k with
  | none =>
    rw [hk] at hp
    exact h k p hp
  | some states =>
    rw [hk] at hp
    apply hassign k p
    rw [getAssignment, hk]
    exact hp

end StackAssignment

def Message.OnPaths (M : Matrix) : Message → Prop
  | .stackAssignment assign _ => assign.OnPaths M
  | .assignmentFinished _ | .terminate | .divideWith _ => True

namespace Computation

/-- A node that has loaded `M` holds paths of `M`: on its stack, in its table, and among
the states that it has popped. -/
structure OnPaths (M : Matrix) (c : Computation) : Prop where
  matrix : c.maximumCut.matrix = M
  stack : ∀ p ∈ c.stack, M.IsSimplePath p
  popped : ∀ p ∈ c.maximumCut.popped, M.IsSimplePath p
  table : ∀ table ∈ c.currAssignment, table.OnPaths M

variable {M : Matrix} {c : Computation} {net : Net}

theorem onPaths_new (M : Matrix) : (new M).OnPaths M where
  matrix := rfl
  stack := by simp [Computation.stack, new, MaximumCut.new]
  popped := by simp [new, MaximumCut.new]
  table := by simp [new]

theorem OnPaths.assignData (h : c.OnPaths M) {data : List Path}
    (hdata : ∀ p ∈ data, M.IsSimplePath p) :
    { c with maximumCut := c.maximumCut.assignData data }.OnPaths M where
  matrix := h.matrix
  stack := hdata
  popped := h.popped
  table := h.table

theorem OnPaths.setTable (h : c.OnPaths M) {table : StackAssignment} (htable : table.OnPaths M)
    (state : State) : { c with currAssignment := some table, state := state }.OnPaths M where
  matrix := h.matrix
  stack := h.stack
  popped := h.popped
  table := by
    rintro _ ⟨⟩
    exact htable

theorem OnPaths.readAssignment {assign : StackAssignment} (c : Computation) (net : Net)
    (hassign : assign.OnPaths M) : (c.readAssignment net assign).OnPaths M := by
  rw [Computation.readAssignment]
  split
  · exact hassign.touch
  · exact hassign

theorem OnPaths.onAssignment (h : c.OnPaths M) {assign : StackAssignment}
    (hassign : assign.OnPaths M) : (c.onAssignment net assign).OnPaths M := by
  have htable : ∀ table ∈ (c.onAssignment net assign).currAssignment, table.OnPaths M := by
    rw [onAssignment_currAssignment]
    rintro _ ⟨⟩
    split
    · rename_i table htable
      exact (h.table table htable).update hassign
    · exact readAssignment c net hassign
  by_cases hstate : c.state = .computing
  · obtain ⟨hcut, -⟩ := c.onAssignment_of_computing net assign hstate
    refine ⟨?_, ?_, ?_, htable⟩
    · rw [hcut]
      exact h.matrix
    · rw [Computation.stack, hcut]
      exact h.stack
    · rw [hcut]
      exact h.popped
  · obtain ⟨hcut, -⟩ := c.onAssignment_of_not_computing net assign hstate
    refine ⟨?_, ?_, ?_, htable⟩
    · rw [hcut]
      exact h.matrix
    · rw [Computation.stack, hcut]
      exact hassign net.networkId
    · rw [hcut]
      exact h.popped

theorem OnPaths.onAssignmentFinished (h : c.OnPaths M) {c' : Computation} {best : Int32}
    {clientId : NetworkId} (hc' : c.onAssignmentFinished best clientId = some c') :
    c'.OnPaths M := by
  rw [Computation.onAssignmentFinished] at hc'
  split at hc'
  · cases hc'
  · rename_i table htable
    cases hc'
    refine ⟨h.matrix, h.stack, h.popped, ?_⟩
    rintro _ ⟨⟩
    exact (h.table table htable).setAssignment (by simp)

theorem onPaths_dividedAssignment {data : List Path} (net : Net) (id : NetworkId)
    (hdata : ∀ p ∈ data, M.IsSimplePath p) : (dividedAssignment net id data).OnPaths M := by
  apply (StackAssignment.onPaths_empty.setAssignment _).setAssignment
  · exact fun p hp => hdata p (mem_newDataA_or_newDataB.mp (.inr hp))
  · exact fun p hp => hdata p (mem_newDataA_or_newDataB.mp (.inl hp))

theorem OnPaths.onDivideWith (h : c.OnPaths M) (net : Net) (id : NetworkId) :
    (c.onDivideWith net id).1.OnPaths M ∧ ∀ q ∈ (c.onDivideWith net id).2, q.msg.OnPaths M := by
  have hassign := onPaths_dividedAssignment net id h.stack
  cases eq_or_ne c.stack [] with
  | inl hnil =>
    rw [onDivideWith_of_nil net id hnil]
    exact ⟨h, by simp⟩
  | inr hwork =>
    rw [onDivideWith_of_ne_nil net id hwork]
    constructor
    · apply (h.assignData _).onAssignment hassign
      exact fun p hp => h.stack p (mem_newDataA_or_newDataB.mp (.inl hp))
    · intro q hq
      rw [(Net.mem_broadcastMsg.mp hq).2]
      exact hassign

theorem OnPaths.explored (h : c.OnPaths M) {mc : MaximumCut} {ps : List Path}
    (hexplored : MaximumCut.Explored c.maximumCut mc ps) :
    { c with maximumCut := mc }.OnPaths M := by
  have hstack := h.stack
  rw [← h.matrix] at hstack
  obtain ⟨hpopped, hleft⟩ := hexplored.isSimplePath hstack
  rw [h.matrix] at hpopped hleft
  refine ⟨hexplored.matrix.trans h.matrix, hleft, ?_, h.table⟩
  rw [hexplored.popped]
  intro p hp
  cases List.mem_append.mp hp with
  | inl hp => exact h.popped p hp
  | inr hp => exact hpopped p hp

theorem OnPaths.computeStep (h : c.OnPaths M) {r : Computation × List Send}
    (hr : c.computeStep net = some r) : r.1.OnPaths M ∧ ∀ q ∈ r.2, q.msg.OnPaths M := by
  rw [Computation.computeStep] at hr
  split at hr
  · cases hr
  · rename_i done mc hcompute
    obtain ⟨ps, hexplored, -⟩ := MaximumCut.compute_explored hcompute
    have hmc := h.explored hexplored
    dsimp only at hr
    split at hr
    · obtain ⟨c', hc', rfl⟩ := Option.map_eq_some_iff.mp hr
      obtain ⟨hmatrix, hstack, hpopped, htable⟩ := hmc.onAssignmentFinished hc'
      refine ⟨⟨hmatrix, hstack, hpopped, htable⟩, ?_⟩
      intro q hq
      rw [(Net.mem_broadcastMsg.mp hq).2]
      trivial
    · cases hr
      exact ⟨hmc, by simp⟩

theorem OnPaths.computeSteps (n : Nat) (h : c.OnPaths M) {r : Computation × List Send}
    (hr : computeSteps net n c = some r) : r.1.OnPaths M ∧ ∀ q ∈ r.2, q.msg.OnPaths M := by
  induction n generalizing c r with
  | zero =>
    cases hr
    exact ⟨h, by simp⟩
  | succ n ih =>
    rw [Computation.computeSteps] at hr
    obtain ⟨first, hfirst, hr⟩ := Option.bind_eq_some_iff.mp hr
    obtain ⟨rest, hrest, ⟨⟩⟩ := Option.bind_eq_some_iff.mp hr
    obtain ⟨h, hsent⟩ := h.computeStep hfirst
    obtain ⟨h, hlater⟩ := ih h hrest
    refine ⟨h, ?_⟩
    intro q hq
    cases List.mem_append.mp hq with
    | inl hq => exact hsent q hq
    | inr hq => exact hlater q hq

theorem onPaths_assignStacks (clients : List NetworkId) {pars : List (ParallelStack Path)}
    (hpars : ∀ s ∈ pars, ∀ p ∈ s.data, M.IsSimplePath p) :
    (assignStacks clients pars).OnPaths M := by
  have hfold : ∀ (entries : List (NetworkId × ParallelStack Path)) (assign : StackAssignment),
      (∀ e ∈ entries, ∀ p ∈ e.2.data, M.IsSimplePath p) → assign.OnPaths M →
      (entries.foldl (fun assign e => assign.setAssignment e.1 e.2.data) assign).OnPaths M := by
    intro entries
    induction entries with
    | nil => exact fun _ _ hassign => hassign
    | cons e entries ih =>
      intro assign hentries hassign
      apply ih
      · exact fun e' he' => hentries e' (List.mem_cons_of_mem e he')
      · exact hassign.setAssignment (hentries e List.mem_cons_self)
  apply hfold _ _ _ StackAssignment.onPaths_empty
  exact fun e he => hpars e.2 (List.of_mem_zip he).2

theorem OnPaths.initLeaderStep (h : c.OnPaths M) {r : Computation × List Send}
    (hr : c.initLeaderStep net = some r) : r.1.OnPaths M ∧ ∀ q ∈ r.2, q.msg.OnPaths M := by
  rw [Computation.initLeaderStep] at hr
  obtain ⟨searched, hsearched, hr⟩ := Option.bind_eq_some_iff.mp hr
  have hpopulated : { c with maximumCut := c.maximumCut.populateStates }.OnPaths M := by
    refine ⟨h.matrix, ?_, h.popped, h.table⟩
    have hstack := h.stack
    rw [← h.matrix] at hstack
    have hstack' := MaximumCut.isSimplePath_populateStates hstack
    rwa [h.matrix] at hstack'
  obtain ⟨hc, hsent⟩ := hpopulated.computeSteps 5 hsearched
  dsimp only at hr
  split at hr
  · cases hr
  · cases hr
    have hassign : (assignStacks net.knownClients (getParallelStacks
        searched.1.maximumCut.states.data net.knownClients.length)).OnPaths M := by
      apply onPaths_assignStacks
      exact fun s hs p hp => hc.stack p (mem_getParallelStacks.mp ⟨s, hs, hp⟩)
    refine ⟨hc.onAssignment hassign, ?_⟩
    intro q hq
    cases List.mem_append.mp hq with
    | inl hq => exact hsent q hq
    | inr hq =>
      obtain ⟨client, -, hq⟩ := List.mem_flatMap.mp hq
      rw [(Net.mem_sendMsg.mp hq).2]
      exact OnPaths.readAssignment searched.1 net hassign

theorem onPaths_settledTable {table : StackAssignment} (net : Net) (h : table.OnPaths M) :
    (ClientSets.settledTable net table).OnPaths M := by
  intro k
  rw [ClientSets.getAssignment_settledTable]
  exact h k

theorem onPaths_giveJobs {table : StackAssignment} (htable : table.OnPaths M)
    (disconnected needJob : List NetworkId) {newAssignments : StackAssignment}
    (h : newAssignments.OnPaths M) :
    (giveJobs table disconnected needJob newAssignments).OnPaths M := by
  induction disconnected generalizing needJob newAssignments with
  | nil => simpa only [giveJobs] using h
  | cons givenJobFrom disconnected ih =>
    cases needJob with
    | nil => simpa only [giveJobs] using h
    | cons givenJobTo needJob =>
      rw [giveJobs]
      apply ih
      exact (h.setAssignment (htable givenJobFrom)).setAssignment (by simp)

theorem OnPaths.giveDisconnectedJobs (h : c.OnPaths M) (net : Net) {table : StackAssignment}
    (htable : table.OnPaths M) (sets : ClientSets) :
    (c.giveDisconnectedJobs net table sets).1.OnPaths M ∧
      ∀ q ∈ (c.giveDisconnectedJobs net table sets).2, q.msg.OnPaths M := by
  have hassign := onPaths_giveJobs htable sets.disconnected.elems sets.needJob.elems
    StackAssignment.onPaths_empty
  rw [Computation.giveDisconnectedJobs]
  split
  · refine ⟨h.onAssignment hassign, ?_⟩
    intro q hq
    rw [(Net.mem_broadcastMsg.mp hq).2]
    exact OnPaths.readAssignment c net hassign
  · exact ⟨h, by simp⟩

theorem OnPaths.divideJobs (h : c.OnPaths M) (net : Net) (working needJob : List NetworkId) :
    (divideJobs net working needJob c).1.OnPaths M ∧
      ∀ q ∈ (divideJobs net working needJob c).2, q.msg.OnPaths M := by
  induction working generalizing needJob c with
  | nil => simpa [Computation.divideJobs] using h
  | cons w working ih =>
    cases needJob with
    | nil => simpa [Computation.divideJobs] using h
    | cons id needJob =>
      rw [Computation.divideJobs]
      split
      · obtain ⟨h, hsent⟩ := ih h needJob
        refine ⟨h, ?_⟩
        intro q hq
        cases List.mem_append.mp hq with
        | inl hq =>
          rw [(Net.mem_sendMsg.mp hq).2]
          trivial
        | inr hq => exact hsent q hq
      · obtain ⟨hdivided, hown⟩ := h.onDivideWith net id
        obtain ⟨h, hsent⟩ := ih hdivided needJob
        refine ⟨h, ?_⟩
        intro q hq
        cases List.mem_append.mp hq with
        | inl hq => exact hown q hq
        | inr hq => exact hsent q hq

theorem onPaths_of_notice {table : StackAssignment} (h : table.OnPaths M) {sync : Bool} {q : Send}
    (hq : Notice net table sync q) : q.msg.OnPaths M := by
  rcases hq with ⟨-, ⟨repeated, hmsg, hsub, -⟩ | ⟨hmsg, -⟩⟩ | ⟨-, id, hmsg, -⟩
  · rw [hmsg]
    intro k p hp
    apply h k p
    rw [StackAssignment.getAssignment] at hp ⊢
    cases hk : repeated.find? k with
    | none =>
      rw [hk] at hp
      cases hp
    | some states =>
      rw [hsub k states hk]
      rwa [hk] at hp
  · rw [hmsg]
    trivial
  · rw [hmsg]
    trivial

theorem OnPaths.checkTable (h : c.OnPaths M) {table : StackAssignment} (htable : table.OnPaths M)
    (sync : Bool) : (c.checkTable net table sync).1.OnPaths M ∧
      ∀ q ∈ (c.checkTable net table sync).2, q.msg.OnPaths M := by
  have hsettled := onPaths_settledTable net htable
  have hchecked : (c.checked net table).OnPaths M := h.setTable hsettled _
  obtain ⟨hgave, hgiven⟩ := hchecked.giveDisconnectedJobs net hsettled
    (ClientSets.settled net table)
  obtain ⟨hasked, hrequests⟩ := hgave.divideJobs net
    (ClientSets.settled net table).working.elems
    ((ClientSets.settled net table).needJob.elems.drop
      (ClientSets.settled net table).disconnected.size)
  rw [checkTable_eq]
  refine ⟨hasked, ?_⟩
  intro q hq
  rcases List.mem_append.mp hq with hq | hq
  · rcases List.mem_append.mp hq with hq | hq
    · exact onPaths_of_notice htable (firstSent_notice sync q hq)
    · exact hgiven q hq
  · exact hrequests q hq

theorem OnPaths.clearDisconnected (h : c.OnPaths M) (net : Net) (timeUp : Bool) :
    (c.clearDisconnected net timeUp).OnPaths M := by
  rw [Computation.clearDisconnected]
  split
  · cases htable : c.currAssignment with
    | none => exact h
    | some table => exact h.setTable (onPaths_settledTable net (h.table table htable)) c.state
  · exact h

theorem OnPaths.setState (h : c.OnPaths M) (state : State) :
    { c with state := state }.OnPaths M := ⟨h.matrix, h.stack, h.popped, h.table⟩

theorem OnPaths.firstStep (h : c.OnPaths M) {timeUp sync : Bool} {r : Computation × List Send}
    (hr : c.firstStep net timeUp sync = some r) : r.1.OnPaths M ∧ ∀ q ∈ r.2, q.msg.OnPaths M := by
  rw [Computation.firstStep] at hr
  split at hr
  · have hcheck : c.checkAssignments net timeUp sync = some r →
        r.1.OnPaths M ∧ ∀ q ∈ r.2, q.msg.OnPaths M := by
      intro hr
      rw [checkAssignments] at hr
      split at hr
      · split at hr
        · cases hr
        · rename_i table htable
          cases hr
          exact h.checkTable (h.table table htable) sync
      · cases hr
        exact ⟨h, by simp⟩
    rw [leaderStep] at hr
    cases hstate : c.state with
    | initial =>
      rw [hstate] at hr
      exact (h.setState .waiting).initLeaderStep hr
    | computing | waiting =>
      rw [hstate] at hr
      exact hcheck hr
    | terminating | finished =>
      rw [hstate] at hr
      cases hr
      exact ⟨h, by simp⟩
  · cases hr
    refine ⟨?_, by simp⟩
    rw [nonLeaderStep]
    split
    · exact (h.setState .waiting).clearDisconnected net timeUp
    · exact h.clearDisconnected net timeUp

theorem OnPaths.onMessage (h : c.OnPaths M) {senderId : NetworkId} {msg : Message}
    (hmsg : msg.OnPaths M) {r : Computation × List Send}
    (hr : c.onMessage net senderId msg = some r) :
    r.1.OnPaths M ∧ ∀ q ∈ r.2, q.msg.OnPaths M := by
  cases msg with
  | stackAssignment assign resent =>
    cases hr
    exact ⟨h.onAssignment hmsg, by simp⟩
  | assignmentFinished best =>
    obtain ⟨c', hc', rfl⟩ := Option.map_eq_some_iff.mp hr
    exact ⟨h.onAssignmentFinished hc', by simp⟩
  | terminate =>
    cases hr
    exact ⟨h.setState .finished, by simp⟩
  | divideWith id =>
    cases hr
    exact h.onDivideWith net id

end Computation

end Job

end ParLib
