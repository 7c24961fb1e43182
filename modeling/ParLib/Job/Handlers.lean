import ParLib.Job.Computation

/-!
# What the handlers do

The table is seen through `recorded`, the states it records for a client; a
missing entry counts as an empty one, and so does a missing table.
-/

namespace ParLib.Job

set_option autoImplicit false

open Foundations ParallelStack

namespace Net

theorem mem_sendMsg {net : Net} {msg : Message} {destId : NetworkId} {q : Send} :
    q ∈ net.sendMsg msg destId ↔ destId ∈ net.clients ∧ q = ⟨destId, msg⟩ := by
  rw [sendMsg]
  split <;> simp [*]

theorem mem_broadcastMsg {net : Net} {msg : Message} {q : Send} :
    q ∈ net.broadcastMsg msg ↔ q.destId ∈ net.clients ∧ q.msg = msg := by
  rw [broadcastMsg, List.mem_map]
  constructor
  · rintro ⟨client, hclient, rfl⟩
    exact ⟨hclient, rfl⟩
  · rintro ⟨hdest, rfl⟩
    exact ⟨q.destId, hdest, rfl⟩

theorem mem_knownClients {net : Net} {k : NetworkId} :
    k ∈ net.knownClients ↔ k ∈ net.clients ∨ k = net.networkId := by
  simp [knownClients]

end Net

namespace Computation

def recorded (c : Computation) (k : NetworkId) : List Path :=
  (c.currAssignment.getD .empty).getAssignment k

def Listed (c : Computation) (k : NetworkId) : Prop :=
  k ∈ (c.currAssignment.getD .empty).getClients

theorem listed_of_recorded {c : Computation} {k : NetworkId} (h : c.recorded k ≠ []) :
    c.Listed k :=
  not_not.mp fun hnot => h (StackAssignment.getAssignment_of_not_mem hnot)

def stack (c : Computation) : List Path := c.maximumCut.states.data

/-- The states popped since the last announcement. -/
def unannounced (c : Computation) : List Path := c.maximumCut.popped.drop c.announced

section Assignment

variable (c : Computation) (net : Net) (assign : StackAssignment)

@[simp]
theorem onAssignment_bestFound : (c.onAssignment net assign).bestFound = c.bestFound := by
  rw [onAssignment]
  split <;> rfl

@[simp]
theorem onAssignment_announced : (c.onAssignment net assign).announced = c.announced := by
  rw [onAssignment]
  split <;> rfl

theorem onAssignment_currAssignment : (c.onAssignment net assign).currAssignment = some
    (match c.currAssignment with
      | some table => table.update assign
      | none => c.readAssignment net assign) := by
  rw [onAssignment]
  split <;> rfl

theorem onAssignment_recorded (k : NetworkId) :
    (c.onAssignment net assign).recorded k = (assign.find? k).getD (c.recorded k) := by
  rw [recorded, onAssignment_currAssignment, Option.getD_some]
  cases hc : c.currAssignment with
  | some table =>
    rw [recorded, hc]
    exact StackAssignment.getAssignment_update ..
  | none =>
    have hread : (c.readAssignment net assign).getAssignment k = assign.getAssignment k := by
      rw [readAssignment]
      split
      · exact StackAssignment.getAssignment_touch ..
      · rfl
    rw [recorded, hc, hread]
    rfl

theorem onAssignment_listed {k : NetworkId} (h : (c.onAssignment net assign).Listed k) :
    k ∈ assign.getClients ∨ c.Listed k ∨ k = net.networkId := by
  rw [Listed, onAssignment_currAssignment, Option.getD_some] at h
  cases hc : c.currAssignment with
  | some table =>
    rw [hc] at h
    rw [Listed, hc]
    exact (StackAssignment.mem_getClients_update.mp h).imp_right .inl
  | none =>
    rw [hc] at h
    change k ∈ (c.readAssignment net assign).getClients at h
    rw [readAssignment] at h
    split at h
    · exact (StackAssignment.mem_getClients_touch h).elim (fun h => .inr (.inr h)) .inl
    · exact .inl h

theorem onAssignment_of_computing (h : c.state = .computing) :
    (c.onAssignment net assign).maximumCut = c.maximumCut ∧
      (c.onAssignment net assign).state = .computing := by
  rw [onAssignment, if_neg (by simp [h])]
  exact ⟨rfl, h⟩

theorem onAssignment_of_not_computing (h : c.state ≠ .computing) :
    (c.onAssignment net assign).maximumCut =
        c.maximumCut.assignData (assign.getAssignment net.networkId) ∧
      (c.onAssignment net assign).state =
        if assign.getAssignment net.networkId = [] then .waiting else .computing := by
  rw [onAssignment, if_pos h]
  refine ⟨rfl, ?_⟩
  cases hshare : assign.getAssignment net.networkId <;> simp

theorem onAssignment_state : (c.onAssignment net assign).state = .computing ∨
    (c.onAssignment net assign).state = .waiting := by
  by_cases h : c.state = .computing
  · exact .inl (c.onAssignment_of_computing net assign h).2
  · rw [(c.onAssignment_of_not_computing net assign h).2]
    split
    · exact .inr rfl
    · exact .inl rfl

theorem onAssignment_maximumCut : ∃ data, (c.onAssignment net assign).maximumCut =
    c.maximumCut.assignData data := by
  by_cases h : c.state = .computing
  · exact ⟨c.maximumCut.states.data, (c.onAssignment_of_computing net assign h).1⟩
  · exact ⟨_, (c.onAssignment_of_not_computing net assign h).1⟩

end Assignment

theorem onAssignmentFinished_eq_some {c c' : Computation} {best : Int32} {clientId : NetworkId}
    (h : c.onAssignmentFinished best clientId = some c') :
    (∀ k, c'.recorded k = if k = clientId then [] else c.recorded k) ∧
      (∀ k, c'.Listed k → k = clientId ∨ c.Listed k) ∧ c'.maximumCut = c.maximumCut ∧
      c'.state = c.state ∧ c'.announced = c.announced ∧
      c'.bestFound = if best > c.bestFound then best else c.bestFound := by
  rw [onAssignmentFinished] at h
  split at h
  · cases h
  · rename_i table htable
    cases h
    refine ⟨?_, ?_, rfl, rfl, rfl, rfl⟩
    · intro k
      rw [recorded, recorded, htable]
      exact StackAssignment.getAssignment_setAssignment ..
    · intro k hk
      rw [Listed, htable]
      exact StackAssignment.mem_getClients_setAssignment.mp hk

/-- The assignment that a node with the given stack sends when it divides. -/
def dividedAssignment (net : Net) (id : NetworkId) (data : List Path) : StackAssignment :=
  (StackAssignment.empty.setAssignment net.networkId (newDataB data)).setAssignment id
    (newDataA data)

theorem find?_dividedAssignment (net : Net) (id : NetworkId) (data : List Path) (k : NetworkId) :
    (dividedAssignment net id data).find? k = if k = id then some (newDataA data)
      else if k = net.networkId then some (newDataB data) else none := by
  rw [dividedAssignment, StackAssignment.find?_setAssignment, StackAssignment.find?_setAssignment]
  rfl

/-- The half that a division keeps is empty only if there is nothing to divide. -/
theorem size_keptHalf (c : Computation) :
    (⟨newDataB c.maximumCut.states.data⟩ : ParallelStack Path).size = 0 ↔ c.stack = [] := by
  rw [size, List.length_eq_zero_iff, newDataB_eq_nil_iff, stack]

theorem onDivideWith_of_nil {c : Computation} (net : Net) (id : NetworkId) (h : c.stack = []) :
    c.onDivideWith net id = (c, []) := by
  have hsize := (size_keptHalf c).mpr h
  simp only [onDivideWith, getParallelStacks_two, hsize, if_true]

theorem onDivideWith_of_ne_nil {c : Computation} (net : Net) (id : NetworkId) (h : c.stack ≠ []) :
    c.onDivideWith net id =
      ({ c with maximumCut := c.maximumCut.assignData (newDataB c.stack) }.onAssignment net
        (dividedAssignment net id c.stack),
        net.broadcastMsg (.stackAssignment (dividedAssignment net id c.stack) false)) := by
  have hsize := (size_keptHalf c).not.mpr h
  simp only [onDivideWith, getParallelStacks_two, hsize, if_false]
  rfl

/-- A division keeps every other state of the stack, and records and sends both halves. -/
theorem onDivideWith_spec {c : Computation} {net : Net} {id : NetworkId}
    (hid : id ≠ net.networkId) (hwork : c.stack ≠ []) :
    ∃ c', c.onDivideWith net id =
        (c', net.broadcastMsg (.stackAssignment (dividedAssignment net id c.stack) false)) ∧
      c'.state = .computing ∧ c'.maximumCut = c.maximumCut.assignData (newDataB c.stack) ∧
      c'.bestFound = c.bestFound ∧ c'.announced = c.announced ∧
      (∀ k, c'.recorded k = ((dividedAssignment net id c.stack).find? k).getD (c.recorded k)) ∧
      ∀ k, c'.Listed k → ((dividedAssignment net id c.stack).find? k).isSome = true ∨
        c.Listed k := by
  refine ⟨_, onDivideWith_of_ne_nil net id hwork, ?_⟩
  generalize hc : { c with maximumCut := c.maximumCut.assignData (newDataB c.stack) } = c₀
  generalize hassign : dividedAssignment net id c.stack = assign
  have hown : assign.find? net.networkId = some (newDataB c.stack) := by
    rw [← hassign, find?_dividedAssignment, if_neg hid.symm, if_pos rfl]
  have hshare : assign.getAssignment net.networkId = newDataB c.stack := by
    rw [StackAssignment.getAssignment, hown, Option.getD_some]
  have hkept : newDataB c.stack ≠ [] := fun hnil => hwork ((newDataB_eq_nil_iff _).mp hnil)
  have hcut : (c₀.onAssignment net assign).maximumCut =
      c.maximumCut.assignData (newDataB c.stack) ∧
      (c₀.onAssignment net assign).state = .computing := by
    by_cases hstate : c₀.state = .computing
    · obtain ⟨hsame, hcomputing⟩ := c₀.onAssignment_of_computing net assign hstate
      refine ⟨?_, hcomputing⟩
      rw [hsame, ← hc]
    · obtain ⟨hnew, hcomputing⟩ := c₀.onAssignment_of_not_computing net assign hstate
      rw [hnew, hcomputing, hshare, if_neg hkept, ← hc]
      exact ⟨rfl, rfl⟩
  refine ⟨hcut.2, hcut.1, ?_, ?_, ?_, ?_⟩
  · rw [onAssignment_bestFound, ← hc]
  · rw [onAssignment_announced, ← hc]
  · intro k
    rw [onAssignment_recorded, ← hc]
    rfl
  · intro k hk
    rw [← StackAssignment.mem_getClients]
    rcases onAssignment_listed _ _ _ hk with hk | hk | rfl
    · exact .inl hk
    · exact .inr (by rwa [← hc] at hk)
    · exact .inl (StackAssignment.mem_getClients.mpr (by rw [hown]; rfl))

theorem onDivideWith_state {c : Computation} {net : Net} {id : NetworkId}
    (hid : id ≠ net.networkId) :
    (c.onDivideWith net id).1.state = c.state ∨
      (c.onDivideWith net id).1.state = .computing := by
  cases eq_or_ne c.stack [] with
  | inl hnil =>
    rw [onDivideWith_of_nil net id hnil]
    exact .inl rfl
  | inr hwork =>
    obtain ⟨c', heq, hstate, -⟩ := onDivideWith_spec hid hwork
    rw [heq]
    exact .inr hstate

theorem onAssignment_started (c : Computation) (net : Net) (assign : StackAssignment) :
    (c.onAssignment net assign).state ≠ .initial := by
  rcases c.onAssignment_state net assign with hstate | hstate <;> simp [hstate]

theorem onDivideWith_started {c : Computation} (net : Net) (id : NetworkId)
    (h : c.state ≠ .initial) : (c.onDivideWith net id).1.state ≠ .initial := by
  cases eq_or_ne c.stack [] with
  | inl hnil => rwa [onDivideWith_of_nil net id hnil]
  | inr hwork =>
    rw [onDivideWith_of_ne_nil net id hwork]
    exact onAssignment_started _ net _

theorem onDivideWith_sent {c : Computation} {net : Net} {id : NetworkId} {q : Send}
    (hq : q ∈ (c.onDivideWith net id).2) : q.destId ∈ net.clients ∧
      q.msg = .stackAssignment (dividedAssignment net id c.stack) false := by
  cases eq_or_ne c.stack [] with
  | inl hnil =>
    rw [onDivideWith_of_nil net id hnil] at hq
    cases hq
  | inr hwork =>
    rw [onDivideWith_of_ne_nil net id hwork] at hq
    exact Net.mem_broadcastMsg.mp hq

theorem onDivideWith_keeps (c : Computation) {net : Net} {id : NetworkId}
    (hid : id ≠ net.networkId) :
    (∃ data, (c.onDivideWith net id).1.maximumCut = c.maximumCut.assignData data) ∧
      (c.onDivideWith net id).1.bestFound = c.bestFound ∧
      (c.onDivideWith net id).1.announced = c.announced := by
  cases eq_or_ne c.stack [] with
  | inl hnil =>
    rw [onDivideWith_of_nil net id hnil]
    exact ⟨⟨c.maximumCut.states.data, rfl⟩, rfl, rfl⟩
  | inr hwork =>
    obtain ⟨c', heq, -, hcut, hbest, hannounced, -⟩ := onDivideWith_spec hid hwork
    rw [heq]
    exact ⟨⟨_, hcut⟩, hbest, hannounced⟩

/-- One compute step explores; it may also announce the end of a job. -/
theorem computeStep_eq_some {c : Computation} {net : Net} {r : Computation × List Send}
    (h : c.computeStep net = some r) :
    ∃ mc ps, MaximumCut.Explored c.maximumCut mc ps ∧
      (r = ({ c with maximumCut := mc }, []) ∨
        (c.state = .computing ∧ mc.states.data = [] ∧
          r.2 = net.broadcastMsg (.assignmentFinished mc.getBestMax) ∧ r.1.maximumCut = mc ∧
          r.1.state = .waiting ∧ r.1.announced = mc.popped.length ∧
          (r.1.bestFound = if mc.getBestMax > c.bestFound then mc.getBestMax else c.bestFound) ∧
          (∀ k, r.1.recorded k = if k = net.networkId then [] else c.recorded k) ∧
          ∀ k, r.1.Listed k → k = net.networkId ∨ c.Listed k)) := by
  rw [computeStep] at h
  split at h
  · cases h
  · rename_i done mc hcompute
    obtain ⟨ps, hexplored, hdone, -⟩ := MaximumCut.compute_explored hcompute
    refine ⟨mc, ps, hexplored, ?_⟩
    dsimp only at h
    split at h
    · rename_i hfinish
      obtain ⟨c', hc', rfl⟩ := Option.map_eq_some_iff.mp h
      obtain ⟨hrecorded, hlisted, hmc, -, -, hbest⟩ := onAssignmentFinished_eq_some hc'
      exact .inr ⟨hfinish.2, hdone hfinish.1, rfl, hmc, rfl, rfl, hbest, hrecorded, hlisted⟩
    · cases h
      exact .inl rfl

end Computation

end ParLib.Job
