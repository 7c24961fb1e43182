import ParLib.Foundations.OrdSet
import ParLib.Job.StackAssignment

/-!
# One node of the computation

`none` stands for the end of the process: a null table that is dereferenced,
an empty matrix, a failed division. The clock and `rand` are inputs: `timeUp`
says that 150 ms have passed since the last check, `sync` that the leader
repeats its table. Two things are kept for the history alone and read by no
function: `announced` counts the states popped before the last announcement,
and `resent` marks an assignment that repeats the leader's table.
-/

namespace ParLib.Job

set_option autoImplicit false

open Foundations ParallelStack

inductive Message
  | stackAssignment (assign : StackAssignment) (resent : Bool)
  | assignmentFinished (best : Int32)
  | terminate
  | divideWith (id : NetworkId)

structure Send where
  destId : NetworkId
  msg : Message

/-- What a node asks of its `NetworkManager`. -/
structure Net where
  networkId : NetworkId
  clients : List NetworkId
  leader : Bool

namespace Net

def sendMsg (net : Net) (msg : Message) (destId : NetworkId) : List Send :=
  if destId ∈ net.clients then [⟨destId, msg⟩] else []

def broadcastMsg (net : Net) (msg : Message) : List Send :=
  net.clients.map fun client => ⟨client, msg⟩

def knownClients (net : Net) : List NetworkId := net.clients ++ [net.networkId]

end Net

inductive State
  | initial
  | computing
  | waiting
  | terminating
  | finished
  deriving DecidableEq, Repr

structure Computation where
  maximumCut : MaximumCut
  currAssignment : Option StackAssignment
  state : State
  bestFound : Int32
  announced : Nat

namespace Computation

def new (matrix : Matrix) : Computation where
  maximumCut := .new matrix
  currAssignment := none
  state := .initial
  bestFound := 0
  announced := 0

/-- The assignment after `OnAssignment` has looked up the node's own share in it. -/
def readAssignment (c : Computation) (net : Net) (assign : StackAssignment) : StackAssignment :=
  if c.state ≠ .computing then assign.touch net.networkId else assign

def onAssignment (c : Computation) (net : Net) (assign : StackAssignment) : Computation :=
  let currAssignment := match c.currAssignment with
    | some table => table.update assign
    | none => c.readAssignment net assign
  if c.state ≠ .computing then
    let share := assign.getAssignment net.networkId
    { c with
      currAssignment := some currAssignment
      maximumCut := c.maximumCut.assignData share
      state := if share.length > 0 then .computing else .waiting }
  else { c with currAssignment := some currAssignment }

def onAssignmentFinished (c : Computation) (best : Int32) (clientId : NetworkId) :
    Option Computation :=
  match c.currAssignment with
  | none => none
  | some table => some { c with
      bestFound := if best > c.bestFound then best else c.bestFound
      currAssignment := some (table.setAssignment clientId []) }

def onTerminate (c : Computation) : Computation := { c with state := .finished }

def onDivideWith (c : Computation) (net : Net) (id : NetworkId) : Computation × List Send :=
  match getParallelStacks c.maximumCut.states.data 2 with
  | [kept, given] =>
    if kept.size = 0 then (c, [])
    else
      let assign := (StackAssignment.empty.setAssignment net.networkId kept.data).setAssignment
        id given.data
      ({ c with maximumCut := c.maximumCut.assignData kept.data }.onAssignment net assign,
        net.broadcastMsg (.stackAssignment assign false))
  | _ => (c, [])

def computeStep (c : Computation) (net : Net) : Option (Computation × List Send) :=
  match c.maximumCut.compute with
  | none => none
  | some (done, mc) =>
    let c := { c with maximumCut := mc }
    if done = true ∧ c.state = .computing then
      (c.onAssignmentFinished mc.getBestMax net.networkId).map fun c =>
        ({ c with state := .waiting, announced := mc.popped.length },
          net.broadcastMsg (.assignmentFinished mc.getBestMax))
    else some (c, [])

/-- The `for` loop of `InitLeaderStep` over its compute steps. -/
def computeSteps (net : Net) : Nat → Computation → Option (Computation × List Send)
  | 0, c => some (c, [])
  | n + 1, c => do
    let (c, sent) ← c.computeStep net
    let (c, later) ← computeSteps net n c
    return (c, sent ++ later)

/-- The table that gives the i-th client the i-th stack. -/
def assignStacks (clients : List NetworkId) (pars : List (ParallelStack Path)) :
    StackAssignment :=
  (clients.zip pars).foldl (fun assign e => assign.setAssignment e.1 e.2.data) .empty

def initLeaderStep (c : Computation) (net : Net) : Option (Computation × List Send) := do
  let c := { c with maximumCut := c.maximumCut.populateStates }
  let clients := net.knownClients
  let (c, sent) ← computeSteps net 5 c
  let pars := getParallelStacks c.maximumCut.states.data clients.length
  if pars.length ≠ clients.length then none
  else
    let assign := assignStacks clients pars
    let msg := .stackAssignment (c.readAssignment net assign) false
    return (c.onAssignment net assign, sent ++ clients.flatMap (net.sendMsg msg))

/-- The sets that `CheckAssignments` fills before it acts on them. -/
structure ClientSets where
  known : OrdSet NetworkId
  new : OrdSet NetworkId
  disconnected : OrdSet NetworkId
  finished : OrdSet NetworkId

namespace ClientSets

def fill (net : Net) (table : StackAssignment) : ClientSets :=
  let assigned := OrdSet.empty.insertAll table.getClients
  let known := OrdSet.empty.insertAll net.knownClients
  { known := known
    new := known.diff assigned
    disconnected := assigned.diff known
    finished := assigned.filter fun client => (table.getAssignment client).length = 0 }

def cleared (sets : ClientSets) (table : StackAssignment) : List NetworkId :=
  sets.disconnected.elems.filter fun client => (table.getAssignment client).length = 0

def clearDisconnected (sets : ClientSets) (table : StackAssignment) : ClientSets :=
  { sets with
    disconnected := sets.disconnected.eraseAll (sets.cleared table)
    finished := sets.finished.eraseAll (sets.cleared table) }

def settled (net : Net) (table : StackAssignment) : ClientSets :=
  (fill net table).clearDisconnected table

/-- The table after "Clear disconnected clients with no jobs". -/
def settledTable (net : Net) (table : StackAssignment) : StackAssignment :=
  ((fill net table).cleared table).foldl StackAssignment.remove table

def needJob (sets : ClientSets) : OrdSet NetworkId := sets.new.insertAll sets.finished.elems

def working (sets : ClientSets) : OrdSet NetworkId := sets.known.eraseAll sets.needJob.elems

def noJobsLeft (sets : ClientSets) : Bool :=
  sets.finished.size + sets.new.size = sets.known.size ∧ sets.disconnected.size = 0

end ClientSets

/-- The loop that moves the jobs of disconnected clients to those that need one. -/
def giveJobs (table : StackAssignment) : List NetworkId → List NetworkId → StackAssignment →
    StackAssignment
  | givenJobFrom :: disconnected, givenJobTo :: needJob, newAssignments =>
    giveJobs table disconnected needJob
      ((newAssignments.setAssignment givenJobTo (table.getAssignment givenJobFrom)).setAssignment
        givenJobFrom [])
  | _, _, newAssignments => newAssignments

/-- "Give jobs from disconnected clients". -/
def giveDisconnectedJobs (c : Computation) (net : Net) (table : StackAssignment)
    (sets : ClientSets) : Computation × List Send :=
  if min sets.disconnected.size sets.needJob.size > 0 then
    let newAssignments := giveJobs table sets.disconnected.elems sets.needJob.elems .empty
    (c.onAssignment net newAssignments,
      net.broadcastMsg (.stackAssignment (c.readAssignment net newAssignments) false))
  else (c, [])

/-- The loop that asks each working client to divide with one that needs a job. -/
def divideJobs (net : Net) : List NetworkId → List NetworkId → Computation →
    Computation × List Send
  | workingClient :: working, needsJob :: needJob, c =>
    if workingClient ≠ net.networkId then
      let r := divideJobs net working needJob c
      (r.1, net.sendMsg (.divideWith needsJob) workingClient ++ r.2)
    else
      let r := divideJobs net working needJob (c.onDivideWith net needsJob).1
      (r.1, (c.onDivideWith net needsJob).2 ++ r.2)
  | _, _, c => (c, [])

/-- `CheckAssignments` once its table is known to exist. -/
def checkTable (c : Computation) (net : Net) (table : StackAssignment) (sync : Bool) :
    Computation × List Send :=
  let sets := ClientSets.settled net table
  let table := ClientSets.settledTable net table
  let c := { c with currAssignment := some table }
  let msg := .stackAssignment table true
  let synced := if sync then net.broadcastMsg msg else []
  let informed := sets.new.elems.flatMap (net.sendMsg msg)
  let ended := if sets.noJobsLeft then net.broadcastMsg .terminate else []
  let c := if sets.noJobsLeft then c.onTerminate else c
  let gave := c.giveDisconnectedJobs net table sets
  -- the clients that are left over once every disconnected job has been given away
  let needJob := sets.needJob.elems.drop sets.disconnected.size
  let asked := divideJobs net sets.working.elems needJob gave.1
  (asked.1, synced ++ informed ++ ended ++ gave.2 ++ asked.2)

/-- With no table every known client is new, and the table is dereferenced for it. -/
def checkAssignments (c : Computation) (net : Net) (timeUp sync : Bool) :
    Option (Computation × List Send) :=
  if timeUp then
    match c.currAssignment with
    | none => none
    | some table => some (c.checkTable net table sync)
  else some (c, [])

def clearDisconnected (c : Computation) (net : Net) (timeUp : Bool) : Computation :=
  if timeUp then
    match c.currAssignment with
    | none => c
    | some table => { c with currAssignment := some (ClientSets.settledTable net table) }
  else c

def leaderStep (c : Computation) (net : Net) (timeUp sync : Bool) :
    Option (Computation × List Send) :=
  match c.state with
  | .initial => { c with state := .waiting }.initLeaderStep net
  | .computing | .waiting => c.checkAssignments net timeUp sync
  | .terminating | .finished => some (c, [])

def nonLeaderStep (c : Computation) (net : Net) (timeUp : Bool) : Computation :=
  match c.state with
  | .initial => { c with state := .waiting }.clearDisconnected net timeUp
  | _ => c.clearDisconnected net timeUp

/-- The step that `ComputationLoop` takes first, as the leader or not. -/
def firstStep (c : Computation) (net : Net) (timeUp sync : Bool) :
    Option (Computation × List Send) :=
  if net.leader then c.leaderStep net timeUp sync else some (c.nonLeaderStep net timeUp, [])

def onMessage (c : Computation) (net : Net) (senderId : NetworkId) :
    Message → Option (Computation × List Send)
  | .stackAssignment assign _ => some (c.onAssignment net assign, [])
  | .assignmentFinished best => (c.onAssignmentFinished best senderId).map fun c => (c, [])
  | .terminate => some (c.onTerminate, [])
  | .divideWith id => some (c.onDivideWith net id)

end Computation

/-- Every edge between four vertices, and a vertex without edges. -/
def fourClique : Matrix where
  size := 5
  array := [[0, 0, 0, 0, 0], [0, 0, 1, 1, 1], [0, 1, 0, 1, 1], [0, 1, 1, 0, 1], [0, 1, 1, 1, 0]]
  rows := rfl
  cols := by decide

end ParLib.Job
