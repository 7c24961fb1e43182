import ParLib.DividedSearch
import ParLib.CutWeight
import ParLib.Election.StableMesh
import ParLib.Election.Agreement
import ParLib.Election.DeadLeader
import ParLib.Job.Termination
import ParLib.Job.BestFound
import ParLib.Job.Replication
import ParLib.Job.CrashRecovery
import ParLib.Foundations.Replicas
import ParLib.Wire.Payload
import ParLib.Wire.Framing
import ParLib.Wire.PeerBytes
import ParLib.Wire.SharedConnection
import ParLib.Wire.Handshake
import ParLib.Job.NodeRuns
import ParLib.Job.ValidPaths
import ParLib.Job.MessageBytes
import ParLib.Job.ByteSystem
import ParLib.Election.SimultaneousOpen
import ParLib.Election.Progress
import ParLib.StackSplits
import ParLib.SearchCalls
import ParLib.Job.Division
import ParLib.Foundations.Handovers
import ParLib.Job.LeaderCheck
import ParLib.Election.Ring
import ParLib.Job.AnnouncedBest
import ParLib.Job.Answer
import ParLib.Job.CanEnd
import ParLib.Job.Traffic
import ParLib.Address
import ParLib.SubnetScan
import ParLib.BlockingQueue
import ParLib.AddressText
import ParLib.Job.PeerIds
import ParLib.Foundations.Heap
import ParLib.MatrixObject
import ParLib.MatrixOwnership
import ParLib.Matrices
import ParLib.MatrixLoading
import ParLib.Discovery
import ParLib.Election.ConnectionTable
import ParLib.Election.FailOver
import ParLib.Election.MessageBytes
import ParLib.Foundations.Simulation
import ParLib.Program.Node
import ParLib.Program.System
import ParLib.Program.Moves
import ParLib.Program.WellFormed
import ParLib.Program.ElectionView
import ParLib.Program.ComputationView
import ParLib.Program.Refinement
import ParLib.Program.LeaderAgreement
import ParLib.Program.SearchSafety
