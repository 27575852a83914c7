import UniversalDB.Library.Agenda
import UniversalDB.Library.Agenda.Chains
import UniversalDB.Library.AgreedLog
import UniversalDB.Library.Cuts
import UniversalDB.Library.Fifo
import UniversalDB.Library.KeyMap
import UniversalDB.Library.OrderedMap
import UniversalDB.Library.OrderedMultimap
import UniversalDB.Library.PrefixCode
import UniversalDB.Library.Synod.Acceptors
import UniversalDB.Library.Synod.Agreement
import UniversalDB.Library.Synod.Learning
import UniversalDB.Library.Synod.Protocol
import UniversalDB.Library.Synod.Rounds
import UniversalDB.Library.Timeline
import UniversalDB.Library.TransitionSystem
import UniversalDB.Library.UnorderedMap
import UniversalDB.Library.Voting
import UniversalDB.Library.Watchdog
import UniversalDB.Model.AsyncQueue
import UniversalDB.Model.AsyncSchedulerImpl
import UniversalDB.Model.ChannelImpl
import UniversalDB.Model.ChannelTesting
import UniversalDB.Model.ClientRequestHandler
import UniversalDB.Model.ClockTesting
import UniversalDB.Model.Connections
import UniversalDB.Model.DataMaster
import UniversalDB.Model.Database
import UniversalDB.Model.FailureDetector
import UniversalDB.Model.Group
import UniversalDB.Model.HeartbeatTracker
import UniversalDB.Model.KVStore
import UniversalDB.Model.KeySpaceManager
import UniversalDB.Model.KeySpaceRange
import UniversalDB.Model.LogSyncer
import UniversalDB.Model.LogSyncerWords
import UniversalDB.Model.MultiPaxosHandler
import UniversalDB.Model.PaxosConfigManager
import UniversalDB.Model.PaxosInstance
import UniversalDB.Model.PaxosLog
import UniversalDB.Model.ProposerQueue
import UniversalDB.Model.Proto
import UniversalDB.Model.ReconfigGroup
import UniversalDB.Model.Service
import UniversalDB.Model.SinglePaxosHandler
import UniversalDB.Model.SlaveGroup
import UniversalDB.Model.SlaveKeySpaceManager
import UniversalDB.Model.Tablet
import UniversalDB.Model.TabletParticipantManager
import UniversalDB.Model.TimerAsyncScheduler
import UniversalDB.Verification.AsyncQueue
import UniversalDB.Verification.AsyncSchedulerImpl
import UniversalDB.Verification.ChannelImpl.Ends
import UniversalDB.Verification.ChannelImpl.Frames
import UniversalDB.Verification.ChannelImpl.Runs
import UniversalDB.Verification.ChannelTesting
import UniversalDB.Verification.ClientRequestHandler
import UniversalDB.Verification.ClockTesting
import UniversalDB.Verification.Connections
import UniversalDB.Verification.Database.Generations
import UniversalDB.Verification.Database.Invariant
import UniversalDB.Verification.Database.Ownership
import UniversalDB.Verification.Database.Runs
import UniversalDB.Verification.Database.SlaveLog
import UniversalDB.Verification.FailureDetector.Leaders
import UniversalDB.Verification.FailureDetector.Timing
import UniversalDB.Verification.FailureDetector.Watching
import UniversalDB.Verification.Group.Agreed
import UniversalDB.Verification.Group.Agreement
import UniversalDB.Verification.Group.Calls
import UniversalDB.Verification.Group.CatchUp
import UniversalDB.Verification.Group.Instance
import UniversalDB.Verification.Group.Logs
import UniversalDB.Verification.Group.Progress
import UniversalDB.Verification.Group.Promises
import UniversalDB.Verification.Group.Simulation
import UniversalDB.Verification.Group.Steps
import UniversalDB.Verification.HeartbeatTracker
import UniversalDB.Verification.KVStore
import UniversalDB.Verification.KVStore.Admission
import UniversalDB.Verification.KVStore.Histories
import UniversalDB.Verification.KVStore.LinearScan
import UniversalDB.Verification.KVStore.Search
import UniversalDB.Verification.KeySpaceRange
import UniversalDB.Verification.LogSyncer
import UniversalDB.Verification.LogSyncer.CatchUp
import UniversalDB.Verification.LogSyncer.Encoding
import UniversalDB.Verification.LogSyncer.Holes
import UniversalDB.Verification.LogSyncer.Responses
import UniversalDB.Verification.Masters.History
import UniversalDB.Verification.Masters.Invariant
import UniversalDB.Verification.Masters.KeySpaces
import UniversalDB.Verification.Masters.Paxos
import UniversalDB.Verification.Masters.Selections
import UniversalDB.Verification.Masters.Service
import UniversalDB.Verification.Masters.Tasks
import UniversalDB.Verification.MultiPaxosHandler
import UniversalDB.Verification.PaxosConfigManager
import UniversalDB.Verification.PaxosLog.Callbacks
import UniversalDB.Verification.PaxosLog.Invariant
import UniversalDB.Verification.PaxosLog.Replay
import UniversalDB.Verification.PaxosLog.Replica
import UniversalDB.Verification.PaxosLog.Representation
import UniversalDB.Verification.ProposerQueue.Schedule
import UniversalDB.Verification.ProposerQueue.Turns
import UniversalDB.Verification.ReconfigGroup.Configurations
import UniversalDB.Verification.ReconfigGroup.Invariant
import UniversalDB.Verification.Service.Logs
import UniversalDB.Verification.Service.Refinement
import UniversalDB.Verification.Service.Steps
import UniversalDB.Verification.SinglePaxosHandler
import UniversalDB.Verification.SinglePaxosHandler.Numbers
import UniversalDB.Verification.SinglePaxosHandler.Selection
import UniversalDB.Verification.SlaveGroup.Projection
import UniversalDB.Verification.SlaveGroup.Runs
import UniversalDB.Verification.Tablet.Growth
import UniversalDB.Verification.Tablet.Invariant
import UniversalDB.Verification.Tablet.Log
import UniversalDB.Verification.Tablet.Paxos
import UniversalDB.Verification.Tablet.Progress
import UniversalDB.Verification.Tablet.RealTime
import UniversalDB.Verification.Tablet.Replay
import UniversalDB.Verification.Tablet.Replicas
import UniversalDB.Verification.Tablet.Responses
import UniversalDB.Verification.Tablet.Runs
import UniversalDB.Verification.Tablet.Serial
import UniversalDB.Verification.Tablet.Service
import UniversalDB.Verification.Tablet.Steps
import UniversalDB.Verification.TabletParticipantManager
import UniversalDB.Verification.TimerAsyncSchedulerTesting
