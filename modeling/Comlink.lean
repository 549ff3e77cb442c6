import Comlink.GuardedRuns
import Comlink.SortedPermutations
import Comlink.ListScans
import Comlink.BlockSequences
import Comlink.VectorClock
import Comlink.Membership
import Comlink.ContextGraph
import Comlink.ContextGraphSoundness
import Comlink.Stability
import Comlink.MessageLog
import Comlink.Conversation
import Comlink.ConversationSteps
import Comlink.ConversationLive
import Comlink.ReplicaGroup
import Comlink.CausalClocks
import Comlink.TotalOrder
import Comlink.TotalOrderGroup
import Comlink.TotalOrderDelivery
import Comlink.TotalOrderAgreement
import Comlink.TotalOrderCausality
import Comlink.LogReplay
import Comlink.ReplicaRestarts
import Comlink.TrimTracker
import Comlink.Substrate
import Comlink.SemOrder
import Comlink.SemOrderRounds
import Comlink.StrictOperations
import Comlink.OrderedReplica
import Comlink.AppliedFrontier
import Comlink.SnapshotJoin
import Comlink.SnapshotRestart
import Comlink.TrimSafety
import Comlink.ClockAncestry
import Comlink.CausalDelivery
import Comlink.DeferralTurns
import Comlink.DeferralIndex
import Comlink.LostRequests
import Comlink.DeferralTracking
import Comlink.StuckDeferral
import Comlink.ArrivalOrder
import Comlink.CausalBroadcast
import Comlink.VoteGroup
import Comlink.SlotAgreement
import Comlink.VoteOutAgreement
import Comlink.SplitBrain
import Comlink.ClusterMembers
import Comlink.SlotStability
import Comlink.LogRebuild
import Comlink.DurableDelivery
import Comlink.FrozenMembers
import Comlink.ReplayDrain
import Comlink.GrowingClocks
import Comlink.PersistentStability
import Comlink.EagerExecutions
import Comlink.SemGroupCausality
import Comlink.CausalityTokens
import Comlink.ByteStreams
import Comlink.FileLog
import Comlink.FileRecovery
import Comlink.FileRefinement
import Comlink.RestartCatchUp
import Comlink.InfallibleSend
import Comlink.WaveStructure
import Comlink.StabilityAncestry
import Comlink.StabilityQueries
import Comlink.Saturation
import Comlink.EagerClosure
import Comlink.LocalStability
import Comlink.SubmittedClasses
import Comlink.MembershipViews
import Comlink.VoteIntegrity
import Comlink.LastWriter
import Comlink.MetadataRegistry
import Comlink.RegistryConvergence
import Comlink.GroupHistories
import Comlink.FaultyOpening
import Comlink.FailedAppends
import Comlink.ClusterBootstrap
import Comlink.SubmitWakeups
import Comlink.FanOut
import Comlink.Watchers
import Comlink.DeliveryClose
import Comlink.VoteInOutcomes
import Comlink.VoteInRefinement
import Comlink.FailureDetector
import Comlink.GreatestTag
import Comlink.KvStore
import Comlink.SnapshotStreaming
import Comlink.VectorAlgebra
import Comlink.KvConvergence
import Comlink.TombstoneSweeps
import Comlink.Batcher
import Comlink.KvOverwrites
import Comlink.ReceiveTrace
import Comlink.ReceiveTermination
import Comlink.CausalRefinement
import Comlink.Channels
import Comlink.CrashDisk
import Comlink.Multiplexing
import Comlink.StableStorage
import Comlink.StorageAgreement
import Comlink.StorageDurability
import Comlink.TransportStack
import Comlink.MaskPersistence
import Comlink.KvSnapshots
import Comlink.KvLogs
import Comlink.HeartbeatGroup
import Comlink.TrustedMembers
import Comlink.DirectoryConvergence
