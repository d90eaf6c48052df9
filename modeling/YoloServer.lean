import YoloServer.Lib.Run
import YoloServer.Raft.NodeSpec
import YoloServer.Raft.VoteDurability
import YoloServer.Raft.IndexInvariant
import YoloServer.Raft.StateMachineSafety
import YoloServer.Raft.CommitQuorum
import YoloServer.Raft.CommitCompleteness
import YoloServer.Raft.FollowerCommit
import YoloServer.Raft.VoteRecord
import YoloServer.Raft.TermGrowth
import YoloServer.Raft.AppliedFold
import YoloServer.Raft.RpcPairing
import YoloServer.Raft.PoolOwnership
import YoloServer.Server.QuorumIntersection
import YoloServer.Server.StoreAcknowledged
import YoloServer.Server.RoutingAgreement
import YoloServer.Server.OneReply
import YoloServer.Server.MalformedMessages
import YoloServer.Server.HealthProbe
import YoloServer.Server.WireRoundTrip
import YoloServer.Server.ReadYourWrites
import YoloServer.Server.StoredValues
import YoloServer.Common.ThreadPoolShutdown
import YoloServer.Common.ThreadPoolTasks
import YoloServer.Common.ConfigFile
import YoloServer.Cluster.Rendezvous
import YoloServer.Server.GetReply
import YoloServer.Server.StoredIntegers
import YoloServer.Server.PayloadSplit
import YoloServer.Server.ReplySize
import YoloServer.Server.UsableRouter
import YoloServer.Json.NullByte
import YoloServer.Server.WireCluster
import YoloServer.Server.IsolatedServers
import YoloServer.Common.ThreadPoolWakeups
import YoloServer.Raft.LocalLogs
import YoloServer.Raft.Progress
import YoloServer.Server.AcceptLoop
import YoloServer.Server.ConcurrentClients
