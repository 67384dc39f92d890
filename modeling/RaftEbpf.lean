import RaftEbpf.Cluster
import RaftEbpf.Proofs.NodeRun
import RaftEbpf.Lib.Quorum
import RaftEbpf.Lib.Replication.Inv
import RaftEbpf.Lib.Replication.Safety
import RaftEbpf.Proofs.LogList
import RaftEbpf.Proofs.StoreEntries
import RaftEbpf.Conditions
import RaftEbpf.Proofs.Simulation
import RaftEbpf.Proofs.Refinement
import RaftEbpf.Proofs.ClusterRun
import RaftEbpf.Proofs.LogMatching
import RaftEbpf.Proofs.ElectionSafety
import RaftEbpf.Proofs.MatchIndex
import RaftEbpf.Proofs.FollowerCommit
import RaftEbpf.Proofs.StateMachineSafety
import RaftEbpf.Proofs.PendingRequests
import RaftEbpf.Proofs.Locks
import RaftEbpf.Lib.ProgLogic
import RaftEbpf.Proofs.Neutral
import RaftEbpf.Proofs.Durable
import RaftEbpf.Lib.RelyGuarantee
import RaftEbpf.Proofs.Concurrent
import RaftEbpf.Proofs.InterleavedVotes
import RaftEbpf.Proofs.InterleavedLeader
import RaftEbpf.Proofs.Invariant
import RaftEbpf.Proofs.Applied
import RaftEbpf.Proofs.CommitStable
import RaftEbpf.Lib.Journal
import RaftEbpf.LogFile
import RaftEbpf.Proofs.Reload
import RaftEbpf.Proofs.Recovery
import RaftEbpf.Proofs.JsonText
import RaftEbpf.Lib.LockQueue
import RaftEbpf.Operations
import RaftEbpf.Proofs.Deadlock
import RaftEbpf.Lib.Scan
import RaftEbpf.Proofs.CommitScan
import RaftEbpf.Proofs.Tally
import RaftEbpf.Proofs.StaleAnswers
import RaftEbpf.Proofs.CommitClosed
import RaftEbpf.Lifetime
import RaftEbpf.Proofs.RoleChange
import RaftEbpf.Proofs.LeaderAccepted
import RaftEbpf.Proofs.Coherent
import RaftEbpf.Proofs.Truthful
import RaftEbpf.Proofs.LeaderHint
import RaftEbpf.Lib.Utf8
import RaftEbpf.Ipc
import RaftEbpf.Proofs.ReadBack
import RaftEbpf.Proofs.Deliveries
import RaftEbpf.Lib.Replication.Repair
import RaftEbpf.Proofs.LogRepair
import RaftEbpf.LogErrors
import RaftEbpf.Proofs.FailedCalls
import RaftEbpf.Lib.Duties
import RaftEbpf.Proofs.KeepsIndexes
import RaftEbpf.Proofs.NodeDuties
import RaftEbpf.Proofs.WaitingClients
import RaftEbpf.Lib.Custody
import RaftEbpf.Proofs.CommitMonotone
import RaftEbpf.Lib.Redelivery
import RaftEbpf.Proofs.Snapshot
import RaftEbpf.Lib.Framing
import RaftEbpf.Network
import RaftEbpf.Proofs.Frames
import RaftEbpf.Proofs.BrokenConnections
import RaftEbpf.Daemon
import RaftEbpf.Proofs.Membership
import RaftEbpf.Classifier
import RaftEbpf.Lib.Ranking
import RaftEbpf.Proofs.CountedSegments
import RaftEbpf.Proofs.MessageOrder
import RaftEbpf.Proofs.SentMessages
import RaftEbpf.Arithmetic
import RaftEbpf.Proofs.Overflow
import RaftEbpf.Lib.Replication.Later
import RaftEbpf.Proofs.LeaderCompleteness
import RaftEbpf.Proofs.ReplicaData
import RaftEbpf.Proofs.Origin
import RaftEbpf.Proofs.Quorums
import RaftEbpf.Proofs.SentInRange
import RaftEbpf.Lib.Pool
import RaftEbpf.Networked
import RaftEbpf.Proofs.Connections
import RaftEbpf.Proofs.NetworkedRuns
import RaftEbpf.Lib.PrefixCode
import RaftEbpf.Proofs.WireText
import RaftEbpf.Lib.Replication.Order
import RaftEbpf.Proofs.Linearized
import RaftEbpf.Lib.CriticalSection
import RaftEbpf.Lib.Ledger
import RaftEbpf.Proofs.Pieces
import RaftEbpf.Proofs.AppliedOnce
import RaftEbpf.Proofs.AnsweredOnce
import RaftEbpf.Socket
import RaftEbpf.Proofs.SocketText
import RaftEbpf.Proofs.SocketCalls
