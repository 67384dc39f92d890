import RaftEbpf.Heapless

/-!
# `RaftEbpf.Protocol`: the wire messages

The types of `raft-common/src/protocol.rs`, field for field. `u64` fields are `Nat`;
strings and vectors carry their capacity. `MessageEnvelope.new` copies both ids into
64-byte strings, as the source does.
-/

set_option autoImplicit false

namespace RaftEbpf

/-- Commands that can be applied to the state machine. -/
inductive Command where
  | put (key : HeaplessString 256) (value : HeaplessVec 1024 UInt8)
  | delete (key : HeaplessString 256)
  | noop
  deriving DecidableEq

/-- A single entry in the RAFT log. -/
structure LogEntry where
  /-- Position in the log (1-indexed). -/
  index : Nat
  /-- Term when entry was received by leader. -/
  term : Nat
  /-- The command to apply to the state machine. -/
  command : Command
  deriving DecidableEq

/-- AppendEntries RPC request. -/
structure AppendEntriesRequest where
  term : Nat
  leaderId : HeaplessString 64
  /-- Index of log entry immediately preceding new ones. -/
  prevLogIndex : Nat
  prevLogTerm : Nat
  /-- Log entries to store (empty for heartbeat). -/
  entries : HeaplessVec 64 LogEntry
  leaderCommit : Nat
  deriving DecidableEq

/-- AppendEntries RPC response. -/
structure AppendEntriesResponse where
  term : Nat
  success : Bool
  /-- The index of the last log entry (for fast backtracking). -/
  lastLogIndex : Nat
  nodeId : HeaplessString 64
  deriving DecidableEq

/-- RequestVote RPC request. -/
structure RequestVoteRequest where
  term : Nat
  candidateId : HeaplessString 64
  lastLogIndex : Nat
  lastLogTerm : Nat
  deriving DecidableEq

/-- RequestVote RPC response. -/
structure RequestVoteResponse where
  term : Nat
  voteGranted : Bool
  nodeId : HeaplessString 64
  deriving DecidableEq

/-- Client request to the RAFT cluster. -/
structure ClientRequest where
  requestId : Nat
  command : Command
  deriving DecidableEq

/-- Response to a client request. -/
structure ClientResponse where
  success : Bool
  requestId : Nat
  data : Option (HeaplessVec 1024 UInt8)
  error : Option (HeaplessString 256)
  leaderId : Option (HeaplessString 64)
  deriving DecidableEq

/-- RAFT protocol message types. -/
inductive RaftMessage where
  | appendEntries (req : AppendEntriesRequest)
  | appendEntriesResponse (resp : AppendEntriesResponse)
  | requestVote (req : RequestVoteRequest)
  | requestVoteResponse (resp : RequestVoteResponse)
  | clientRequest (req : ClientRequest)
  | clientResponse (resp : ClientResponse)
  deriving DecidableEq

/-- Message envelope for network transmission. The fields `from` and `to` of the source
are `sender` and `recipient` here: both words are Lean keywords. -/
structure MessageEnvelope where
  sender : HeaplessString 64
  recipient : HeaplessString 64
  message : RaftMessage
  deriving DecidableEq

/-- `MessageEnvelope::new`. -/
def MessageEnvelope.new (sender recipient : String) (message : RaftMessage) : MessageEnvelope where
  sender := .pushStr 64 sender
  recipient := .pushStr 64 recipient
  message := message

end RaftEbpf
