import RaftEbpf.Lib.Utf8
import RaftEbpf.Node

/-!
# `RaftEbpf.Ipc`: the requests of the command line

`process_request` of `raft/src/ipc.rs`: what the socket hands over, after `serde_json` has read
it, and what goes back. `v.as_bytes()` is `Utf8.bytes`, and `String::from_utf8_lossy` is
`Utf8.fromLossy`.

What the code around it decides is in `Surroundings`: the clock, the outcome of
`timeout(5s, rx.recv())`, and `serde_json` on whole values. At this level the writes of
`log.jsonl` succeed, so `propose` returns `Ok` and its `Err` branch does not come up.
-/

set_option autoImplicit false

namespace RaftEbpf

open RaftEbpf.Lib (Utf8.bytes Utf8.fromLossy)

/-- `serde_json::Value`, the forms that occur. The fields of an object are listed in the order of
their names, as its map has them. -/
inductive Json where
  | null
  | bool (b : Bool)
  | num (n : Nat)
  | str (s : String)
  | arr (items : List Json)
  | obj (fields : List (String × Json))

/-- `Option<String>` as a value. -/
def Json.ofOption : Option String → Json
  | some s => .str s
  | none => .null

/-- IPC request from CLI. -/
inductive IpcRequest where
  /-- Join a new peer to the cluster. -/
  | join (nodeId address : String)
  /-- Remove a peer from the cluster. -/
  | leave (nodeId : String)
  /-- Get cluster status. -/
  | status
  /-- Propose a command. -/
  | propose (key : String) (value : Option String)
  /-- Get a value. -/
  | get (key : String)
  /-- Send a message to the cluster. -/
  | send (message : String)
  /-- Get recent messages. -/
  | messages (limit sinceIndex : Option Nat)

/-- IPC response to CLI. -/
structure IpcResponse where
  success : Bool
  message : String
  data : Option Json

/-- The outcome of `timeout(5s, rx.recv())`. -/
inductive Received where
  | result (r : ProposeResult)
  /-- The channel is closed. -/
  | closed
  | elapsed
  deriving DecidableEq

/-- What the code around `process_request` decides. -/
structure Surroundings where
  /-- Milliseconds since the epoch. -/
  timestamp : Nat
  received : Received
  /-- `Value::to_string`, as bytes. -/
  toBytes : Json → List UInt8
  /-- `serde_json::from_slice`. -/
  fromSlice : List UInt8 → Option Json

namespace Ipc

open RaftNode

/-- `format!("{:?}", s.role)`. -/
def debugRole : NodeRole → String
  | .follower => "Follower"
  | .candidate => "Candidate"
  | .leader => "Leader"

/-- `StatusResponse::from`, as a value. -/
def statusResponse (s : NodeStatus) : Json :=
  .obj [("commit_index", .num s.commitIndex), ("current_term", .num s.currentTerm),
    ("last_applied", .num s.lastApplied), ("leader_id", .ofOption s.leaderId),
    ("node_id", .str s.nodeId), ("peers", .arr (s.peers.map .str)),
    ("role", .str (debugRole s.role))]

/-- The command of a `Propose` request. What does not fit the fixed capacities is lost without an
error. -/
def proposedCommand (key : String) : Option String → Command
  | some v => .put (.pushStr 256 key) (.collectTake 1024 (Utf8.bytes v))
  | none => .delete (.pushStr 256 key)

/-- The command of a `Send` request. -/
def sentCommand (env : Surroundings) (nodeId message : String) : Command :=
  .put (.pushStr 256 s!"_msg:{env.timestamp}") (.collectTake 1024 (env.toBytes
    (.obj [("from", .str nodeId), ("message", .str message), ("timestamp", .num env.timestamp)])))

/-- The `data` of a refusal. -/
def redirection (leaderId : Option String) : Option Json :=
  leaderId.map fun id => .obj [("leader_id", .str id)]

/-- The response to a `Propose` request. -/
def proposeResponse : Received → IpcResponse
  | .result (.success index) => ⟨true, s!"Committed at index {index}", none⟩
  | .result (.notLeader leaderId) => ⟨false, "Not leader", redirection leaderId⟩
  | .result (.failed reason) => ⟨false, reason, none⟩
  | .closed => ⟨false, "Channel closed", none⟩
  | .elapsed => ⟨false, "Timeout waiting for commit", none⟩

/-- The response to a `Send` request. -/
def sendResponse : Received → IpcResponse
  | .result (.success index) =>
      ⟨true, s!"Message sent (index {index})", some (.obj [("index", .num index)])⟩
  | .result (.notLeader leaderId) =>
      ⟨false, "Not leader - send to leader node", redirection leaderId⟩
  | .result (.failed reason) => ⟨false, reason, none⟩
  | .closed => ⟨false, "Channel closed", none⟩
  | .elapsed => ⟨false, "Timeout waiting for replication", none⟩

/-- `process_request`. A proposal answers on the channel `tx`. -/
def processRequest (env : Surroundings) (tx : Sender) : IpcRequest → NodeProg IpcResponse
  | .join nodeId address => do
      addPeer nodeId address
      return ⟨true, s!"Added peer {nodeId} at {address}", none⟩
  | .leave nodeId => do
      removePeer nodeId
      return ⟨true, s!"Removed peer {nodeId}", none⟩
  | .status => do
      let status ← getStatus
      return ⟨true, "OK", some (statusResponse status)⟩
  | .propose key value => do
      propose (proposedCommand key value) tx
      return proposeResponse env.received
  | .get key => do
      let value ← getValue key
      return ⟨true, "OK", some (.obj [("key", .str key),
        ("value", .ofOption (value.map Utf8.fromLossy))])⟩
  | .send message => do
      -- `node_id` never changes, and it is read without a lock.
      let n ← RaftNode.get
      propose (sentCommand env n.nodeId message) tx
      return sendResponse env.received
  | .messages limit sinceIndex => do
      let messages ← getMessages env.fromSlice (limit.getD 10) (sinceIndex.getD 0)
      let status ← getStatus
      return ⟨true, "OK", some (.obj [("last_applied", .num status.lastApplied),
        ("messages", .arr messages)])⟩

end Ipc

end RaftEbpf
