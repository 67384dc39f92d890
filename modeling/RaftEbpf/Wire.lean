import RaftEbpf.Lib.Utf8
import RaftEbpf.Protocol

/-!
# `RaftEbpf.Wire`: envelopes as JSON

`serde_json::to_vec` on the types of `raft-common/src/protocol.rs`: compact JSON. A bounded
string is a string, a bounded vector of bytes an array of decimal numbers, and an enum an object
with the name of its variant as the only key. A variant without fields is its name.

`InRange` says that the counters of a value are `u64`s, as their type has it.
-/

set_option autoImplicit false

namespace RaftEbpf

open RaftEbpf.Lib (Utf8.bytes)

namespace Wire

/-- A number. -/
def num (n : Nat) : List UInt8 := (Nat.toDigits 10 n).map fun c => UInt8.ofNat c.toNat

/-- A hexadecimal digit, in lower case. -/
def hexDigit (d : UInt8) : UInt8 := if d < 10 then 48 + d else 87 + d

/-- One byte of a string. Quotes, backslashes and control characters are escaped; what belongs to a
character outside ASCII is not. -/
def escape (b : UInt8) : List UInt8 :=
  match b.toNat with
  | 0x08 => [92, 98]
  | 0x09 => [92, 116]
  | 0x0A => [92, 110]
  | 0x0C => [92, 102]
  | 0x0D => [92, 114]
  | 0x22 => [92, 34]
  | 0x5C => [92, 92]
  | _ => if b < 0x20 then [92, 117, 48, 48, hexDigit (b / 16), hexDigit (b % 16)] else [b]

/-- A string. -/
def str (s : String) : List UInt8 := 34 :: ((Utf8.bytes s).flatMap escape ++ [34])

/-- Items with commas between them. -/
def commaSep : List (List UInt8) → List UInt8
  | [] => []
  | [item] => item
  | item :: rest => item ++ 44 :: commaSep rest

/-- An array. -/
def arr (items : List (List UInt8)) : List UInt8 := 91 :: (commaSep items ++ [93])

/-- An object, with its fields in this order. -/
def obj (fields : List (String × List UInt8)) : List UInt8 :=
  123 :: (commaSep (fields.map fun f => str f.1 ++ 58 :: f.2) ++ [125])

def bool (b : Bool) : List UInt8 := Utf8.bytes (if b then "true" else "false")

/-- `null`, or the value. -/
def option {α : Type} (toVec : α → List UInt8) : Option α → List UInt8
  | none => Utf8.bytes "null"
  | some a => toVec a

/-- `heapless::Vec<u8, N>`. -/
def bytes {cap : Nat} (v : HeaplessVec cap UInt8) : List UInt8 :=
  arr (v.toVec.map fun b => num b.toNat)

end Wire

open Wire

def Command.toVec : Command → List UInt8
  | .put key value => obj [("Put", obj [("key", str key.asStr), ("value", bytes value)])]
  | .delete key => obj [("Delete", obj [("key", str key.asStr)])]
  | .noop => str "Noop"

def LogEntry.toVec (e : LogEntry) : List UInt8 :=
  obj [("index", num e.index), ("term", num e.term), ("command", e.command.toVec)]

def AppendEntriesRequest.toVec (req : AppendEntriesRequest) : List UInt8 :=
  obj [("term", num req.term), ("leader_id", str req.leaderId.asStr),
    ("prev_log_index", num req.prevLogIndex), ("prev_log_term", num req.prevLogTerm),
    ("entries", arr (req.entries.toVec.map LogEntry.toVec)),
    ("leader_commit", num req.leaderCommit)]

def AppendEntriesResponse.toVec (resp : AppendEntriesResponse) : List UInt8 :=
  obj [("term", num resp.term), ("success", bool resp.success),
    ("last_log_index", num resp.lastLogIndex), ("node_id", str resp.nodeId.asStr)]

def RequestVoteRequest.toVec (req : RequestVoteRequest) : List UInt8 :=
  obj [("term", num req.term), ("candidate_id", str req.candidateId.asStr),
    ("last_log_index", num req.lastLogIndex), ("last_log_term", num req.lastLogTerm)]

def RequestVoteResponse.toVec (resp : RequestVoteResponse) : List UInt8 :=
  obj [("term", num resp.term), ("vote_granted", bool resp.voteGranted),
    ("node_id", str resp.nodeId.asStr)]

def ClientRequest.toVec (req : ClientRequest) : List UInt8 :=
  obj [("request_id", num req.requestId), ("command", req.command.toVec)]

def ClientResponse.toVec (resp : ClientResponse) : List UInt8 :=
  obj [("success", bool resp.success), ("request_id", num resp.requestId),
    ("data", option bytes resp.data), ("error", option (fun s => str s.asStr) resp.error),
    ("leader_id", option (fun s => str s.asStr) resp.leaderId)]

def RaftMessage.toVec : RaftMessage → List UInt8
  | .appendEntries req => obj [("AppendEntries", req.toVec)]
  | .appendEntriesResponse resp => obj [("AppendEntriesResponse", resp.toVec)]
  | .requestVote req => obj [("RequestVote", req.toVec)]
  | .requestVoteResponse resp => obj [("RequestVoteResponse", resp.toVec)]
  | .clientRequest req => obj [("ClientRequest", req.toVec)]
  | .clientResponse resp => obj [("ClientResponse", resp.toVec)]

/-- `serde_json::to_vec(envelope)`. -/
def MessageEnvelope.toVec (env : MessageEnvelope) : List UInt8 :=
  obj [("from", str env.sender.asStr), ("to", str env.recipient.asStr),
    ("message", env.message.toVec)]

/-! ### Counters in range -/

def LogEntry.InRange (e : LogEntry) : Prop := e.index ≤ u64Max ∧ e.term ≤ u64Max

instance (e : LogEntry) : Decidable e.InRange := inferInstanceAs (Decidable (_ ∧ _))

/-- Each counter of the message is a `u64`. -/
def RaftMessage.InRange : RaftMessage → Prop
  | .appendEntries req =>
      req.term ≤ u64Max ∧ req.prevLogIndex ≤ u64Max ∧ req.prevLogTerm ≤ u64Max ∧
        req.leaderCommit ≤ u64Max ∧ ∀ e ∈ req.entries.toVec, e.InRange
  | .appendEntriesResponse resp => resp.term ≤ u64Max ∧ resp.lastLogIndex ≤ u64Max
  | .requestVote req =>
      req.term ≤ u64Max ∧ req.lastLogIndex ≤ u64Max ∧ req.lastLogTerm ≤ u64Max
  | .requestVoteResponse resp => resp.term ≤ u64Max
  | .clientRequest req => req.requestId ≤ u64Max
  | .clientResponse resp => resp.requestId ≤ u64Max

instance (m : RaftMessage) : Decidable m.InRange := by
  unfold RaftMessage.InRange
  exact match m with
    | .appendEntries _ | .appendEntriesResponse _ | .requestVote _ | .requestVoteResponse _
    | .clientRequest _ | .clientResponse _ => inferInstance

/-- Each counter of the envelope is a `u64`. -/
def MessageEnvelope.InRange (env : MessageEnvelope) : Prop := env.message.InRange

instance (env : MessageEnvelope) : Decidable env.InRange :=
  inferInstanceAs (Decidable env.message.InRange)

end RaftEbpf
