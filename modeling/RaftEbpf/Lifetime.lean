import RaftEbpf.Operations

/-!
# `RaftEbpf.Lifetime`: one node over crashes and failing disks

What happens to one node, one thing after the other (`Happening`): an operation runs to its
end, with any outcome of each of its writes of `state.json`, or the node starts again from
what its data directory holds.
-/

set_option autoImplicit false

namespace RaftEbpf

open RaftEbpf.Lib (HashMap)

/-- One thing that happens to a node. -/
inductive Happening where
  /-- An operation, with the outcomes of its writes of `state.json` in order. Where the list
  ends, writes succeed. -/
  | operation (op : Operation) (ws : List WriteResult)
  /-- A crash between operations, and a new start with these configured peers. -/
  | restart (peers : HashMap String PeerInfo)

/-- No write fails, and the node does not crash. -/
def Happening.Undisturbed : Happening → Prop
  | .operation _ ws => ws = []
  | .restart _ => False

instance (h : Happening) : Decidable h.Undisturbed :=
  match h with
  | .operation _ ws => inferInstanceAs (Decidable (ws = []))
  | .restart _ => inferInstanceAs (Decidable False)

/-- A message from this node arrives at A and is handled. -/
def Happening.receive (sender : String) (message : RaftMessage) : Happening :=
  .operation (.handleMessage (.new sender "A" message)) []

/-- A heartbeat of this leader, in this term. -/
def RaftMessage.heartbeat (leader : String) (term : Nat) : RaftMessage :=
  .appendEntries ⟨term, .pushStr 64 leader, 0, 0, .collectTake 64 [], 0⟩

/-- A vote in this term. -/
def RaftMessage.grant (voter : String) (term : Nat) : RaftMessage :=
  .requestVoteResponse ⟨term, true, .pushStr 64 voter⟩

namespace RaftNode

/-- The node after it. `none`: the log does not load. -/
def happen (n : RaftNode) : Happening → Option RaftNode
  | .operation op ws => some (op.task.run ws n).state
  | .restart peers => RaftNode.new n.nodeId peers n.log.dataDir

/-- The operation returns `Ok`. -/
def Processed (n : RaftNode) (op : Operation) (ws : List WriteResult) : Prop :=
  (op.task.run ws n).value.isSome = true

instance (n : RaftNode) (op : Operation) (ws : List WriteResult) : Decidable (n.Processed op ws) :=
  inferInstanceAs (Decidable (_ = true))

/-- The term that the operation raises the node to, if it raises it. -/
def raisesTo (n : RaftNode) : Operation → Option Nat
  | .handleMessage env =>
      match env.message with
      | .appendEntries req => if req.term > n.log.currentTerm then some req.term else none
      | .appendEntriesResponse resp =>
          -- A response is looked at by the role that asked for it.
          if n.role = .leader ∧ resp.term > n.log.currentTerm then some resp.term else none
      | .requestVote req => if req.term > n.log.currentTerm then some req.term else none
      | .requestVoteResponse resp =>
          if n.role = .candidate ∧ resp.term > n.log.currentTerm then some resp.term else none
      | _ => none
  | .startElection => some (addOne n.log.currentTerm)
  | _ => none

end RaftNode

end RaftEbpf
