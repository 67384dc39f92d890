import RaftEbpf.Lib.LockQueue
import RaftEbpf.Node

/-!
# `RaftEbpf.Operations`: the public operations of a node

What the connections, the timers and the clients of a node call on it (`Operation`), each
with its task. The answer of a query goes to its caller, and no other task sees it. `perform`
is one operation without any other.

`Contention` is a node with any number of running operations. The locks are the fair ones of
`tokio`: a task that cannot take its lock waits behind those that asked before it.
-/

set_option autoImplicit false

namespace RaftEbpf

/-- A public operation of `RaftNode`. -/
inductive Operation where
  | handleMessage (envelope : MessageEnvelope)
  | startElection
  | sendHeartbeats
  | propose (command : Command) (responseTx : Sender)
  | addPeer (id address : String)
  | removePeer (id : String)
  | getStatus
  | getValue (key : String)
  | getMessages (limit sinceIndex : Nat)

/-- The task of an operation. The messages that `get_messages` finds are left as bytes. -/
def Operation.task : Operation → NodeProg Unit
  | .handleMessage envelope => RaftNode.handleMessage envelope
  | .startElection => RaftNode.startElection
  | .sendHeartbeats => RaftNode.sendHeartbeats
  | .propose command responseTx => RaftNode.propose command responseTx
  | .addPeer id address => RaftNode.addPeer id address
  | .removePeer id => RaftNode.removePeer id
  | .getStatus => do
      let _ ← RaftNode.getStatus
      pure ()
  | .getValue key => do
      let _ ← RaftNode.getValue key
      pure ()
  | .getMessages limit sinceIndex => do
      let _ ← RaftNode.getMessages some limit sinceIndex
      pure ()

/-- The node after an operation that runs alone, to its end. Its writes of `state.json`
succeed. -/
def RaftNode.perform (n : RaftNode) (op : Operation) : Option RaftNode :=
  some (op.task.run [] n).state

/-- A node with its running operations and the requests for locks that wait. -/
abbrev Contention : Type := Lib.Queued Lock RaftNode Output WriteResult Site

/-- One choice of the scheduler: an operation starts, or task `i` does its next action, with
the outcome of its write where it is one of `state.json`. -/
inductive Turn where
  | start (op : Operation)
  | advance (i : Nat) (w : WriteResult)

/-- The scheduler's choice as one of the program model. -/
def Turn.sched : Turn → Lib.Sched Lock RaftNode Output WriteResult Site
  | .start op => .spawn op.task
  | .advance i w => .advance i w

namespace Contention

/-- A node without operations. -/
def idle (n : RaftNode) : Contention := ⟨⟨n, [], []⟩, []⟩

/-- One step of the node. `none`: the task is not there, has ended, or waits for a lock. -/
def step (c : Contention) (turn : Turn) : Option Contention := Lib.Queued.step c turn.sched

/-- No task asks for a lock that it holds. -/
def NotAgain (c : Contention) (turn : Turn) : Prop := Lib.Queued.NotAgain c turn.sched

instance (c : Contention) (turn : Turn) : Decidable (c.NotAgain turn) :=
  inferInstanceAs (Decidable (Lib.Queued.NotAgain c turn.sched))

/-- The states of one interleaving, newest first. Each step is one that `ok` allows. -/
abbrev Run (n : RaftNode) (ok : Contention → Turn → Prop) (tr : List Contention) : Prop :=
  Lib.Run step (idle n) ok tr

/-- The states that a list of turns goes through, newest first. Empty where a turn is not
possible or not allowed. -/
abbrev trace (n : RaftNode) (ok : Contention → Turn → Prop) [∀ c turn, Decidable (ok c turn)]
    (turns : List Turn) : List Contention :=
  Lib.trace step (idle n) ok turns

/-- The state a list of turns ends in. -/
abbrev final (n : RaftNode) (ok : Contention → Turn → Prop) [∀ c turn, Decidable (ok c turn)]
    (turns : List Turn) : Contention :=
  Lib.final step (idle n) ok turns

end Contention

/-- Operation `i` takes `k` actions, and its writes succeed. -/
def turns (i k : Nat) : List Turn := List.replicate k (.advance i .ok)

end RaftEbpf
