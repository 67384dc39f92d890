import RaftEbpf.Lib.Run
import RaftEbpf.Node

/-!
# `RaftEbpf.Interleaving`: one node whose tasks interleave

The connections, the timers and the clients of a node each call its handlers from a task of
their own. The tasks interleave at every action (`Lib.Config`), and a task waits where a lock
it asks for is taken.
-/

set_option autoImplicit false

namespace RaftEbpf

/-- What a node handles. -/
inductive Event where
  | electionTimeout
  | heartbeatTimeout
  | propose (command : Command) (responseTx : Sender)
  | receive (envelope : MessageEnvelope)

/-- The handler of an event. -/
def Event.handler : Event → NodeProg Unit
  | .electionTimeout => RaftNode.startElection
  | .heartbeatTimeout => RaftNode.sendHeartbeats
  | .propose command responseTx => RaftNode.propose command responseTx
  | .receive envelope => RaftNode.handleMessage envelope

/-- The message an event brings. -/
def Event.cause : Event → Option RaftMessage
  | .receive envelope => some envelope.message
  | _ => none

/-- A node with its running tasks. -/
abbrev Tasks : Type := Lib.Config Lock RaftNode Output WriteResult Site

/-- One choice of the scheduler: a task starts on an event, or task `i` does its next action,
with the outcome of its write where it is one of `state.json`. -/
inductive Choice where
  | start (ev : Event)
  | advance (i : Nat) (w : WriteResult)

/-- The scheduler's choice as one of the program model. -/
def Choice.sched : Choice → Lib.Sched Lock RaftNode Output WriteResult Site
  | .start ev => .spawn ev.handler
  | .advance i w => .advance i w

/-- An incoming message has a term below `u64::MAX`. -/
def Choice.Below : Choice → Prop
  | .start (.receive env) =>
      match env.message with
      | .appendEntries req => req.term < u64Max
      | .appendEntriesResponse resp => resp.term < u64Max
      | .requestVote req => req.term < u64Max
      | .requestVoteResponse resp => resp.term < u64Max
      | _ => True
  | _ => True

instance (ch : Choice) : Decidable ch.Below := by
  unfold Choice.Below
  exact match ch with
    | .start (.receive ⟨_, _, message⟩) =>
        match message with
        | .appendEntries _ | .appendEntriesResponse _ | .requestVote _ | .requestVoteResponse _
        | .clientRequest _ | .clientResponse _ => inferInstance
    | .start .electionTimeout | .start .heartbeatTimeout | .start (.propose _ _) | .advance _ _ =>
        inferInstance

/-- A write of `state.json` succeeds. -/
def Choice.WriteSucceeds : Choice → Prop
  | .start _ => True
  | .advance _ w => w = .ok

instance (ch : Choice) : Decidable ch.WriteSucceeds :=
  match ch with
  | .start _ => inferInstanceAs (Decidable True)
  | .advance _ w => inferInstanceAs (Decidable (w = .ok))

namespace Tasks

/-- A node without tasks. -/
def idle (n : RaftNode) : Tasks := ⟨n, [], []⟩

/-- One step of the node. `none`: the task is not there, has ended, or waits for a lock. -/
def step (c : Tasks) (ch : Choice) : Option Tasks := Lib.Config.step c ch.sched

/-- The states of one interleaving, newest first. Each step is one that `ok` allows. -/
abbrev Run (n : RaftNode) (ok : Tasks → Choice → Prop) (tr : List Tasks) : Prop :=
  Lib.Run step (idle n) ok tr

/-- The states that a list of choices goes through, newest first. Empty where a choice is not
possible or not allowed. -/
abbrev trace (n : RaftNode) (ok : Tasks → Choice → Prop) [∀ c ch, Decidable (ok c ch)]
    (choices : List Choice) : List Tasks :=
  Lib.trace step (idle n) ok choices

/-- The state a list of choices ends in. -/
abbrev final (n : RaftNode) (ok : Tasks → Choice → Prop) [∀ c ch, Decidable (ok c ch)]
    (choices : List Choice) : Tasks :=
  Lib.final step (idle n) ok choices

end Tasks

/-- A node with two peers, on an empty data directory. -/
def bootedNode : RaftNode :=
  .withLog "A" (RaftNode.peerMap [("B", "b"), ("C", "c")]) (.unloaded .empty)

/-- Task `i` takes `k` actions, and its writes succeed. -/
def advances (i k : Nat) : List Choice := List.replicate k (.advance i .ok)

/-- Tasks 0 and 1, to their ends: "A" stands for election in term 1 and gets the vote of "B". -/
def takesOffice : List Choice :=
  .start .electionTimeout :: advances 0 19 ++
    .start (.receive (.new "B" "A" (.requestVoteResponse ⟨1, true, .pushStr 64 "B"⟩))) ::
    advances 1 45

/-- "B" has the log of "A" up to this index, in term 1. -/
def Event.acknowledged (lastLogIndex : Nat) : Event :=
  .receive (.new "B" "A" (.appendEntriesResponse ⟨1, true, lastLogIndex, .pushStr 64 "B"⟩))

end RaftEbpf
