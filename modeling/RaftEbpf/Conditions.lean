import RaftEbpf.Cluster
import RaftEbpf.Proofs.NodeRun

/-!
# `RaftEbpf.Conditions`: conditions on a step of the cluster

Each condition reads the state before a step and the envelope that arrives in it. A run
whose steps all meet a condition never takes the branch of the code that the condition is
about.

* `Short`: the counters that the step increments are short of `u64::MAX`. `CountersShort`
  asks this of every member.
* `ElectionSound`: a node that passes the vote threshold holds the votes of a majority.
* `AckSound`: a success that a leader records answers a request of its term, and the
  leader has the follower's last entry.
* `CommitSound`: a follower that raises its commit index past what the request covered has
  the leader's entry there.
* `PendingSound`: a request changes no entry that a pending client waits for.
-/

set_option autoImplicit false

namespace RaftEbpf

/-- The term and the last index of a node are short of `u64::MAX`. -/
def RaftNode.CountersShort (n : RaftNode) : Prop :=
  n.log.currentTerm < u64Max ∧ n.log.lastIndex < u64Max

instance (n : RaftNode) : Decidable n.CountersShort := inferInstanceAs (Decidable (_ ∧ _))

namespace Cluster

open RaftNode

/-- The counters of every member are short of `u64::MAX`. -/
def CountersShort (m : Membership) (c : Cluster) : Prop :=
  ∀ id ∈ m.ids, (c.nodes id).CountersShort

instance (m : Membership) (c : Cluster) : Decidable (c.CountersShort m) :=
  inferInstanceAs (Decidable (∀ id ∈ m.ids, _))

/-- The envelope that a step hands to its recipient. -/
def arriving (c : Cluster) : Action → Option Packet
  | .deliver k => c.network[k]?
  | _ => none

/-- The counter that the step increments is short of `u64::MAX`. -/
def Short (c : Cluster) : Action → Prop
  | .startElection id => (c.nodes id).log.currentTerm < u64Max
  | .propose id _ => (c.nodes id).log.lastIndex < u64Max
  | _ => True

instance (c : Cluster) (a : Action) : Decidable (c.Short a) := by
  unfold Short
  exact match a with
    | .startElection _ | .sendHeartbeats _ | .propose _ _ | .deliver _ | .drop _ | .duplicate _
    | .restart _ => inferInstance

/-- Node `v` has sent node `a` a grant for this term. -/
def granted (c : Cluster) (v a : String) (term : Nat) : Bool :=
  c.history.any fun em =>
    match em.output with
    | .send env =>
        match env.message with
        | .requestVoteResponse resp =>
            resp.voteGranted && decide (resp.term = term) &&
              decide (env.sender.asStr = v) && decide (env.recipient.asStr = a)
        | _ => false
    | _ => false

/-- The members whose vote in this term node `a` has by now: itself, and those that sent it
a grant. -/
def votesFor (m : Membership) (c : Cluster) (a : String) (term : Nat) : List String :=
  m.ids.filter fun v => decide (v = a) || c.granted v a term

/-- Where a granted response takes a candidate over the threshold of the code, the votes
really cast for it in its term are a majority. -/
def ElectionSound (m : Membership) (c : Cluster) (a : Action) : Prop :=
  match c.arriving a with
  | some p =>
      match p.envelope.message with
      | .requestVoteResponse resp =>
          let id := p.envelope.recipient.asStr
          let n := c.nodes id
          n.role = .candidate → resp.term ≤ n.log.currentTerm → resp.voteGranted = true →
            ReachesThreshold (counted n p.envelope.sender.asStr) →
            m.ids.length < 2 * (c.votesFor m id n.log.currentTerm).length
      | _ => True
  | none => True

instance (m : Membership) (c : Cluster) (a : Action) : Decidable (c.ElectionSound m a) := by
  unfold ElectionSound
  exact match c.arriving a with
    | some ⟨⟨_, _, message⟩, _, _⟩ =>
        match message with
        | .appendEntries _ | .appendEntriesResponse _ | .requestVote _ | .requestVoteResponse _
        | .clientRequest _ | .clientResponse _ => inferInstance
    | none => inferInstance

/-- The message handled was a request of this term. -/
def Answers (cause : Option RaftMessage) (term : Nat) : Prop :=
  match cause with
  | some (.appendEntries req) => req.term = term
  | _ => False

instance (cause : Option RaftMessage) (term : Nat) : Decidable (Answers cause term) := by
  unfold Answers
  exact match cause with
    | some (.appendEntries _) => inferInstance
    | some (.appendEntriesResponse _) | some (.requestVote _) | some (.requestVoteResponse _)
    | some (.clientRequest _) | some (.clientResponse _) | none => inferInstance

/-- A success that a leader records answers a request of the leader's current term, and at
the index it names the leader has an entry of the term that the follower has there. -/
def AckSound (c : Cluster) (a : Action) : Prop :=
  match c.arriving a with
  | some p =>
      match p.envelope.message with
      | .appendEntriesResponse resp =>
          let n := c.nodes p.envelope.recipient.asStr
          n.role = .leader → resp.term ≤ n.log.currentTerm → resp.success = true →
            Answers p.cause n.log.currentTerm ∧
            n.log.termAt resp.lastLogIndex = p.origin.log.termAt resp.lastLogIndex
      | _ => True
  | none => True

instance (c : Cluster) (a : Action) : Decidable (c.AckSound a) := by
  unfold AckSound
  exact match c.arriving a with
    | some ⟨⟨_, _, message⟩, _, _⟩ =>
        match message with
        | .appendEntries _ | .appendEntriesResponse _ | .requestVote _ | .requestVoteResponse _
        | .clientRequest _ | .clientResponse _ => inferInstance
    | none => inferInstance

/-- An entry of a request meets an entry of another term in the log. -/
def Conflicts (log : RaftLog) (es : List LogEntry) : Prop :=
  ∃ e ∈ es, log.termAt e.index ≠ none ∧ log.termAt e.index ≠ some e.term

instance (log : RaftLog) (es : List LogEntry) : Decidable (Conflicts log es) :=
  inferInstanceAs (Decidable (∃ e ∈ es, _ ∧ _))

/-- Where an accepted request raises the commit index, the index reached is covered by the
request, or the request cuts the log, or the node has there an entry of the term that the
sender had there when it sent the request. -/
def CommitSound (c : Cluster) (a : Action) : Prop :=
  match c.arriving a with
  | some p =>
      match p.envelope.message with
      | .appendEntries req =>
          let n := c.nodes p.envelope.recipient.asStr
          let reached := min req.leaderCommit n.log.lastIndex
          n.log.currentTerm ≤ req.term → ¬ Mismatch n req → n.commitIndex < req.leaderCommit →
            reached ≤ req.prevLogIndex + req.entries.toVec.length ∨
            Conflicts n.log req.entries.toVec ∨
            n.log.termAt reached = p.origin.log.termAt reached
      | _ => True
  | none => True

instance (c : Cluster) (a : Action) : Decidable (c.CommitSound a) := by
  unfold CommitSound
  exact match c.arriving a with
    | some ⟨⟨_, _, message⟩, _, _⟩ =>
        match message with
        | .appendEntries _ | .appendEntriesResponse _ | .requestVote _ | .requestVoteResponse _
        | .clientRequest _ | .clientResponse _ => inferInstance
    | none => inferInstance

/-- An accepted request changes no entry that a pending client waits for: none of its
entries at or below a pending index conflicts with the log, and its entry for a pending
index is the one already there. -/
def PendingSound (c : Cluster) (a : Action) : Prop :=
  match c.arriving a with
  | some p =>
      match p.envelope.message with
      | .appendEntries req =>
          let n := c.nodes p.envelope.recipient.asStr
          n.log.currentTerm ≤ req.term → ¬ Mismatch n req →
            ∀ idx ∈ n.pendingRequests.keys, ∀ e ∈ req.entries.toVec,
              (e.index ≤ idx → n.log.termAt e.index = none ∨
                n.log.termAt e.index = some e.term) ∧
              (e.index = idx → n.log.get idx = some e)
      | _ => True
  | none => True

instance (c : Cluster) (a : Action) : Decidable (c.PendingSound a) := by
  unfold PendingSound
  exact match c.arriving a with
    | some ⟨⟨_, _, message⟩, _, _⟩ =>
        match message with
        | .appendEntries _ | .appendEntriesResponse _ | .requestVote _ | .requestVoteResponse _
        | .clientRequest _ | .clientResponse _ => inferInstance
    | none => inferInstance

end Cluster

end RaftEbpf
