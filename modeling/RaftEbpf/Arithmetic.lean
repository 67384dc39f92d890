import RaftEbpf.Operations

/-!
# `RaftEbpf.Arithmetic`: the increments of a node and its election timeout

Every `+ 1` on a `u64` in `raft/src/node.rs` and `raft/src/log.rs`, and `election_timeout`.
`increments` lists those that an operation comes to, each with the value it is applied to. The
release build wraps an increment of `u64::MAX`, the debug build panics there.

The other `+ 1` are on lengths. `saturating_sub` cannot fail, and `last_applied` is counted up to
`commit_index` only.
-/

set_option autoImplicit false

namespace RaftEbpf

/-- The fields of `TimingConfig` that `election_timeout` reads. -/
structure TimingConfig where
  /-- Minimum election timeout in milliseconds. -/
  electionTimeoutMinMs : Nat
  /-- Maximum election timeout in milliseconds. -/
  electionTimeoutMaxMs : Nat

/-- `TimingConfig::default`. -/
def TimingConfig.default : TimingConfig := ⟨150, 300⟩

/-- `gen_range(min..=max)` of `rand`: a value of the range, chosen by `draw`. `none`: the range is
empty, and it panics. -/
def genRange (draw min max : Nat) : Option Nat :=
  if min ≤ max then some (min + draw % (max - min + 1)) else none

/-- `election_timeout`. `Config::load` does not compare the two bounds. -/
def electionTimeout (timing : TimingConfig) (draw : Nat) : Option Nat :=
  genRange draw timing.electionTimeoutMinMs timing.electionTimeoutMaxMs

/-- It panics on no draw exactly if the bounds are in order. -/
theorem electionTimeout_isSome_iff (timing : TimingConfig) :
    (∀ draw, (electionTimeout timing draw).isSome = true) ↔
      timing.electionTimeoutMinMs ≤ timing.electionTimeoutMaxMs := by
  simp only [electionTimeout, genRange]
  split
  · rename_i hle
    exact iff_of_true (fun _ => rfl) hle
  · rename_i hnot
    exact iff_of_false (fun h => absurd (h 0) (by simp)) hnot

/-- An increment, by what it is applied to. -/
inductive Increment where
  /-- `current_term + 1` in `start_election`. -/
  | currentTerm
  /-- `last_index + 1` in `become_leader`, `add_peer` and `RaftLog::append`. -/
  | lastIndex
  /-- `new_match + 1` in `handle_append_entries_response`. -/
  | newMatch (lastLogIndex : Nat)
  /-- `current_commit + 1` in `try_advance_commit_index`. -/
  | currentCommit
  deriving DecidableEq

namespace RaftNode

/-- The value that it is applied to. -/
def operand (n : RaftNode) : Increment → Nat
  | .currentTerm => n.log.currentTerm
  | .lastIndex => n.log.lastIndex
  | .newMatch lastLogIndex => lastLogIndex
  | .currentCommit => n.commitIndex

/-- A vote from this sender reaches the threshold. -/
def VoteSuffices (n : RaftNode) (sender : String) : Prop :=
  let votes := if sender ∈ n.votesReceived then n.votesReceived else n.votesReceived ++ [sender]
  votes.length + 1 ≥ majority n.peers

instance (n : RaftNode) (sender : String) : Decidable (n.VoteSuffices sender) :=
  inferInstanceAs (Decidable (_ ≥ _))

/-- The increments that an operation comes to, in order. None of them comes after a write of
`state.json`, so no failed write leaves one out. -/
def increments (n : RaftNode) : Operation → List Increment
  | .handleMessage env =>
      match env.message with
      | .appendEntriesResponse resp =>
          if n.role = .leader ∧ resp.term ≤ n.log.currentTerm ∧ resp.success = true then
            [.newMatch resp.lastLogIndex, .currentCommit]
          else []
      | .requestVoteResponse resp =>
          if n.role = .candidate ∧ resp.term ≤ n.log.currentTerm ∧ resp.voteGranted = true ∧
              n.VoteSuffices env.sender.asStr then
            -- `become_leader` computes the next index once for each peer.
            n.peers.keys.map fun _ => .lastIndex
          else []
      | _ => []
  -- `start_election` goes on to `become_leader` only where there are no peers.
  | .startElection => [.currentTerm]
  | .propose _ _ => if n.role = .leader then [.lastIndex] else []
  | .addPeer _ _ => if n.role = .leader then [.lastIndex] else []
  | _ => []

/-- No draw of the election timeout panics, and no increment of the operation wraps. -/
def ArithmeticHolds (n : RaftNode) (timing : TimingConfig) (op : Operation) : Prop :=
  (∀ draw, (electionTimeout timing draw).isSome = true) ∧
    ∀ inc ∈ n.increments op, addOne (n.operand inc) = n.operand inc + 1

end RaftNode

end RaftEbpf
