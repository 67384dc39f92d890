import RaftEbpf.Proofs.Neutral

/-!
# `RaftEbpf.Proofs.Electing`: what elections, votes and heartbeats write

Elections, votes, heartbeats and answers write the term and the vote, the role, the leader hint,
the votes received and the progress of the peers, and nothing else (`Electing`). The lemmas say so
of whole functions, with `Prog.Only`. What such functions leave alone follows from it, for the
indexes in `KeepsIndexes` and for the peers in `Membership`.
-/

set_option autoImplicit false

namespace RaftEbpf.RaftNode

open RaftEbpf.Lib (Prog)

/-- A write of what elections change: `state.json` and its copy in memory, and the fields that say
who leads and how far the peers are. -/
def Electing (f : RaftNode → RaftNode) : Prop :=
  ∀ n, ∃ persistentState dataDir role leaderId nextIndex matchIndex votesReceived,
    f n = { n with
      log := { n.log with persistentState, dataDir }
      role, leaderId, nextIndex, matchIndex, votesReceived }

theorem electing_role (role : NodeRole) : Electing fun n => { n with role } :=
  fun n => ⟨n.log.persistentState, n.log.dataDir, role, n.leaderId, n.nextIndex, n.matchIndex,
    n.votesReceived, rfl⟩

/-- The hint may depend on the node. -/
theorem electing_leaderId (leaderId : RaftNode → Option String) :
    Electing fun n => { n with leaderId := leaderId n } :=
  fun n => ⟨n.log.persistentState, n.log.dataDir, n.role, leaderId n, n.nextIndex, n.matchIndex,
    n.votesReceived, rfl⟩

theorem electing_votesReceived (votes : RaftNode → List String) :
    Electing fun n => { n with votesReceived := votes n } :=
  fun n => ⟨n.log.persistentState, n.log.dataDir, n.role, n.leaderId, n.nextIndex, n.matchIndex,
    votes n, rfl⟩

/-- The program writes only what elections write, whatever it outputs. -/
abbrev Campaigns {α : Type} (p : NodeProg α) : Prop := p.Only LogExclusive Electing fun _ => True

theorem campaigns_setCurrentTerm (term : Nat) : Campaigns (setCurrentTerm term) := by
  intro r
  refine ⟨fun n => ?_, ?_⟩
  · cases r <;> exact ⟨_, _, n.role, n.leaderId, n.nextIndex, n.matchIndex, n.votesReceived, rfl⟩
  · cases r <;> trivial

theorem campaigns_setVotedFor (candidateId : String) : Campaigns (setVotedFor candidateId) := by
  intro r
  refine ⟨fun n => ?_, ?_⟩
  · cases r <;> exact ⟨_, _, n.role, n.leaderId, n.nextIndex, n.matchIndex, n.votesReceived, rfl⟩
  · cases r <;> trivial

theorem campaigns_setRole (role : NodeRole) : Campaigns (setRole role) := by
  rw [← Prog.bind_done (setRole role), setRole, Campaigns, only_withWrite_bind]
  exact ⟨electing_role role, trivial⟩

theorem campaigns_sendAppendEntriesResponse (recipient : String) (term : Nat) (success : Bool) :
    Campaigns (sendAppendEntriesResponse recipient term success) := by
  simp only [Campaigns, sendAppendEntriesResponse, only_lock_bind, only_get_bind]
  exact fun n => (only_sendAll fun _ _ => trivial).bind fun _ => only_unlock _

theorem campaigns_sendRequestVoteResponse (recipient : String) (term : Nat) (voteGranted : Bool) :
    Campaigns (sendRequestVoteResponse recipient term voteGranted) := by
  simp only [Campaigns, sendRequestVoteResponse, only_get_bind]
  exact fun n => only_sendAll fun _ _ => trivial

theorem campaigns_sendHeartbeats : Campaigns sendHeartbeats := by
  simp only [Campaigns, sendHeartbeats, only_withRead_bind, ne_eq, reduceCtorEq, not_false_eq_true]
  refine fun n => .ite (fun _ => trivial) fun _ => ?_
  simp only [only_lockAt_bind, only_get_bind, only_withRead_bind, only_readLock_bind, ne_eq,
    reduceCtorEq, not_false_eq_true]
  exact fun n₁ n₂ n₃ => (only_sendAll fun _ _ => trivial).bind fun _ => by simp

theorem campaigns_becomeLeader : Campaigns becomeLeader := by
  simp only [Campaigns, becomeLeader, only_withWriteAt_bind, only_withWrite_bind, only_lock_bind,
    only_get_bind, only_unlock_bind, only_readLock_bind, only_modify_bind, ne_eq, reduceCtorEq,
    not_false_eq_true]
  refine ⟨electing_role _, electing_leaderId _, fun n => ⟨fun n' => ?_, campaigns_sendHeartbeats⟩⟩
  exact ⟨n'.log.persistentState, n'.log.dataDir, n'.role, n'.leaderId, _, _, n'.votesReceived, rfl⟩

/-! ### Elections -/

theorem campaigns_campaign (newTerm : Nat) : Campaigns (campaign newTerm) := by
  refine (campaigns_setRole _).bind fun _ => ?_
  simp only [only_withWrite_bind, only_get_bind, only_readLock_bind, ne_eq, reduceCtorEq,
    not_false_eq_true]
  refine ⟨electing_votesReceived _, fun n₁ n₂ => ?_⟩
  refine (only_sendAll fun _ _ => trivial).bind fun _ => .ite (fun _ => ?_) fun _ => ?_
  · simp only [only_emit_bind, only_unlock_bind]
    exact ⟨trivial, campaigns_becomeLeader⟩
  · simp

theorem campaigns_startElection : Campaigns startElection := by
  rw [startElection_eq, Campaigns, only_lockAt_bind]
  exact fun n => (campaigns_setCurrentTerm _).bind fun _ => (campaigns_setVotedFor _).bind fun _ =>
    campaigns_campaign _

theorem campaigns_stepDown (term : Nat) : Campaigns (stepDown term) := by
  simp only [Campaigns, stepDown, only_unlock_bind, only_lockAt_bind]
  exact (campaigns_setCurrentTerm term).bind fun _ => (campaigns_setRole _).bind fun _ =>
    only_unlock _

theorem campaigns_castVote (sender : String) (req : RequestVoteRequest) :
    Campaigns (castVote sender req) := by
  simp only [Campaigns, castVote, only_get_bind]
  refine fun n => .ite (fun _ => ?_) fun _ => ?_
  · exact (campaigns_setVotedFor _).bind fun _ n' =>
      (campaigns_sendRequestVoteResponse _ _ _).bind fun _ => only_unlock _
  · exact (campaigns_sendRequestVoteResponse _ _ _).bind fun _ => only_unlock _

theorem campaigns_handleRequestVote (sender : String) (req : RequestVoteRequest) :
    Campaigns (handleRequestVote sender req) := by
  simp only [handleRequestVote_eq, Campaigns, only_lock_bind, only_get_bind]
  refine fun n => .ite (fun _ => ?_) fun _ => .ite (fun _ => ?_) fun _ => ?_
  · exact (campaigns_sendRequestVoteResponse _ _ _).bind fun _ => only_unlock _
  · exact (campaigns_setCurrentTerm _).bind fun _ => (campaigns_setRole _).bind fun _ =>
      campaigns_castVote sender req
  · exact campaigns_castVote sender req

theorem campaigns_countVote (sender : String) : Campaigns (countVote sender) := by
  simp only [Campaigns, countVote, only_lock_bind, only_modify_bind, only_readLock_bind,
    only_get_bind, ne_eq, reduceCtorEq, not_false_eq_true]
  refine ⟨fun n => ?_, fun n => .ite (fun _ => ?_) fun _ => ?_⟩
  · by_cases hvoted : sender ∈ n.votesReceived
    · exact ⟨n.log.persistentState, n.log.dataDir, n.role, n.leaderId, n.nextIndex, n.matchIndex,
        n.votesReceived, if_pos hvoted⟩
    · exact ⟨n.log.persistentState, n.log.dataDir, n.role, n.leaderId, n.nextIndex, n.matchIndex,
        n.votesReceived ++ [sender], if_neg hvoted⟩
  · simp only [only_emit_bind, only_unlock_bind]
    exact ⟨trivial, campaigns_becomeLeader⟩
  · simp

theorem campaigns_handleRequestVoteResponse (sender : String) (resp : RequestVoteResponse) :
    Campaigns (handleRequestVoteResponse sender resp) := by
  simp only [handleRequestVoteResponse_eq, Campaigns, only_lock_bind, only_withRead_bind, ne_eq,
    reduceCtorEq, not_false_eq_true]
  refine fun n => .ite (fun _ => only_unlock _) fun _ => ?_
  simp only [only_get_bind]
  exact fun n' => .ite (fun _ => campaigns_stepDown _) fun _ =>
    .ite (fun _ => campaigns_countVote sender) fun _ => only_unlock _

end RaftEbpf.RaftNode
