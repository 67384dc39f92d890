import RaftEbpf.Proofs.Electing

/-!
# `RaftEbpf.Proofs.KeepsIndexes`: what leaves the indexes of a node alone

Elections, votes, heartbeats and answers neither append nor commit nor apply, and they leave
the waiting clients alone (`aside_of_campaigns`). What is left is `propose`,
`handle_append_entries` after its term check and `try_advance_commit_index`. The second is cut
once more, where its entries are stored (`followCommit`).
-/

set_option autoImplicit false

namespace RaftEbpf.RaftNode

open RaftEbpf.Lib (Prog)

/-- A write that leaves `commit_index`, `last_applied`, `last_index` and `pending_requests` as
they are. -/
structure KeepsIndexes (f : RaftNode → RaftNode) : Prop where
  commitIndex : ∀ n, (f n).commitIndex = n.commitIndex
  lastApplied : ∀ n, (f n).lastApplied = n.lastApplied
  lastIndex : ∀ n, (f n).log.lastIndex = n.log.lastIndex
  pendingRequests : ∀ n, (f n).pendingRequests = n.pendingRequests

theorem keepsIndexes_setRole (role : NodeRole) : KeepsIndexes fun n => { n with role } :=
  ⟨fun _ => rfl, fun _ => rfl, fun _ => rfl, fun _ => rfl⟩

theorem keepsIndexes_leaderId (leaderId : Option String) :
    KeepsIndexes fun n => { n with leaderId } :=
  ⟨fun _ => rfl, fun _ => rfl, fun _ => rfl, fun _ => rfl⟩

/-- The program leaves the indexes alone, whatever it outputs. -/
abbrev Aside {α : Type} (p : NodeProg α) : Prop := p.Only LogExclusive KeepsIndexes fun _ => True

theorem Electing.keepsIndexes {f : RaftNode → RaftNode} (hf : Electing f) : KeepsIndexes f := by
  have hkeeps : ∀ n, (f n).commitIndex = n.commitIndex ∧ (f n).lastApplied = n.lastApplied ∧
      (f n).log.lastIndex = n.log.lastIndex ∧ (f n).pendingRequests = n.pendingRequests := by
    intro n
    obtain ⟨_, _, _, _, _, _, _, heq⟩ := hf n
    rw [heq]
    exact ⟨rfl, rfl, rfl, rfl⟩
  exact ⟨fun n => (hkeeps n).1, fun n => (hkeeps n).2.1, fun n => (hkeeps n).2.2.1,
    fun n => (hkeeps n).2.2.2⟩

theorem aside_of_campaigns {α : Type} {p : NodeProg α} (h : Campaigns p) : Aside p :=
  h.mono (fun _ => Electing.keepsIndexes) fun _ => id

theorem aside_sendAppendEntriesResponse (recipient : String) (term : Nat) (success : Bool) :
    Aside (sendAppendEntriesResponse recipient term success) :=
  aside_of_campaigns (campaigns_sendAppendEntriesResponse recipient term success)

theorem aside_sendHeartbeats : Aside sendHeartbeats := aside_of_campaigns campaigns_sendHeartbeats

theorem aside_startElection : Aside startElection := aside_of_campaigns campaigns_startElection

theorem aside_stepDown (term : Nat) : Aside (stepDown term) :=
  aside_of_campaigns (campaigns_stepDown term)

theorem aside_handleRequestVote (sender : String) (req : RequestVoteRequest) :
    Aside (handleRequestVote sender req) :=
  aside_of_campaigns (campaigns_handleRequestVote sender req)

theorem aside_handleRequestVoteResponse (sender : String) (resp : RequestVoteResponse) :
    Aside (handleRequestVoteResponse sender resp) :=
  aside_of_campaigns (campaigns_handleRequestVoteResponse sender resp)

/-! ### Applying and answering -/

section
variable {W : (RaftNode → RaftNode) → Prop}

/-- The writes of `apply_committed_entries`: the count, and the state machine. -/
theorem only_applyCommittedEntries_of
    (hcount : W fun n => { n with lastApplied := n.lastApplied + 1 })
    (happly : ∀ entry, W fun n => { n with stateMachine := n.stateMachine.apply entry }) :
    applyCommittedEntries.Only LogExclusive W fun _ => True := by
  have hloop : ∀ steps, (applyEntries steps).Only LogExclusive W fun _ => True := by
    intro steps
    induction steps with
    | zero => trivial
    | succ steps ih =>
        simp only [applyEntries, only_modify_bind, only_get_bind]
        refine ⟨hcount, fun n => ?_⟩
        split
        · simp only [only_modify_bind, only_emit_bind]
          exact ⟨happly _, trivial, ih⟩
        · exact ih
  simp only [applyCommittedEntries, only_withRead_bind, only_lock_bind, only_get_bind, ne_eq,
    reduceCtorEq, not_false_eq_true]
  exact fun n n' => (hloop _).bind fun _ => by simp

/-- The writes of `notify_pending_requests`: a channel is removed. -/
theorem only_notifyPendingRequests_of
    (herase : ∀ idx, W fun n => { n with pendingRequests := n.pendingRequests.erase idx })
    (upToIndex : Nat) :
    (notifyPendingRequests upToIndex).Only LogExclusive W fun _ => True := by
  have hloop : ∀ indices, (notifyEach indices).Only LogExclusive W fun _ => True := by
    intro indices
    induction indices with
    | nil => trivial
    | cons idx rest ih =>
        simp only [notifyEach, only_get_bind]
        intro n
        split
        · simp only [only_modify_bind, only_emit_bind]
          exact ⟨herase idx, trivial, ih⟩
        · exact ih
  simp only [notifyPendingRequests, only_lock_bind, only_get_bind]
  exact fun n => (hloop _).bind fun _ => by simp

end

/-! ### The commit of a follower -/

/-- `handle_append_entries` once the entries are stored. -/
def followCommit (sender : String) (req : AppendEntriesRequest) (currentTerm : Nat) :
    NodeProg Unit := do
  let commitIndex ← withRead .commitIndex (·.commitIndex)
  if req.leaderCommit > commitIndex then
    let n ← get
    let lastNewEntry := n.log.lastIndex
    withWrite .commitIndex fun n =>
      { n with commitIndex := min req.leaderCommit lastNewEntry }
  unlock .log
  applyCommittedEntries
  sendAppendEntriesResponse sender currentTerm true

theorem afterTermCheck_eq (sender : String) (req : AppendEntriesRequest) (currentTerm : Nat) :
    afterTermCheck sender req currentTerm = (do
      withWrite .leaderId fun n => { n with leaderId := some req.leaderId.asStr }
      let n ← get
      if req.prevLogIndex > 0 ∧ n.log.hasEntry req.prevLogIndex req.prevLogTerm = false then
        sendAppendEntriesResponse sender n.log.currentTerm false
        unlock .log
      else
        if req.entries.toVec ≠ [] then
          modify fun n => { n with log := deleteConflicting n.log req.entries.toVec }
          modify fun n => { n with log := n.log.appendEntries req.entries.toVec }
        followCommit sender req currentTerm) := rfl

end RaftEbpf.RaftNode
