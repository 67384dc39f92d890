import RaftEbpf.Node

/-!
# `RaftEbpf.Proofs.NodeRun`: what each handler does when it runs alone

The run equations of the functions of `RaftEbpf.Node`, lock waits aside and with every
write of `state.json` succeeding. Later modules cite these equations and do not unfold a
handler again.

Each equation names the state the function leaves behind: `raiseTerm` (a newer term seen),
`followed` (a leader heard), `accepted` (a request stored), `candidateOf`, `leaderOf`,
`voted`. Where a function applies entries or answers clients, the equation bounds what
these two parts change and what they output (`Applies`, `Notifies`).
-/

set_option autoImplicit false

namespace RaftEbpf.RaftNode

open RaftEbpf.Lib (HashMap Prog)

/-! ### The primitives -/

section Primitives
variable (cs : List WriteResult) (n : RaftNode)

@[simp] theorem run_lockAt (l : Lock) (site : Site) :
    (lockAt l site).run cs n = ⟨some (), n, [], cs⟩ := rfl

@[simp] theorem run_lock (l : Lock) : (lock l).run cs n = ⟨some (), n, [], cs⟩ := rfl

@[simp] theorem run_readLock (l : Lock) : (readLock l).run cs n = ⟨some (), n, [], cs⟩ := rfl

@[simp] theorem run_unlock (l : Lock) : (unlock l).run cs n = ⟨some (), n, [], cs⟩ := rfl

@[simp] theorem run_get : get.run cs n = ⟨some n, n, [], cs⟩ := rfl

@[simp] theorem run_modify (f : RaftNode → RaftNode) :
    (modify f).run cs n = ⟨some (), f n, [], cs⟩ := rfl

@[simp] theorem run_emit (o : Output) :
    (.emit o (.done ()) : NodeProg Unit).run cs n = ⟨some (), n, [o], cs⟩ := rfl

@[simp] theorem run_withRead {α : Type} (l : Lock) (f : RaftNode → α) :
    (withRead l f).run cs n = ⟨some (f n), n, [], cs⟩ := rfl

@[simp] theorem run_withWriteAt (l : Lock) (site : Site) (f : RaftNode → RaftNode) :
    (withWriteAt l site f).run cs n = ⟨some (), f n, [], cs⟩ := rfl

@[simp] theorem run_withWrite (l : Lock) (f : RaftNode → RaftNode) :
    (withWrite l f).run cs n = ⟨some (), f n, [], cs⟩ := rfl

@[simp] theorem run_setRole (role : NodeRole) :
    (setRole role).run cs n = ⟨some (), { n with role }, [], cs⟩ := rfl

@[simp] theorem run_sendAll (envs : List MessageEnvelope) :
    (sendAll envs).run cs n = ⟨some (), n, envs.map .send, cs⟩ := by
  induction envs with
  | nil => rfl
  | cons env envs ih => simp [sendAll, Prog.run_bind, ih]

@[simp] theorem run_setCurrentTerm (term : Nat) :
    (setCurrentTerm term).run [] n
      = ⟨some (), { n with log := n.log.setCurrentTerm term .ok }, [], []⟩ := rfl

@[simp] theorem run_setVotedFor (candidateId : String) :
    (setVotedFor candidateId).run [] n
      = ⟨some (), { n with log := n.log.setVotedFor (some candidateId) .ok }, [], []⟩ := rfl

end Primitives

/-! ### Applying entries and answering clients -/

/-- What applying committed entries leaves behind: only `last_applied` and the state
machine move, and every output is the application of an entry found in the log at an
index up to `commit_index`. -/
structure Applies (n n' : RaftNode) (out : List Output) : Prop where
  state : n' = { n with lastApplied := n'.lastApplied, stateMachine := n'.stateMachine }
  outputs : ∀ o ∈ out, ∃ i e, o = .applied i e ∧ n.log.get i = some e ∧ n.lastApplied < i
    ∧ i ≤ n.commitIndex

/-- The loop of `apply_committed_entries`. Induction on the number of turns; the log does
not change, so each turn looks its entry up in the log the loop started with. -/
theorem run_applyEntries (steps : Nat) (cs : List WriteResult) (n : RaftNode) :
    ∃ sm out, (applyEntries steps).run cs n
        = ⟨some (), { n with lastApplied := n.lastApplied + steps, stateMachine := sm }, out, cs⟩
      ∧ ∀ o ∈ out, ∃ i e, o = .applied i e ∧ n.log.get i = some e ∧ n.lastApplied < i
          ∧ i ≤ n.lastApplied + steps := by
  induction steps generalizing n with
  | zero => exact ⟨n.stateMachine, [], rfl, by simp⟩
  | succ steps ih =>
      cases he : n.log.get (n.lastApplied + 1) with
      | none =>
          obtain ⟨sm, out, hrun, hout⟩ := ih { n with lastApplied := n.lastApplied + 1 }
          refine ⟨sm, out, ?_, ?_⟩
          · simp [applyEntries, Prog.run_bind, he, hrun]
            omega
          · intro o ho
            obtain ⟨i, e, h1, h2, h3, h4⟩ := hout o ho
            exact ⟨i, e, h1, h2, by simp at h3; omega, by simp at h4; omega⟩
      | some entry =>
          obtain ⟨sm, out, hrun, hout⟩ := ih
            { n with
              lastApplied := n.lastApplied + 1
              stateMachine := n.stateMachine.apply entry }
          refine ⟨sm, .applied (n.lastApplied + 1) entry :: out, ?_, ?_⟩
          · simp [applyEntries, Prog.run_bind, he, hrun]
            omega
          · intro o ho
            rcases List.mem_cons.mp ho with rfl | ho
            · exact ⟨n.lastApplied + 1, entry, rfl, he, by omega, by omega⟩
            · obtain ⟨i, e, h1, h2, h3, h4⟩ := hout o ho
              exact ⟨i, e, h1, h2, by simp at h3; omega, by simp at h4; omega⟩

/-- `apply_committed_entries` alone. -/
theorem run_applyCommittedEntries (cs : List WriteResult) (n : RaftNode) :
    ∃ n' out, applyCommittedEntries.run cs n = ⟨some (), n', out, cs⟩ ∧ Applies n n' out := by
  obtain ⟨sm, out, hrun, hout⟩ := run_applyEntries (n.commitIndex - n.lastApplied) cs n
  refine ⟨{ n with
    lastApplied := n.lastApplied + (n.commitIndex - n.lastApplied)
    stateMachine := sm }, out, ?_, rfl, ?_⟩
  · simp [applyCommittedEntries, Prog.run_bind, hrun]
  · intro o ho
    obtain ⟨i, e, h1, h2, h3, h4⟩ := hout o ho
    exact ⟨i, e, h1, h2, h3, by omega⟩

/-- What telling the pending clients leaves behind: only channels go, and each one told
was registered at an index up to `upTo`. -/
structure Notifies (upTo : Nat) (n n' : RaftNode) (out : List Output) : Prop where
  state : n' = { n with pendingRequests := n'.pendingRequests }
  pending : ∀ idx tx, n'.pendingRequests.lookup idx = some tx →
    n.pendingRequests.lookup idx = some tx
  outputs : ∀ o ∈ out, ∃ idx tx, o = .reply tx (.success idx)
    ∧ n.pendingRequests.lookup idx = some tx ∧ idx ≤ upTo

/-- The loop of `notify_pending_requests`, over indices up to `upTo`. -/
theorem run_notifyEach (upTo : Nat) (cs : List WriteResult) :
    ∀ (indices : List Nat) (n : RaftNode), (∀ idx ∈ indices, idx ≤ upTo) →
      ∃ n' out, (notifyEach indices).run cs n = ⟨some (), n', out, cs⟩
        ∧ Notifies upTo n n' out := by
  intro indices
  induction indices with
  | nil => intro n _; exact ⟨n, [], rfl, rfl, fun _ _ h => h, by simp⟩
  | cons idx rest ih =>
      intro n hle
      have hrest : ∀ i ∈ rest, i ≤ upTo := fun i hi => hle i (List.mem_cons_of_mem _ hi)
      cases htx : n.pendingRequests.lookup idx with
      | none =>
          obtain ⟨n', out, hrun, hn⟩ := ih n hrest
          exact ⟨n', out, by simp [notifyEach, Prog.run_bind, htx, hrun], hn⟩
      | some tx =>
          obtain ⟨n', out, hrun, hstate, hpend, hout⟩ :=
            ih { n with pendingRequests := n.pendingRequests.erase idx } hrest
          -- A channel still registered after the removal was registered before it.
          have hback : ∀ i t, (n.pendingRequests.erase idx).lookup i = some t →
              n.pendingRequests.lookup i = some t := by
            intro i t hi
            by_cases hii : i = idx
            · subst hii
              simp [AList.lookup_erase] at hi
            · rwa [AList.lookup_erase_ne hii] at hi
          refine ⟨n', .reply tx (.success idx) :: out, ?_, ?_, ?_, ?_⟩
          · simp [notifyEach, Prog.run_bind, htx, hrun]
          · rw [hstate]
          · exact fun i t h => hback i t (hpend i t h)
          · intro o ho
            rcases List.mem_cons.mp ho with rfl | ho
            · exact ⟨idx, tx, rfl, htx, hle idx List.mem_cons_self⟩
            · obtain ⟨i, t, h1, h2, h3⟩ := hout o ho
              exact ⟨i, t, h1, hback i t h2, h3⟩

/-- `notify_pending_requests` alone. -/
theorem run_notifyPendingRequests (upTo : Nat) (cs : List WriteResult) (n : RaftNode) :
    ∃ n' out, (notifyPendingRequests upTo).run cs n = ⟨some (), n', out, cs⟩
      ∧ Notifies upTo n n' out := by
  obtain ⟨n', out, hrun, hn⟩ := run_notifyEach upTo cs
    (n.pendingRequests.keys.filter (fun idx => decide (idx ≤ upTo))) n
    (fun idx h => by simpa using (List.mem_filter.mp h).2)
  exact ⟨n', out, by simp [notifyPendingRequests, Prog.run_bind, hrun], hn⟩

/-- What a commit leaves behind: `commit_index` is `k`, entries are applied, clients told. -/
structure Commits (k : Nat) (n n' : RaftNode) (out : List Output) : Prop where
  state : n' = { n with
    commitIndex := k
    lastApplied := n'.lastApplied
    stateMachine := n'.stateMachine
    pendingRequests := n'.pendingRequests }
  pending : ∀ idx tx, n'.pendingRequests.lookup idx = some tx →
    n.pendingRequests.lookup idx = some tx
  outputs : ∀ o ∈ out,
    (∃ i e, o = .applied i e ∧ n.log.get i = some e ∧ i ≤ k) ∨
    (∃ idx tx, o = .reply tx (.success idx) ∧ n.pendingRequests.lookup idx = some tx ∧ idx ≤ k)

/-- Where the scan finds nothing, or the node is not Leader, `try_advance_commit_index` does
nothing. -/
theorem run_tryAdvanceCommitIndex_none (cs : List WriteResult) {n : RaftNode}
    (h : n.role = .leader → findCommit n n.commitIndex = none) :
    tryAdvanceCommitIndex.run cs n = ⟨some (), n, [], cs⟩ := by
  by_cases hrole : n.role = .leader
  · simp [tryAdvanceCommitIndex, Prog.run_bind, hrole, h hrole]
  · simp [tryAdvanceCommitIndex, Prog.run_bind, hrole]

/-- Where the scan of a Leader finds `k`, `try_advance_commit_index` sets `commit_index` to
it, applies what is committed and tells the clients. -/
theorem run_tryAdvanceCommitIndex_some {cs : List WriteResult} {n n1 : RaftNode} {k : Nat}
    {out1 : List Output} (hrole : n.role = .leader) (hk : findCommit n n.commitIndex = some k)
    (hrun : applyCommittedEntries.run cs { n with commitIndex := k } = ⟨some (), n1, out1, cs⟩) :
    ∃ n2 out2, tryAdvanceCommitIndex.run cs n = ⟨some (), n2, out1 ++ out2, cs⟩
      ∧ Notifies k n1 n2 out2 := by
  obtain ⟨n2, out2, hrun2, hn⟩ := run_notifyPendingRequests k cs n1
  refine ⟨n2, out2, ?_, hn⟩
  rw [hrole] at hrun
  simp [tryAdvanceCommitIndex, Prog.run_bind, hrole, hk, hrun, hrun2]

/-- `try_advance_commit_index` does nothing, for the scan found nothing, or it commits what the
scan found. -/
theorem run_tryAdvanceCommitIndex (cs : List WriteResult) (n : RaftNode) :
    (tryAdvanceCommitIndex.run cs n = ⟨some (), n, [], cs⟩ ∧
      (n.role = .leader → findCommit n n.commitIndex = none)) ∨
    ∃ k n' out, n.role = .leader ∧ findCommit n n.commitIndex = some k ∧
      tryAdvanceCommitIndex.run cs n = ⟨some (), n', out, cs⟩ ∧ Commits k n n' out := by
  by_cases hrole : n.role = .leader
  · cases hk : findCommit n n.commitIndex with
    | none => exact Or.inl ⟨run_tryAdvanceCommitIndex_none cs fun _ => hk, fun _ => rfl⟩
    | some k =>
        right
        obtain ⟨n1, out1, hrun1, ha⟩ := run_applyCommittedEntries cs { n with commitIndex := k }
        obtain ⟨n2, out2, hrun2, hn⟩ := run_tryAdvanceCommitIndex_some hrole hk hrun1
        have hpend1 : n1.pendingRequests = n.pendingRequests := by rw [ha.state]
        refine ⟨k, n2, out1 ++ out2, hrole, rfl, hrun2, ?_, ?_, ?_⟩
        · rw [hn.state, ha.state]
        · intro idx tx h
          rw [← hpend1]
          exact hn.pending idx tx h
        · intro o ho
          rcases List.mem_append.mp ho with ho | ho
          · obtain ⟨i, e, h1, h2, -, h4⟩ := ha.outputs o ho
            exact Or.inl ⟨i, e, h1, h2, h4⟩
          · obtain ⟨idx, tx, h1, h2, h3⟩ := hn.outputs o ho
            exact Or.inr ⟨idx, tx, h1, hpend1 ▸ h2, h3⟩
  · exact Or.inl ⟨run_tryAdvanceCommitIndex_none cs fun h => absurd h hrole,
      fun h => absurd h hrole⟩

/-! ### Leadership -/

/-- The heartbeats a node sends: one request for each peer, none unless it is Leader. -/
def heartbeats (n : RaftNode) : List Output :=
  if n.role = .leader then
    n.peers.keys.map fun peerId => .send (.new n.nodeId peerId
      (.appendEntries (heartbeatRequest n n.log.currentTerm n.commitIndex peerId)))
  else []

/-- Heartbeats are envelopes. -/
theorem exists_send_of_mem_heartbeats {n : RaftNode} {o : Output} (h : o ∈ heartbeats n) :
    ∃ env, o = .send env := by
  unfold heartbeats at h
  split at h
  · obtain ⟨p, -, rfl⟩ := List.mem_map.mp h
    exact ⟨_, rfl⟩
  · simp at h

/-- Heartbeats apply no entry. -/
theorem applied_notMem_heartbeats (n : RaftNode) (i : Nat) (e : LogEntry) :
    Output.applied i e ∉ heartbeats n := by
  intro h
  obtain ⟨env, henv⟩ := exists_send_of_mem_heartbeats h
  cases henv

/-- `send_heartbeats` alone. -/
@[simp] theorem run_sendHeartbeats (cs : List WriteResult) (n : RaftNode) :
    sendHeartbeats.run cs n = ⟨some (), n, heartbeats n, cs⟩ := by
  by_cases h : n.role = .leader
  · simp [sendHeartbeats, heartbeats, Prog.run_bind, h]
  · simp [sendHeartbeats, heartbeats, Prog.run_bind, h]

/-- The state `become_leader` leaves behind. -/
def leaderOf (n : RaftNode) : RaftNode :=
  { n with
    role := .leader
    leaderId := some n.nodeId
    nextIndex := n.peers.keys.foldl (fun m id => m.insert id (addOne n.log.lastIndex)) n.nextIndex
    matchIndex := n.peers.keys.foldl (fun m id => m.insert id 0) n.matchIndex }

/-- `become_leader` alone. -/
@[simp] theorem run_becomeLeader (cs : List WriteResult) (n : RaftNode) :
    becomeLeader.run cs n = ⟨some (), leaderOf n, heartbeats (leaderOf n), cs⟩ := by
  simp [becomeLeader, Prog.run_bind, leaderOf]

/-- The state `start_election` leaves behind where there are peers. -/
def candidateOf (n : RaftNode) : RaftNode :=
  { n with
    log := (n.log.setCurrentTerm (addOne n.log.currentTerm) .ok).setVotedFor (some n.nodeId) .ok
    role := .candidate
    votesReceived := [n.nodeId] }

/-- The request a candidate sends to every peer. -/
def voteRequest (n : RaftNode) : RequestVoteRequest where
  term := addOne n.log.currentTerm
  candidateId := .pushStr 64 n.nodeId
  lastLogIndex := n.log.lastIndex
  lastLogTerm := n.log.lastTerm

/-- `start_election` alone. A node without peers becomes Leader at once. -/
theorem run_startElection (n : RaftNode) :
    startElection.run [] n =
      if n.peers.keys = [] then
        ⟨some (), leaderOf (candidateOf n),
          .elected (addOne n.log.currentTerm) :: heartbeats (leaderOf (candidateOf n)), []⟩
      else
        ⟨some (), candidateOf n,
          n.peers.keys.map fun peerId =>
            .send (.new n.nodeId peerId (.requestVote (voteRequest n))), []⟩ := by
  by_cases h : n.peers.keys = []
  · have hc : (candidateOf n).peers.keys = [] := h
    simp [startElection, Prog.run_bind, candidateOf, h]
  · simp [startElection, Prog.run_bind, candidateOf, h, voteRequest, Function.comp_def]
    exact fun _ _ => rfl

/-- `propose` alone. -/
theorem run_propose (cs : List WriteResult) (n : RaftNode) (command : Command) (tx : Sender) :
    (propose command tx).run cs n =
      if n.role = .leader then
        let index := (n.log.append n.log.currentTerm command).2
        let n' := { n with
          log := (n.log.append n.log.currentTerm command).1
          pendingRequests := n.pendingRequests.insert index tx }
        ⟨some (), n', .appended tx ⟨index, n.log.currentTerm, command⟩ :: heartbeats n', cs⟩
      else ⟨some (), n, [.reply tx (.notLeader n.leaderId)], cs⟩ := by
  by_cases h : n.role = .leader
  · simp [propose, Prog.run_bind, h]
  · simp [propose, Prog.run_bind, h]

/-! ### The message handlers -/

/-- The answer `send_append_entries_response` builds. -/
def appendEntriesAnswer (n : RaftNode) (recipient : String) (term : Nat) (success : Bool) :
    MessageEnvelope :=
  .new n.nodeId recipient (.appendEntriesResponse
    { term := term
      success := success
      lastLogIndex := n.log.lastIndex
      nodeId := .pushStr 64 n.nodeId })

@[simp] theorem run_sendAppendEntriesResponse (cs : List WriteResult) (n : RaftNode)
    (recipient : String) (term : Nat) (success : Bool) :
    (sendAppendEntriesResponse recipient term success).run cs n
      = ⟨some (), n, [.send (appendEntriesAnswer n recipient term success)], cs⟩ := by
  simp [sendAppendEntriesResponse, Prog.run_bind, appendEntriesAnswer]

/-- A newer term is stored and the node becomes Follower. -/
def raiseTerm (n : RaftNode) (term : Nat) : RaftNode :=
  if term > n.log.currentTerm then
    { n with log := n.log.setCurrentTerm term .ok, role := .follower }
  else n

/-- The state after the term check of `handle_append_entries` and the leader hint. -/
def followed (n : RaftNode) (req : AppendEntriesRequest) : RaftNode :=
  { raiseTerm n req.term with leaderId := some req.leaderId.asStr }

/-- The log after the entries of a request are stored: cut at the first conflict, then
appended. -/
def storeEntries (log : RaftLog) (entries : List LogEntry) : RaftLog :=
  if entries ≠ [] then (deleteConflicting log entries).appendEntries entries else log

/-- Storing entries leaves the persistent state and `state.json` alone. -/
theorem deleteConflicting_frame (log : RaftLog) (es : List LogEntry) :
    (deleteConflicting log es).persistentState = log.persistentState ∧
      (deleteConflicting log es).dataDir.stateJson = log.dataDir.stateJson := by
  induction es with
  | nil => exact ⟨rfl, rfl⟩
  | cons e es ih =>
      rw [deleteConflicting]
      split
      · split
        · exact ⟨rfl, rfl⟩
        · exact ih
      · exact ih

theorem appendEntries_frame (log : RaftLog) (es : List LogEntry) :
    (log.appendEntries es).persistentState = log.persistentState ∧
      (log.appendEntries es).dataDir.stateJson = log.dataDir.stateJson := by
  induction es generalizing log with
  | nil => exact ⟨rfl, rfl⟩
  | cons e es ih => exact ih (log.appendEntry e)

/-- The state of a node that accepts a request, before it applies entries. -/
def accepted (n : RaftNode) (req : AppendEntriesRequest) : RaftNode :=
  { followed n req with
    log := storeEntries (followed n req).log req.entries.toVec
    commitIndex :=
      if req.leaderCommit > n.commitIndex then
        min req.leaderCommit (storeEntries (followed n req).log req.entries.toVec).lastIndex
      else n.commitIndex }

/-- The consistency check of `handle_append_entries` fails. -/
def Mismatch (n : RaftNode) (req : AppendEntriesRequest) : Prop :=
  req.prevLogIndex > 0 ∧ n.log.hasEntry req.prevLogIndex req.prevLogTerm = false

instance (n : RaftNode) (req : AppendEntriesRequest) : Decidable (Mismatch n req) :=
  inferInstanceAs (Decidable (_ ∧ _))

@[simp] theorem raiseTerm_commitIndex (n : RaftNode) (term : Nat) :
    (raiseTerm n term).commitIndex = n.commitIndex := by
  unfold raiseTerm
  split <;> rfl

theorem raiseTerm_entries (n : RaftNode) (term : Nat) :
    (raiseTerm n term).log.entries = n.log.entries := by
  unfold raiseTerm
  split <;> rfl

theorem raiseTerm_pendingRequests (n : RaftNode) (term : Nat) :
    (raiseTerm n term).pendingRequests = n.pendingRequests := by
  unfold raiseTerm
  split <;> rfl

/-- The term check does not touch the entries. -/
@[simp] theorem raiseTerm_hasEntry (n : RaftNode) (term i t : Nat) :
    (raiseTerm n term).log.hasEntry i t = n.log.hasEntry i t := by
  unfold raiseTerm
  split <;> rfl

/-- A request of an older term is refused and changes nothing. -/
theorem run_handleAppendEntries_stale (n : RaftNode) (sender : String)
    (req : AppendEntriesRequest) (h : req.term < n.log.currentTerm) :
    (handleAppendEntries sender req).run [] n
      = ⟨some (), n, [.send (appendEntriesAnswer n sender n.log.currentTerm false)], []⟩ := by
  simp [handleAppendEntries, Prog.run_bind, h]

/-- A request whose previous entry is not in the log is refused after the term check. -/
theorem run_handleAppendEntries_mismatch (n : RaftNode) (sender : String)
    (req : AppendEntriesRequest) (h : ¬ req.term < n.log.currentTerm)
    (hm : Mismatch n req) :
    (handleAppendEntries sender req).run [] n
      = ⟨some (), followed n req, [.send (appendEntriesAnswer (followed n req) sender
          (followed n req).log.currentTerm false)], []⟩ := by
  obtain ⟨hp, he⟩ := hm
  by_cases ht : req.term > n.log.currentTerm
  · have he' : (n.log.setCurrentTerm req.term .ok).hasEntry req.prevLogIndex req.prevLogTerm
        = false := he
    simp [handleAppendEntries, Prog.run_bind, h, ht, hp, he', followed, raiseTerm]
  · simp [handleAppendEntries, Prog.run_bind, h, ht, hp, he, followed, raiseTerm]

/-- Any other request is accepted: its entries are stored, the commit index follows, what
is committed is applied, and one answer goes out. The answer carries the term the node had
on entry. -/
theorem run_handleAppendEntries_apply {n n' : RaftNode} (sender : String)
    {req : AppendEntriesRequest} {out : List Output} (h : ¬ req.term < n.log.currentTerm)
    (hm : ¬ Mismatch n req)
    (hrun : applyCommittedEntries.run [] (accepted n req) = ⟨some (), n', out, []⟩) :
    (handleAppendEntries sender req).run [] n
      = ⟨some (), n', out ++ [.send (appendEntriesAnswer n' sender n.log.currentTerm true)],
        []⟩ := by
  -- The guard of the mismatch branch, at the log after the term check.
  have hm' : ¬ (0 < req.prevLogIndex ∧
      (raiseTerm n req.term).log.hasEntry req.prevLogIndex req.prevLogTerm = false) := by
    rw [raiseTerm_hasEntry]
    exact hm
  by_cases ht : req.term > n.log.currentTerm <;>
    by_cases he : req.entries.toVec = [] <;>
    by_cases hc : req.leaderCommit > n.commitIndex <;>
    · simp only [raiseTerm, ht, if_true, if_false] at hm'
      simp [accepted, followed, raiseTerm, storeEntries, ht, he, hc] at hrun
      simp [handleAppendEntries, Prog.run_bind, h, ht, hm', he, hc, hrun]

/-- What an accepted request leaves behind, with the bounds of `Applies`. -/
theorem run_handleAppendEntries_accept (n : RaftNode) (sender : String)
    (req : AppendEntriesRequest) (h : ¬ req.term < n.log.currentTerm)
    (hm : ¬ Mismatch n req) :
    ∃ n' out, (handleAppendEntries sender req).run [] n
        = ⟨some (), n', out ++ [.send (appendEntriesAnswer n' sender n.log.currentTerm true)], []⟩
      ∧ Applies (accepted n req) n' out := by
  obtain ⟨n', out, hrun, ha⟩ := run_applyCommittedEntries [] (accepted n req)
  exact ⟨n', out, run_handleAppendEntries_apply sender h hm hrun, ha⟩

/-- The three ends of `handle_append_entries`: the request is of an older term, it does not fit
the log, or it is accepted. -/
theorem run_handleAppendEntries_cases (n : RaftNode) (sender : String)
    (req : AppendEntriesRequest) :
    (req.term < n.log.currentTerm ∧ (handleAppendEntries sender req).run [] n
        = ⟨some (), n, [.send (appendEntriesAnswer n sender n.log.currentTerm false)], []⟩) ∨
    (¬ req.term < n.log.currentTerm ∧ Mismatch n req ∧ (handleAppendEntries sender req).run [] n
        = ⟨some (), followed n req, [.send (appendEntriesAnswer (followed n req) sender
            (followed n req).log.currentTerm false)], []⟩) ∨
    (¬ req.term < n.log.currentTerm ∧ ¬ Mismatch n req ∧
      ∃ n' out, (handleAppendEntries sender req).run [] n = ⟨some (), n', out ++
          [.send (appendEntriesAnswer n' sender n.log.currentTerm true)], []⟩ ∧
        Applies (accepted n req) n' out) := by
  by_cases hold : req.term < n.log.currentTerm
  · exact Or.inl ⟨hold, run_handleAppendEntries_stale n sender req hold⟩
  · right
    by_cases hm : Mismatch n req
    · exact Or.inl ⟨hold, hm, run_handleAppendEntries_mismatch n sender req hold hm⟩
    · exact Or.inr ⟨hold, hm, run_handleAppendEntries_accept n sender req hold hm⟩

/-- The state after a success is recorded for a peer. -/
def acknowledged (n : RaftNode) (sender : String) (lastLogIndex : Nat) : RaftNode :=
  { n with
    matchIndex := n.matchIndex.insert sender lastLogIndex
    nextIndex := n.nextIndex.insert sender (addOne lastLogIndex) }

/-- The state after a refusal moved `next_index` back for a peer. -/
def backedOff (n : RaftNode) (sender : String) : RaftNode :=
  match n.nextIndex.lookup sender with
  | some idx => { n with nextIndex := n.nextIndex.insert sender (max (idx - 1) 1) }
  | none => n

/-- `handle_append_entries_response` alone, branch by branch. -/
theorem run_handleAppendEntriesResponse (n : RaftNode) (sender : String)
    (resp : AppendEntriesResponse) :
    (handleAppendEntriesResponse sender resp).run [] n =
      if n.role ≠ .leader then ⟨some (), n, [], []⟩
      else if resp.term > n.log.currentTerm then ⟨some (), raiseTerm n resp.term, [], []⟩
      else if resp.success then
        tryAdvanceCommitIndex.run [] (acknowledged n sender resp.lastLogIndex)
      else ⟨some (), backedOff n sender, [], []⟩ := by
  by_cases hr : n.role = .leader
  · by_cases ht : resp.term > n.log.currentTerm
    · simp [handleAppendEntriesResponse, Prog.run_bind, hr, ht, raiseTerm]
    · by_cases hs : resp.success
      · simp [handleAppendEntriesResponse, Prog.run_bind, hr, ht, hs, acknowledged]
      · cases hl : n.nextIndex.lookup sender <;>
          simp [handleAppendEntriesResponse, Prog.run_bind, hr, ht, hs, backedOff, hl]
  · simp [handleAppendEntriesResponse, Prog.run_bind, hr]

/-- The answer `send_request_vote_response` builds. -/
def requestVoteAnswer (n : RaftNode) (recipient : String) (term : Nat) (voteGranted : Bool) :
    MessageEnvelope :=
  .new n.nodeId recipient (.requestVoteResponse
    { term := term
      voteGranted := voteGranted
      nodeId := .pushStr 64 n.nodeId })

@[simp] theorem run_sendRequestVoteResponse (cs : List WriteResult) (n : RaftNode)
    (recipient : String) (term : Nat) (voteGranted : Bool) :
    (sendRequestVoteResponse recipient term voteGranted).run cs n
      = ⟨some (), n, [.send (requestVoteAnswer n recipient term voteGranted)], cs⟩ := by
  simp [sendRequestVoteResponse, Prog.run_bind, requestVoteAnswer]

/-- The two conditions of `handle_request_vote` for a grant: no vote for another candidate
in this term, and a log at least as up to date. -/
def CanVote (n : RaftNode) (req : RequestVoteRequest) : Prop :=
  (n.log.votedFor = none ∨ n.log.votedFor = some req.candidateId.asStr) ∧
  (req.lastLogTerm > n.log.lastTerm ∨
    (req.lastLogTerm = n.log.lastTerm ∧ req.lastLogIndex ≥ n.log.lastIndex))

instance (n : RaftNode) (req : RequestVoteRequest) : Decidable (CanVote n req) :=
  inferInstanceAs (Decidable (_ ∧ _))

/-- The state after a grant. -/
def voted (n : RaftNode) (req : RequestVoteRequest) : RaftNode :=
  { raiseTerm n req.term with
    log := (raiseTerm n req.term).log.setVotedFor (some req.candidateId.asStr) .ok }

/-- `handle_request_vote` alone, branch by branch. -/
theorem run_handleRequestVote (n : RaftNode) (sender : String) (req : RequestVoteRequest) :
    (handleRequestVote sender req).run [] n =
      if req.term < n.log.currentTerm then
        ⟨some (), n, [.send (requestVoteAnswer n sender n.log.currentTerm false)], []⟩
      else if CanVote (raiseTerm n req.term) req then
        ⟨some (), voted n req, [.send (requestVoteAnswer (voted n req) sender
          (voted n req).log.currentTerm true)], []⟩
      else
        ⟨some (), raiseTerm n req.term, [.send (requestVoteAnswer (raiseTerm n req.term) sender
          (raiseTerm n req.term).log.currentTerm false)], []⟩ := by
  by_cases h : req.term < n.log.currentTerm
  · simp [handleRequestVote, Prog.run_bind, h]
  · rw [if_neg h]
    by_cases hv : CanVote (raiseTerm n req.term) req
    · rw [if_pos hv]
      by_cases ht : req.term > n.log.currentTerm <;>
        simp only [CanVote, raiseTerm, ht, if_true, if_false] at hv <;>
        simp [handleRequestVote, Prog.run_bind, h, ht, hv, voted, raiseTerm]
    · rw [if_neg hv]
      by_cases ht : req.term > n.log.currentTerm <;>
        simp only [CanVote, raiseTerm, ht, if_true, if_false] at hv <;>
        simp [handleRequestVote, Prog.run_bind, h, ht, hv, raiseTerm, -not_and, -not_or]

/-- The state after a grant is counted. -/
def counted (n : RaftNode) (sender : String) : RaftNode :=
  if sender ∈ n.votesReceived then n
  else { n with votesReceived := n.votesReceived ++ [sender] }

/-- The threshold check of `handle_request_vote_response`. -/
def ReachesThreshold (n : RaftNode) : Prop :=
  n.votesReceived.length + 1 ≥ majority n.peers

instance (n : RaftNode) : Decidable (ReachesThreshold n) :=
  inferInstanceAs (Decidable (_ ≥ _))

/-- `handle_request_vote_response` alone, branch by branch. -/
theorem run_handleRequestVoteResponse (n : RaftNode) (sender : String)
    (resp : RequestVoteResponse) :
    (handleRequestVoteResponse sender resp).run [] n =
      if n.role ≠ .candidate then ⟨some (), n, [], []⟩
      else if resp.term > n.log.currentTerm then ⟨some (), raiseTerm n resp.term, [], []⟩
      else if resp.voteGranted then
        if ReachesThreshold (counted n sender) then
          ⟨some (), leaderOf (counted n sender),
            .elected (counted n sender).log.currentTerm ::
              heartbeats (leaderOf (counted n sender)), []⟩
        else ⟨some (), counted n sender, [], []⟩
      else ⟨some (), n, [], []⟩ := by
  by_cases hr : n.role = .candidate
  · by_cases ht : resp.term > n.log.currentTerm
    · simp [handleRequestVoteResponse, Prog.run_bind, hr, ht, raiseTerm]
    · by_cases hg : resp.voteGranted
      · rw [if_neg (not_not.mpr hr), if_neg ht, if_pos hg]
        by_cases hm : ReachesThreshold (counted n sender)
        · rw [if_pos hm]
          simp only [ReachesThreshold, counted, ge_iff_le] at hm
          by_cases hs : sender ∈ n.votesReceived <;>
            simp only [hs, if_true, if_false, List.length_append, List.length_singleton] at hm <;>
            simp [handleRequestVoteResponse, Prog.run_bind, hr, ht, hg, hs, hm, counted]
        · rw [if_neg hm]
          simp only [ReachesThreshold, counted, ge_iff_le] at hm
          by_cases hs : sender ∈ n.votesReceived <;>
            simp only [hs, if_true, if_false, List.length_append, List.length_singleton] at hm <;>
            simp [handleRequestVoteResponse, Prog.run_bind, hr, ht, hg, hs, hm, counted]
      · simp [handleRequestVoteResponse, Prog.run_bind, hr, ht, hg]
  · simp [handleRequestVoteResponse, Prog.run_bind, hr]

/-! ### Membership -/

/-- The state after `add_peer`. The two indices are set by a Leader only. -/
def joined (n : RaftNode) (id address : String) : RaftNode :=
  { n with
    peers := n.peers.insert id (.new id address)
    nextIndex := if n.role = .leader then n.nextIndex.insert id (addOne n.log.lastIndex)
      else n.nextIndex
    matchIndex := if n.role = .leader then n.matchIndex.insert id 0 else n.matchIndex }

/-- `add_peer` alone. -/
theorem run_addPeer (cs : List WriteResult) (n : RaftNode) (id address : String) :
    (addPeer id address).run cs n = ⟨some (), joined n id address, [], cs⟩ := by
  by_cases h : n.role = .leader
  · simp [addPeer, Prog.run_bind, joined, h]
  · simp [addPeer, Prog.run_bind, joined, h]

/-- The state after `remove_peer`. -/
def departed (n : RaftNode) (id : String) : RaftNode :=
  { n with
    peers := n.peers.erase id
    nextIndex := n.nextIndex.erase id
    matchIndex := n.matchIndex.erase id }

/-- `remove_peer` alone. -/
theorem run_removePeer (cs : List WriteResult) (n : RaftNode) (id : String) :
    (removePeer id).run cs n = ⟨some (), departed n id, [], cs⟩ := by
  simp [removePeer, Prog.run_bind, departed]

end RaftEbpf.RaftNode
