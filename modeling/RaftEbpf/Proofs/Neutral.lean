import RaftEbpf.Lib.ProgLogic
import RaftEbpf.Proofs.NodeRun

/-!
# `RaftEbpf.Proofs.Neutral`: what leaves the term, the vote and the role alone

Most of `RaftEbpf.Node` neither moves the node between terms and roles nor speaks for it as
candidate, voter or leader. The lemmas here say so of whole functions, with `Prog.Only`, at
two levels:

* `Steady` and `Inert`: the role stays too, and no entries are sent or appended. This holds
  of applying, committing, answering, and of the handlers once the term is checked.
* `KeepsVote` and `NoVote`: term and vote stay, and no vote is cast. This holds of
  everything else but the three places that store a term or a vote.

Each message handler is cut where its term check ends (`afterTermCheck`, `recordAnswer`,
`castVote`, `countVote`, `stepDown`), with an equation for the handler.
-/

set_option autoImplicit false

namespace RaftEbpf.RaftNode

open RaftEbpf.Lib (Prog)

/-- The log mutex is taken as a mutex. -/
def LogExclusive (l : Lock) (exclusive : Bool) : Prop := l = .log → exclusive = true

/-- A write that leaves the id, the role, the term, the vote and `state.json` as they are. -/
structure Steady (f : RaftNode → RaftNode) : Prop where
  nodeId : ∀ n, (f n).nodeId = n.nodeId
  role : ∀ n, (f n).role = n.role
  persistentState : ∀ n, (f n).log.persistentState = n.log.persistentState
  stateJson : ∀ n, (f n).log.dataDir.stateJson = n.log.dataDir.stateJson

/-- An output that neither grants or asks for a vote nor sends or appends entries. -/
def Inert : Output → Prop
  | .send env =>
      match env.message with
      | .appendEntriesResponse _ => True
      | .requestVoteResponse resp => resp.voteGranted = false
      | _ => False
  | .reply _ _ => True
  | .elected _ => False
  | .appended _ _ => False
  | .applied _ _ => True

/-- A write that leaves the id, term, vote and `state.json` as they are. -/
structure KeepsVote (f : RaftNode → RaftNode) : Prop where
  nodeId : ∀ n, (f n).nodeId = n.nodeId
  persistentState : ∀ n, (f n).log.persistentState = n.log.persistentState
  stateJson : ∀ n, (f n).log.dataDir.stateJson = n.log.dataDir.stateJson

/-- An output that neither grants nor asks for a vote. -/
def NoVote : Output → Prop
  | .send env =>
      match env.message with
      | .requestVoteResponse resp => resp.voteGranted = false
      | .requestVote _ => False
      | _ => True
  | _ => True

theorem Inert.noVote {o : Output} (h : Inert o) : NoVote o := by
  cases o with
  | send env =>
      simp only [Inert, NoVote] at h ⊢
      split at h <;> simp_all
  | _ => trivial

theorem keepsVote_of_only {α : Type} {p : NodeProg α} (h : p.Only LogExclusive Steady Inert) :
    p.Only LogExclusive KeepsVote NoVote :=
  h.mono (fun _ hf => ⟨hf.nodeId, hf.persistentState, hf.stateJson⟩) fun _ => Inert.noVote

/-! ### The primitives -/

section Primitives
variable {W : (RaftNode → RaftNode) → Prop} {E : Output → Prop} {α β : Type}

@[simp] theorem only_lockAt_bind (l : Lock) (site : Site) (f : Unit → NodeProg β) :
    (lockAt l site >>= f).Only LogExclusive W E ↔ (f ()).Only LogExclusive W E :=
  and_iff_right fun _ => rfl

@[simp] theorem only_lock_bind (l : Lock) (f : Unit → NodeProg β) :
    (lock l >>= f).Only LogExclusive W E ↔ (f ()).Only LogExclusive W E :=
  and_iff_right fun _ => rfl

@[simp] theorem only_readLock_bind {l : Lock} (hl : l ≠ .log) (f : Unit → NodeProg β) :
    (readLock l >>= f).Only LogExclusive W E ↔ (f ()).Only LogExclusive W E :=
  and_iff_right fun h => absurd h hl

@[simp] theorem only_unlock_bind (l : Lock) (f : Unit → NodeProg β) :
    (unlock l >>= f).Only LogExclusive W E ↔ (f ()).Only LogExclusive W E := Iff.rfl

@[simp] theorem only_unlock (l : Lock) : (unlock l).Only LogExclusive W E := trivial

@[simp] theorem only_get_bind (f : RaftNode → NodeProg β) :
    (get >>= f).Only LogExclusive W E ↔ ∀ n, (f n).Only LogExclusive W E := Iff.rfl

@[simp] theorem only_withRead_bind {l : Lock} (hl : l ≠ .log) (g : RaftNode → α)
    (f : α → NodeProg β) :
    (withRead l g >>= f).Only LogExclusive W E ↔ ∀ n, (f (g n)).Only LogExclusive W E :=
  and_iff_right fun h => absurd h hl

@[simp] theorem only_modify_bind (g : RaftNode → RaftNode) (f : Unit → NodeProg β) :
    (modify g >>= f).Only LogExclusive W E ↔ W g ∧ (f ()).Only LogExclusive W E := Iff.rfl

@[simp] theorem only_withWriteAt_bind (l : Lock) (site : Site) (g : RaftNode → RaftNode)
    (f : Unit → NodeProg β) : (withWriteAt l site g >>= f).Only LogExclusive W E ↔
      W g ∧ (f ()).Only LogExclusive W E :=
  and_iff_right fun _ => rfl

@[simp] theorem only_withWrite_bind (l : Lock) (g : RaftNode → RaftNode)
    (f : Unit → NodeProg β) : (withWrite l g >>= f).Only LogExclusive W E ↔
      W g ∧ (f ()).Only LogExclusive W E :=
  and_iff_right fun _ => rfl

@[simp] theorem only_emit (o : Output) :
    (.emit o (.done ()) : NodeProg Unit).Only LogExclusive W E ↔ E o :=
  and_iff_left trivial

@[simp] theorem only_emit_bind (o : Output) (f : Unit → NodeProg β) :
    ((.emit o (.done ()) : NodeProg Unit) >>= f).Only LogExclusive W E ↔
      E o ∧ (f ()).Only LogExclusive W E := Iff.rfl

theorem only_sendAll {envs : List MessageEnvelope} (h : ∀ env ∈ envs, E (.send env)) :
    (sendAll envs).Only LogExclusive W E := by
  induction envs with
  | nil => trivial
  | cons env envs ih =>
      exact ⟨h env List.mem_cons_self, ih fun e he => h e (List.mem_cons_of_mem _ he)⟩

end Primitives

/-! ### Applying, answering and committing -/

/-- A write of what committing and applying change: two indexes, the state machine and the waiting
clients. -/
def Committing (f : RaftNode → RaftNode) : Prop :=
  ∀ n, ∃ commitIndex lastApplied stateMachine pendingRequests,
    f n = { n with commitIndex, lastApplied, stateMachine, pendingRequests }

/-- A write that leaves id, role and log as they are. -/
theorem Steady.of_log {f : RaftNode → RaftNode}
    (hf : ∀ n, (f n).nodeId = n.nodeId ∧ (f n).role = n.role ∧ (f n).log = n.log) : Steady f :=
  ⟨fun n => (hf n).1, fun n => (hf n).2.1, fun n => by rw [(hf n).2.2],
    fun n => by rw [(hf n).2.2]⟩

theorem Committing.steady {f : RaftNode → RaftNode} (hf : Committing f) : Steady f := by
  refine .of_log fun n => ?_
  obtain ⟨_, _, _, _, heq⟩ := hf n
  rw [heq]
  exact ⟨rfl, rfl, rfl⟩

theorem commits_commitIndex (k : Nat) : Committing fun n => { n with commitIndex := k } :=
  fun n => ⟨k, n.lastApplied, n.stateMachine, n.pendingRequests, rfl⟩

/-- What only commits, and says nothing as candidate, voter or leader, is steady. -/
theorem only_of_commits {α : Type} {p : NodeProg α} (h : p.Only LogExclusive Committing Inert) :
    p.Only LogExclusive Steady Inert :=
  h.mono (fun _ => Committing.steady) fun _ => id

theorem commits_applyEntries (steps : Nat) :
    (applyEntries steps).Only LogExclusive Committing Inert := by
  induction steps with
  | zero => trivial
  | succ steps ih =>
      simp only [applyEntries, only_modify_bind, only_get_bind]
      refine ⟨fun n => ⟨n.commitIndex, _, n.stateMachine, n.pendingRequests, rfl⟩, fun n => ?_⟩
      split
      · simp only [only_modify_bind, only_emit_bind]
        exact ⟨fun n => ⟨n.commitIndex, n.lastApplied, _, n.pendingRequests, rfl⟩, trivial, ih⟩
      · exact ih

theorem commits_applyCommittedEntries :
    applyCommittedEntries.Only LogExclusive Committing Inert := by
  simp only [applyCommittedEntries, only_withRead_bind, only_lock_bind, only_get_bind, ne_eq,
    reduceCtorEq, not_false_eq_true]
  exact fun n n' => (commits_applyEntries _).bind fun _ => by simp

theorem commits_notifyEach (indices : List Nat) :
    (notifyEach indices).Only LogExclusive Committing Inert := by
  induction indices with
  | nil => trivial
  | cons idx rest ih =>
      simp only [notifyEach, only_get_bind]
      intro n
      split
      · simp only [only_modify_bind, only_emit_bind]
        exact ⟨fun n => ⟨n.commitIndex, n.lastApplied, n.stateMachine, _, rfl⟩, trivial, ih⟩
      · exact ih

theorem commits_notifyPendingRequests (upToIndex : Nat) :
    (notifyPendingRequests upToIndex).Only LogExclusive Committing Inert := by
  simp only [notifyPendingRequests, only_lock_bind, only_get_bind]
  exact fun n => (commits_notifyEach _).bind fun _ => by simp

theorem commits_tryAdvanceCommitIndex :
    tryAdvanceCommitIndex.Only LogExclusive Committing Inert := by
  simp only [tryAdvanceCommitIndex, only_withRead_bind, ne_eq, reduceCtorEq, not_false_eq_true]
  intro n
  split
  · exact trivial
  · -- What the scan finds does not matter: a commit writes one index and applies.
    simp only [only_lock_bind, only_withRead_bind, only_readLock_bind, only_get_bind, ne_eq,
      reduceCtorEq, not_false_eq_true]
    intro n₁ n₂
    split
    · simp only [only_unlock_bind, only_withWrite_bind]
      exact ⟨commits_commitIndex _,
        commits_applyCommittedEntries.bind fun _ => commits_notifyPendingRequests _⟩
    · simp

theorem commits_sendAppendEntriesResponse (recipient : String) (term : Nat) (success : Bool) :
    (sendAppendEntriesResponse recipient term success).Only LogExclusive Committing Inert := by
  simp only [sendAppendEntriesResponse, only_lock_bind, only_get_bind]
  intro n
  refine (only_sendAll ?_).bind fun _ => only_unlock _
  rintro env (_ | ⟨_, ⟨⟩⟩)
  trivial

theorem only_sendAppendEntriesResponse (recipient : String) (term : Nat) (success : Bool) :
    (sendAppendEntriesResponse recipient term success).Only LogExclusive Steady Inert :=
  only_of_commits (commits_sendAppendEntriesResponse recipient term success)

/-- A refused vote. -/
theorem only_sendRequestVoteResponse (recipient : String) (term : Nat) :
    (sendRequestVoteResponse recipient term false).Only LogExclusive Steady Inert := by
  simp only [sendRequestVoteResponse, only_get_bind]
  intro n
  refine only_sendAll ?_
  rintro env (_ | ⟨_, ⟨⟩⟩)
  rfl

/-! ### Leadership -/

theorem keepsVote_sendHeartbeats : sendHeartbeats.Only LogExclusive KeepsVote NoVote := by
  simp only [sendHeartbeats, only_withRead_bind, ne_eq, reduceCtorEq, not_false_eq_true]
  intro n
  split
  · trivial
  · simp only [only_lockAt_bind, only_get_bind, only_withRead_bind, only_readLock_bind, ne_eq,
      reduceCtorEq, not_false_eq_true]
    intro n₁ n₂ n₃
    refine (only_sendAll fun env henv => ?_).bind fun _ => by simp
    obtain ⟨peerId, -, rfl⟩ := List.mem_map.mp henv
    trivial

theorem keepsVote_becomeLeader : becomeLeader.Only LogExclusive KeepsVote NoVote := by
  simp only [becomeLeader, only_withWriteAt_bind, only_withWrite_bind, only_lock_bind,
    only_get_bind, only_unlock_bind, only_readLock_bind, only_modify_bind, ne_eq, reduceCtorEq,
    not_false_eq_true]
  exact ⟨⟨fun _ => rfl, fun _ => rfl, fun _ => rfl⟩, ⟨fun _ => rfl, fun _ => rfl, fun _ => rfl⟩,
    fun n => ⟨⟨fun _ => rfl, fun _ => rfl, fun _ => rfl⟩, keepsVote_sendHeartbeats⟩⟩

theorem keepsVote_propose (command : Command) (responseTx : Sender) :
    (propose command responseTx).Only LogExclusive KeepsVote NoVote := by
  simp only [propose, only_withRead_bind, ne_eq, reduceCtorEq, not_false_eq_true]
  intro n
  split
  · simp only [only_withRead_bind, only_emit, ne_eq, reduceCtorEq, not_false_eq_true]
    exact fun _ => trivial
  · simp only [only_lockAt_bind, only_get_bind, only_modify_bind, only_emit_bind, only_unlock_bind,
      only_withWrite_bind]
    exact fun n => ⟨⟨fun _ => rfl, fun _ => rfl, fun _ => rfl⟩, trivial,
      ⟨fun _ => rfl, fun _ => rfl, fun _ => rfl⟩, keepsVote_sendHeartbeats⟩

/-! ### The handlers after their term checks -/

/-- `start_election` once term and vote are stored. -/
def campaign (newTerm : Nat) : NodeProg Unit := do
  setRole .candidate
  withWrite .votesReceived fun n => { n with votesReceived := [n.nodeId] }
  let n ← get
  let request : RequestVoteRequest :=
    { term := newTerm
      candidateId := .pushStr 64 n.nodeId
      lastLogIndex := n.log.lastIndex
      lastLogTerm := n.log.lastTerm }
  readLock .peers
  let n ← get
  sendAll (n.peers.keys.map fun peerId => .new n.nodeId peerId (.requestVote request))
  if n.peers.keys.isEmpty then
    .emit (.elected newTerm) (.done ())
    unlock .peers
    unlock .log
    becomeLeader
  else
    unlock .peers
    unlock .log

theorem startElection_eq : startElection = (do
    lockAt .log .startElection
    let n ← get
    setCurrentTerm (addOne n.log.currentTerm)
    setVotedFor n.nodeId
    campaign (addOne n.log.currentTerm)) := rfl

/-- `handle_append_entries` after its term check. -/
def afterTermCheck (sender : String) (req : AppendEntriesRequest) (currentTerm : Nat) :
    NodeProg Unit := do
  withWrite .leaderId fun n => { n with leaderId := some req.leaderId.asStr }
  let n ← get
  if req.prevLogIndex > 0 ∧ n.log.hasEntry req.prevLogIndex req.prevLogTerm = false then
    sendAppendEntriesResponse sender n.log.currentTerm false
    unlock .log
  else
    if req.entries.toVec ≠ [] then
      modify fun n => { n with log := deleteConflicting n.log req.entries.toVec }
      modify fun n => { n with log := n.log.appendEntries req.entries.toVec }
    let commitIndex ← withRead .commitIndex (·.commitIndex)
    if req.leaderCommit > commitIndex then
      let n ← get
      let lastNewEntry := n.log.lastIndex
      withWrite .commitIndex fun n =>
        { n with commitIndex := min req.leaderCommit lastNewEntry }
    unlock .log
    applyCommittedEntries
    sendAppendEntriesResponse sender currentTerm true

theorem handleAppendEntries_eq (sender : String) (req : AppendEntriesRequest) :
    handleAppendEntries sender req = (do
      lock .log
      let n ← get
      if req.term < n.log.currentTerm then
        sendAppendEntriesResponse sender n.log.currentTerm false
        unlock .log
      else
        if req.term > n.log.currentTerm then
          setCurrentTerm req.term
          setRole .follower
        afterTermCheck sender req n.log.currentTerm) := rfl

/-- The step-down of the two response handlers, on a response of this term. -/
def stepDown (term : Nat) : NodeProg Unit := do
  unlock .log
  lockAt .log (.stepDown term)
  setCurrentTerm term
  setRole .follower
  unlock .log

/-- `handle_append_entries_response` after its term check. -/
def recordAnswer (sender : String) (resp : AppendEntriesResponse) : NodeProg Unit :=
  if resp.success then do
    lock .nextIndex
    lock .matchIndex
    modify fun n =>
      { n with
        matchIndex := n.matchIndex.insert sender resp.lastLogIndex
        nextIndex := n.nextIndex.insert sender (addOne resp.lastLogIndex) }
    unlock .nextIndex
    unlock .matchIndex
    unlock .log
    tryAdvanceCommitIndex
  else do
    lock .nextIndex
    modify fun n =>
      match n.nextIndex.lookup sender with
      | some idx => { n with nextIndex := n.nextIndex.insert sender (max (idx - 1) 1) }
      | none => n
    unlock .nextIndex
    unlock .log

theorem handleAppendEntriesResponse_eq (sender : String) (resp : AppendEntriesResponse) :
    handleAppendEntriesResponse sender resp = (do
      lock .log
      let role ← withRead .role (·.role)
      if role ≠ .leader then
        unlock .log
      else
        let n ← get
        if resp.term > n.log.currentTerm then stepDown resp.term
        else recordAnswer sender resp) := rfl

/-- `handle_request_vote_response` after its term check, on a grant. -/
def countVote (sender : String) : NodeProg Unit := do
  lock .votesReceived
  modify fun n =>
    if sender ∈ n.votesReceived then n
    else { n with votesReceived := n.votesReceived ++ [sender] }
  readLock .peers
  let n ← get
  if n.votesReceived.length + 1 ≥ majority n.peers then
    .emit (.elected n.log.currentTerm) (.done ())
    unlock .votesReceived
    unlock .peers
    unlock .log
    becomeLeader
  else
    unlock .peers
    unlock .votesReceived
    unlock .log

theorem handleRequestVoteResponse_eq (sender : String) (resp : RequestVoteResponse) :
    handleRequestVoteResponse sender resp = (do
      lock .log
      let role ← withRead .role (·.role)
      if role ≠ .candidate then
        unlock .log
      else
        let n ← get
        if resp.term > n.log.currentTerm then stepDown resp.term
        else if resp.voteGranted then countVote sender
        else unlock .log) := rfl

/-- `handle_request_vote` after its term check. -/
def castVote (sender : String) (req : RequestVoteRequest) : NodeProg Unit := do
  let n ← get
  let canVote := n.log.votedFor = none ∨ n.log.votedFor = some req.candidateId.asStr
  let logOk := req.lastLogTerm > n.log.lastTerm ∨
    (req.lastLogTerm = n.log.lastTerm ∧ req.lastLogIndex ≥ n.log.lastIndex)
  if canVote ∧ logOk then
    setVotedFor req.candidateId.asStr
    let n ← get
    sendRequestVoteResponse sender n.log.currentTerm true
    unlock .log
  else
    sendRequestVoteResponse sender n.log.currentTerm false
    unlock .log

theorem handleRequestVote_eq (sender : String) (req : RequestVoteRequest) :
    handleRequestVote sender req = (do
      lock .log
      let n ← get
      if req.term < n.log.currentTerm then
        sendRequestVoteResponse sender n.log.currentTerm false
        unlock .log
      else
        if req.term > n.log.currentTerm then
          setCurrentTerm req.term
          setRole .follower
        castVote sender req) := rfl

/-- In memory the term is stored and the vote cleared, whatever the write does. -/
theorem persistentState_setCurrentTerm (log : RaftLog) (term : Nat) (r : WriteResult) :
    (log.setCurrentTerm term r).persistentState = ⟨term, none⟩ := by
  cases r <;> rfl

/-- In memory the vote is stored, whatever the write does. -/
theorem persistentState_setVotedFor (log : RaftLog) (name : String) (r : WriteResult) :
    (log.setVotedFor (some name) r).persistentState
      = { log.persistentState with votedFor := some (.pushStr 64 name) } := by
  cases r <;> rfl

/-- The writes of `handle_append_entries` after its term check: the leader hint, the two of
the log, and those of committing. -/
theorem only_afterTermCheck_of {W : (RaftNode → RaftNode) → Prop} (sender : String)
    (req : AppendEntriesRequest) (currentTerm : Nat)
    (hleader : W fun n => { n with leaderId := some req.leaderId.asStr })
    (hdelete : W fun n => { n with log := deleteConflicting n.log req.entries.toVec })
    (happend : W fun n => { n with log := n.log.appendEntries req.entries.toVec })
    (hcommits : ∀ f, Committing f → W f) :
    (afterTermCheck sender req currentTerm).Only LogExclusive W Inert := by
  have hrefuse : ∀ term, (sendAppendEntriesResponse sender term false >>= fun _ =>
      unlock .log).Only LogExclusive W Inert := fun term =>
    ((commits_sendAppendEntriesResponse _ _ _).mono hcommits fun _ => id).bind fun _ =>
      only_unlock _
  have hanswer : (applyCommittedEntries >>= fun _ =>
      sendAppendEntriesResponse sender currentTerm true).Only LogExclusive W Inert :=
    (commits_applyCommittedEntries.bind fun _ =>
      commits_sendAppendEntriesResponse sender currentTerm true).mono hcommits fun _ => id
  simp only [afterTermCheck, only_withWrite_bind, only_get_bind]
  refine ⟨hleader, fun n => .ite (fun _ => hrefuse _) fun _ => .ite (fun _ => ?_) fun _ => ?_⟩
  -- With entries to store and without, the rest is the same.
  · simp only [only_modify_bind, only_withRead_bind, ne_eq, reduceCtorEq, not_false_eq_true]
    refine ⟨hdelete, happend, fun n => .ite (fun _ => ?_) fun _ => ?_⟩
    · simp only [only_get_bind, only_withWrite_bind, only_unlock_bind]
      exact fun n' => ⟨hcommits _ (commits_commitIndex _), hanswer⟩
    · exact hanswer
  · simp only [only_withRead_bind, ne_eq, reduceCtorEq, not_false_eq_true]
    refine fun n => .ite (fun _ => ?_) fun _ => ?_
    · simp only [only_get_bind, only_withWrite_bind, only_unlock_bind]
      exact fun n' => ⟨hcommits _ (commits_commitIndex _), hanswer⟩
    · exact hanswer

theorem only_afterTermCheck (sender : String) (req : AppendEntriesRequest) (currentTerm : Nat) :
    (afterTermCheck sender req currentTerm).Only LogExclusive Steady Inert :=
  only_afterTermCheck_of sender req currentTerm
    ⟨fun _ => rfl, fun _ => rfl, fun _ => rfl, fun _ => rfl⟩
    ⟨fun _ => rfl, fun _ => rfl, fun n => (deleteConflicting_frame n.log _).1,
      fun n => (deleteConflicting_frame n.log _).2⟩
    ⟨fun _ => rfl, fun _ => rfl, fun n => (appendEntries_frame n.log _).1,
      fun n => (appendEntries_frame n.log _).2⟩
    fun _ => Committing.steady

theorem only_recordAnswer_of {W : (RaftNode → RaftNode) → Prop} (sender : String)
    (resp : AppendEntriesResponse)
    (hindexes : ∀ f, (∀ n, ∃ nextIndex matchIndex, f n = { n with nextIndex, matchIndex }) → W f)
    (hcommits : ∀ f, Committing f → W f) :
    (recordAnswer sender resp).Only LogExclusive W Inert := by
  refine .ite (fun _ => ?_) fun _ => ?_
  · simp only [only_lock_bind, only_modify_bind, only_unlock_bind]
    exact ⟨hindexes _ fun n => ⟨_, _, rfl⟩,
      commits_tryAdvanceCommitIndex.mono hcommits fun _ => id⟩
  · simp only [only_lock_bind, only_modify_bind, only_unlock_bind]
    refine ⟨hindexes _ fun n => ?_, only_unlock _⟩
    split
    · exact ⟨_, n.matchIndex, rfl⟩
    · exact ⟨n.nextIndex, n.matchIndex, rfl⟩

theorem only_recordAnswer (sender : String) (resp : AppendEntriesResponse) :
    (recordAnswer sender resp).Only LogExclusive Steady Inert := by
  refine only_recordAnswer_of sender resp (fun f hf => .of_log fun n => ?_) fun _ =>
    Committing.steady
  obtain ⟨_, _, heq⟩ := hf n
  rw [heq]
  exact ⟨rfl, rfl, rfl⟩

theorem keepsVote_countVote (sender : String) :
    (countVote sender).Only LogExclusive KeepsVote NoVote := by
  simp only [countVote, only_lock_bind, only_modify_bind, only_readLock_bind, only_get_bind, ne_eq,
    reduceCtorEq, not_false_eq_true]
  refine ⟨⟨fun n => ?_, fun n => ?_, fun n => ?_⟩, fun n => .ite (fun _ => ?_) fun _ => ?_⟩
  · split <;> rfl
  · split <;> rfl
  · split <;> rfl
  · simp only [only_emit_bind, only_unlock_bind]
    exact ⟨trivial, keepsVote_becomeLeader⟩
  · simp

end RaftEbpf.RaftNode
