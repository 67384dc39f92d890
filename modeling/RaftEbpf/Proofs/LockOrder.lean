import RaftEbpf.Lib.LockQueue
import RaftEbpf.Operations
import RaftEbpf.Proofs.Neutral

/-!
# `RaftEbpf.Proofs.LockOrder`: the order in which the operations take their locks

`rank` orders the eleven locks. Every operation asks for its locks in this order
(`acquires_task`), with two exceptions, which `AgainstOrder` names: `get_status` asks for
`last_applied` with the log mutex held, while `apply_committed_entries` takes the two the
other way round, and `try_advance_commit_index` asks for `peers` with `match_index` held,
while `become_leader` takes `match_index` with `peers` held.

The exits of `handle_append_entries` that answer under the log mutex ask for it again. The
check lets that pass.
-/

set_option autoImplicit false

namespace RaftEbpf

open RaftEbpf.Lib (Config Prog)

/-- The place of a lock in the order. -/
def Lock.rank : Lock → Nat
  | .lastApplied => 0
  | .log => 1
  | .votesReceived => 2
  | .peers => 3
  | .nextIndex => 4
  | .matchIndex => 5
  | .role => 6
  | .commitIndex => 7
  | .leaderId => 8
  | .stateMachine => 9
  | .pendingRequests => 10

namespace RaftNode

/-- A request to read against the order, and the use of its lock that it must not wait for:
`get_status` must not wait for a writer of `last_applied`, nor `try_advance_commit_index` for
a reader of `peers`. -/
def AgainstOrder (held : List (Lock × Bool)) (l : Lock) (m : Bool) : Prop :=
  (.log, true) ∈ held ∧
    ((l = .lastApplied ∧ m = true) ∨ (l = .peers ∧ m = false ∧ (.matchIndex, false) ∈ held))

instance (held : List (Lock × Bool)) (l : Lock) (m : Bool) : Decidable (AgainstOrder held l m) :=
  inferInstanceAs (Decidable (_ ∧ _))

/-- What the guards of a task are where it asks for a lock that it does not hold: no guard of
`peers` is for writing, none of `last_applied` is for reading without the log mutex, and all
come before the lock in the order, but for the two requests against it. -/
def InOrder (held : List (Lock × Bool)) (l : Lock) (ex : Bool) : Prop :=
  l ∈ held.map Prod.fst ∨
    ((.peers, true) ∉ held ∧ ((.lastApplied, false) ∈ held → (.log, true) ∈ held) ∧
      ((∀ g ∈ held, g.1.rank < l.rank) ∨ (ex = false ∧ ∃ m, AgainstOrder held l m)))

instance (held : List (Lock × Bool)) (l : Lock) (ex : Bool) : Decidable (InOrder held l ex) :=
  inferInstanceAs (Decidable (_ ∨ _))

/-! ### The primitives -/

section Primitives
variable {α : Type} (held : List (Lock × Bool)) (post : Unit → List (Lock × Bool) → Prop)

@[simp] theorem acquires_pure (a : Unit) :
    (pure a : NodeProg Unit).Acquires InOrder held post ↔ post a held := Iff.rfl

@[simp] theorem acquires_lockAt (l : Lock) (site : Site) :
    (lockAt l site).Acquires InOrder held post ↔
      InOrder held l true ∧ post () ((l, true) :: held) := Iff.rfl

@[simp] theorem acquires_lock (l : Lock) : (lock l).Acquires InOrder held post ↔
    InOrder held l true ∧ post () ((l, true) :: held) := Iff.rfl

@[simp] theorem acquires_readLock (l : Lock) : (readLock l).Acquires InOrder held post ↔
    InOrder held l false ∧ post () ((l, false) :: held) := Iff.rfl

@[simp] theorem acquires_unlock (l : Lock) : (unlock l).Acquires InOrder held post ↔
    post () (Config.dropGuard l held) := Iff.rfl

@[simp] theorem acquires_get (post : RaftNode → List (Lock × Bool) → Prop) :
    get.Acquires InOrder held post ↔ ∀ n, post n held := Iff.rfl

@[simp] theorem acquires_modify (f : RaftNode → RaftNode) :
    (modify f).Acquires InOrder held post ↔ post () held := Iff.rfl

@[simp] theorem acquires_emit (o : Output) :
    (.emit o (.done ()) : NodeProg Unit).Acquires InOrder held post ↔ post () held := Iff.rfl

theorem dropGuard_cons_self (l : Lock) (ex : Bool) :
    Config.dropGuard l ((l, ex) :: held) = held :=
  List.eraseP_cons_of_pos (by simp)

@[simp] theorem acquires_withRead (l : Lock) (f : RaftNode → α)
    (post : α → List (Lock × Bool) → Prop) : (withRead l f).Acquires InOrder held post ↔
      InOrder held l false ∧ ∀ n, post (f n) held := by
  show InOrder held l false ∧ (∀ n, post (f n) (Config.dropGuard l ((l, false) :: held))) ↔ _
  rw [dropGuard_cons_self]

@[simp] theorem acquires_withWriteAt (l : Lock) (site : Site) (f : RaftNode → RaftNode) :
    (withWriteAt l site f).Acquires InOrder held post ↔ InOrder held l true ∧ post () held := by
  show InOrder held l true ∧ post () (Config.dropGuard l ((l, true) :: held)) ↔ _
  rw [dropGuard_cons_self]

@[simp] theorem acquires_withWrite (l : Lock) (f : RaftNode → RaftNode) :
    (withWrite l f).Acquires InOrder held post ↔ InOrder held l true ∧ post () held :=
  acquires_withWriteAt held post l .plain f

@[simp] theorem acquires_setRole (role : NodeRole) : (setRole role).Acquires InOrder held post ↔
    InOrder held .role true ∧ post () held :=
  acquires_withWrite held post .role _

variable {held post}

theorem acquires_setCurrentTerm (term : Nat) (h : post () held) :
    (setCurrentTerm term).Acquires InOrder held post := by
  intro w
  cases w with
  | ok => exact h
  | _ => trivial

theorem acquires_setVotedFor (candidateId : String) (h : post () held) :
    (setVotedFor candidateId).Acquires InOrder held post := by
  intro w
  cases w with
  | ok => exact h
  | _ => trivial

theorem acquires_sendAll (envs : List MessageEnvelope) (h : post () held) :
    (sendAll envs).Acquires InOrder held post := by
  induction envs with
  | nil => exact h
  | cons env envs ih => exact ih

theorem acquires_applyEntries (steps : Nat) (h : post () held) :
    (applyEntries steps).Acquires InOrder held post := by
  induction steps with
  | zero => exact h
  | succ steps ih =>
      rw [applyEntries]
      simp only [Prog.acquires_bind, acquires_modify, acquires_get]
      intro n
      split
      · exact ih
      · exact ih

theorem acquires_notifyEach (idxs : List Nat) (h : post () held) :
    (notifyEach idxs).Acquires InOrder held post := by
  induction idxs with
  | nil => exact h
  | cons idx idxs ih =>
      rw [notifyEach]
      simp only [Prog.acquires_bind, acquires_get]
      intro n
      split
      · exact ih
      · exact ih

end Primitives

/-! ### The functions that the operations call -/

section Functions
variable {post : Unit → List (Lock × Bool) → Prop}

theorem acquires_applyCommittedEntries (h : post () []) :
    applyCommittedEntries.Acquires InOrder [] post := by
  simp only [applyCommittedEntries, Prog.acquires_bind, acquires_withRead, acquires_lock,
    acquires_get]
  refine ⟨by decide, fun _ => ⟨by decide, by decide, by decide, fun _ => ?_⟩⟩
  exact acquires_applyEntries _ h

theorem acquires_notifyPendingRequests (upToIndex : Nat) (h : post () []) :
    (notifyPendingRequests upToIndex).Acquires InOrder [] post := by
  simp only [notifyPendingRequests, Prog.acquires_bind, acquires_lock, acquires_get]
  exact ⟨by decide, fun _ => acquires_notifyEach _ h⟩

theorem acquires_tryAdvanceCommitIndex (h : post () []) :
    tryAdvanceCommitIndex.Acquires InOrder [] post := by
  simp only [tryAdvanceCommitIndex, Prog.acquires_bind, acquires_withRead]
  refine ⟨by decide, fun _ => ?_⟩
  split
  · exact h
  · simp only [Prog.acquires_bind, acquires_withRead, acquires_lock, acquires_readLock,
      acquires_get]
    refine ⟨by decide, by decide, fun _ => ⟨by decide, by decide, fun _ => ?_⟩⟩
    split
    · simp only [Prog.acquires_bind, acquires_unlock, acquires_withWrite]
      refine ⟨by decide, ?_⟩
      exact acquires_applyCommittedEntries (acquires_notifyPendingRequests _ h)
    · exact h

theorem acquires_sendHeartbeats (h : post () []) : sendHeartbeats.Acquires InOrder [] post := by
  simp only [sendHeartbeats, Prog.acquires_bind, acquires_withRead]
  refine ⟨by decide, fun _ => ?_⟩
  split
  · exact h
  · simp only [Prog.acquires_bind, acquires_withRead, acquires_lockAt, acquires_readLock,
      acquires_get]
    refine ⟨by decide, fun _ => ⟨by decide, fun _ => ⟨by decide, by decide, fun _ => ?_⟩⟩⟩
    exact acquires_sendAll _ h

theorem acquires_becomeLeader (h : post () []) : becomeLeader.Acquires InOrder [] post := by
  simp only [becomeLeader, Prog.acquires_bind, acquires_withWriteAt, acquires_withWrite,
    acquires_lock, acquires_readLock, acquires_get, acquires_unlock, acquires_modify]
  refine ⟨by decide, by decide, by decide, fun _ => ⟨by decide, by decide, by decide, ?_⟩⟩
  exact acquires_sendHeartbeats h

theorem acquires_sendAppendEntriesResponse {held : List (Lock × Bool)} (recipient : String)
    (term : Nat) (success : Bool) (hlog : InOrder held .log true) (h : post () held) :
    (sendAppendEntriesResponse recipient term success).Acquires InOrder held post := by
  simp only [sendAppendEntriesResponse, Prog.acquires_bind, acquires_lock, acquires_get]
  refine ⟨hlog, fun _ => acquires_sendAll _ ?_⟩
  rw [acquires_unlock, dropGuard_cons_self]
  exact h

theorem acquires_sendRequestVoteResponse {held : List (Lock × Bool)} (recipient : String)
    (term : Nat) (voteGranted : Bool) (h : post () held) :
    (sendRequestVoteResponse recipient term voteGranted).Acquires InOrder held post := by
  simp only [sendRequestVoteResponse, Prog.acquires_bind, acquires_get]
  exact fun _ => acquires_sendAll _ h

end Functions

/-! ### The operations -/

/-- Any locks may be held at the end. -/
abbrev AnyHeld : Unit → List (Lock × Bool) → Prop := fun _ _ => True

theorem acquires_startElection : startElection.Acquires InOrder [] AnyHeld := by
  simp only [startElection, Prog.acquires_bind, acquires_lockAt, acquires_get]
  refine ⟨by decide, fun _ => acquires_setCurrentTerm _ (acquires_setVotedFor _ ?_)⟩
  simp only [acquires_setRole, acquires_withWrite, acquires_readLock]
  refine ⟨by decide, by decide, fun _ => ⟨by decide, fun _ => acquires_sendAll _ ?_⟩⟩
  split
  · simp only [Prog.acquires_bind, acquires_emit, acquires_unlock]
    exact acquires_becomeLeader trivial
  · trivial

theorem acquires_propose (command : Command) (responseTx : Sender) :
    (propose command responseTx).Acquires InOrder [] AnyHeld := by
  simp only [propose, Prog.acquires_bind, acquires_withRead]
  refine ⟨by decide, fun _ => ?_⟩
  split
  · simp only [Prog.acquires_bind, acquires_withRead]
    exact ⟨by decide, fun _ => trivial⟩
  · simp only [Prog.acquires_bind, acquires_lockAt, acquires_get, acquires_modify, acquires_emit,
      acquires_unlock, acquires_withWrite]
    exact ⟨by decide, fun _ => ⟨by decide, acquires_sendHeartbeats trivial⟩⟩

theorem acquires_stepDown (term : Nat) :
    (stepDown term).Acquires InOrder [(.log, true)] AnyHeld := by
  simp only [stepDown, Prog.acquires_bind, acquires_unlock, acquires_lockAt]
  refine ⟨by decide, acquires_setCurrentTerm _ ?_⟩
  rw [acquires_setRole]
  exact ⟨by decide, trivial⟩

theorem acquires_afterTermCheck (sender : String) (req : AppendEntriesRequest)
    (currentTerm : Nat) :
    (afterTermCheck sender req currentTerm).Acquires InOrder [(.log, true)] AnyHeld := by
  have hanswer : applyCommittedEntries.Acquires InOrder [] fun _ held =>
      (sendAppendEntriesResponse sender currentTerm true).Acquires InOrder held AnyHeld :=
    acquires_applyCommittedEntries (acquires_sendAppendEntriesResponse _ _ _ (by decide) trivial)
  simp only [afterTermCheck, Prog.acquires_bind, acquires_withWrite, acquires_get]
  refine ⟨by decide, fun n => ?_⟩
  split
  · rw [Prog.acquires_bind]
    exact acquires_sendAppendEntriesResponse _ _ _ (by decide) trivial
  · -- The new entries take no lock.
    split <;>
    · simp only [Prog.acquires_bind, acquires_modify, acquires_withRead]
      refine ⟨by decide, fun _ => ?_⟩
      split
      · simp only [Prog.acquires_bind, acquires_get, acquires_withWrite, acquires_unlock]
        exact fun _ => ⟨by decide, hanswer⟩
      · rw [Prog.acquires_bind, acquires_unlock, Prog.acquires_bind]
        exact hanswer

theorem acquires_handleAppendEntries (sender : String) (req : AppendEntriesRequest) :
    (handleAppendEntries sender req).Acquires InOrder [] AnyHeld := by
  simp only [handleAppendEntries_eq, Prog.acquires_bind, acquires_lock, acquires_get]
  refine ⟨by decide, fun n => ?_⟩
  split
  · rw [Prog.acquires_bind]
    exact acquires_sendAppendEntriesResponse _ _ _ (by decide) trivial
  · split
    · rw [Prog.acquires_bind]
      refine acquires_setCurrentTerm _ ?_
      rw [Prog.acquires_bind, acquires_setRole]
      exact ⟨by decide, acquires_afterTermCheck sender req _⟩
    · exact acquires_afterTermCheck sender req _

theorem acquires_handleAppendEntriesResponse (sender : String) (resp : AppendEntriesResponse) :
    (handleAppendEntriesResponse sender resp).Acquires InOrder [] AnyHeld := by
  simp only [handleAppendEntriesResponse_eq, Prog.acquires_bind, acquires_lock,
    acquires_withRead]
  refine ⟨by decide, by decide, fun _ => ?_⟩
  split
  · trivial
  · rw [Prog.acquires_bind, acquires_get]
    intro n
    split
    · exact acquires_stepDown resp.term
    · unfold recordAnswer
      split
      · simp only [Prog.acquires_bind, acquires_lock, acquires_modify, acquires_unlock]
        exact ⟨by decide, by decide, acquires_tryAdvanceCommitIndex trivial⟩
      · simp only [Prog.acquires_bind, acquires_lock, acquires_modify, acquires_unlock]
        exact ⟨by decide, trivial⟩

theorem acquires_castVote (sender : String) (req : RequestVoteRequest) :
    (castVote sender req).Acquires InOrder [(.log, true)] AnyHeld := by
  simp only [castVote, Prog.acquires_bind, acquires_get]
  intro n
  split
  · rw [Prog.acquires_bind]
    refine acquires_setVotedFor _ ?_
    simp only [Prog.acquires_bind, acquires_get]
    exact fun _ => acquires_sendRequestVoteResponse _ _ _ trivial
  · rw [Prog.acquires_bind]
    exact acquires_sendRequestVoteResponse _ _ _ trivial

theorem acquires_handleRequestVote (sender : String) (req : RequestVoteRequest) :
    (handleRequestVote sender req).Acquires InOrder [] AnyHeld := by
  simp only [handleRequestVote_eq, Prog.acquires_bind, acquires_lock, acquires_get]
  refine ⟨by decide, fun n => ?_⟩
  split
  · rw [Prog.acquires_bind]
    exact acquires_sendRequestVoteResponse _ _ _ trivial
  · split
    · rw [Prog.acquires_bind]
      refine acquires_setCurrentTerm _ ?_
      rw [Prog.acquires_bind, acquires_setRole]
      exact ⟨by decide, acquires_castVote sender req⟩
    · exact acquires_castVote sender req

theorem acquires_handleRequestVoteResponse (sender : String) (resp : RequestVoteResponse) :
    (handleRequestVoteResponse sender resp).Acquires InOrder [] AnyHeld := by
  simp only [handleRequestVoteResponse_eq, Prog.acquires_bind, acquires_lock, acquires_withRead]
  refine ⟨by decide, by decide, fun _ => ?_⟩
  split
  · trivial
  · rw [Prog.acquires_bind, acquires_get]
    intro n
    split
    · exact acquires_stepDown resp.term
    · split
      · simp only [countVote, Prog.acquires_bind, acquires_lock, acquires_modify,
          acquires_readLock, acquires_get]
        refine ⟨by decide, by decide, fun _ => ?_⟩
        split
        · simp only [Prog.acquires_bind, acquires_emit, acquires_unlock]
          exact acquires_becomeLeader trivial
        · trivial
      · trivial

theorem acquires_handleMessage (envelope : MessageEnvelope) :
    (handleMessage envelope).Acquires InOrder [] AnyHeld := by
  unfold handleMessage
  split
  · exact acquires_handleAppendEntries _ _
  · exact acquires_handleAppendEntriesResponse _ _
  · exact acquires_handleRequestVote _ _
  · exact acquires_handleRequestVoteResponse _ _
  · trivial
  · trivial

theorem acquires_addPeer (id address : String) :
    (addPeer id address).Acquires InOrder [] AnyHeld := by
  simp only [addPeer, Prog.acquires_bind, acquires_withWrite, acquires_withRead]
  refine ⟨by decide, by decide, fun _ => ?_⟩
  split
  · simp only [Prog.acquires_bind, acquires_lock, acquires_get, acquires_withWrite]
    exact ⟨by decide, fun _ => ⟨by decide, by decide, trivial⟩⟩
  · trivial

theorem acquires_removePeer (id : String) : (removePeer id).Acquires InOrder [] AnyHeld := by
  simp only [removePeer, Prog.acquires_bind, acquires_withWrite]
  exact ⟨by decide, by decide, by decide, trivial⟩

theorem acquires_getStatus {post : NodeStatus → List (Lock × Bool) → Prop}
    (h : ∀ status, post status []) : getStatus.Acquires InOrder [] post := by
  simp only [getStatus, Prog.acquires_bind, acquires_lock, acquires_readLock, acquires_get]
  refine ⟨by decide, by decide, by decide, fun _ _ => ⟨by decide, fun _ => ⟨by decide, fun _ =>
    ⟨by decide, fun _ => h _⟩⟩⟩⟩

end RaftNode

open RaftNode in
/-- Every operation takes its locks in the order, but for the two requests against it. -/
theorem acquires_task (op : Operation) : op.task.Acquires InOrder [] AnyHeld := by
  cases op with
  | handleMessage envelope => exact acquires_handleMessage envelope
  | startElection => exact acquires_startElection
  | sendHeartbeats => exact acquires_sendHeartbeats trivial
  | propose command responseTx => exact acquires_propose command responseTx
  | addPeer id address => exact acquires_addPeer id address
  | removePeer id => exact acquires_removePeer id
  | getStatus =>
      rw [Operation.task, Prog.acquires_bind]
      exact acquires_getStatus fun _ => trivial
  | getValue key => exact ⟨by decide, fun _ => trivial⟩
  | getMessages limit sinceIndex => exact ⟨by decide, fun _ => trivial⟩

end RaftEbpf
