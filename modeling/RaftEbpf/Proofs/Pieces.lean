import RaftEbpf.Lib.CriticalSection
import RaftEbpf.Operations
import RaftEbpf.Proofs.KeepsIndexes

/-!
# `RaftEbpf.Proofs.Pieces`: the operations, put together from pieces

Most of what the operations of a node do is `InBackground`: it takes neither the mutex of the state
machine nor that of the waiting clients, it writes to neither of them, and it says nothing to a
client. Four pieces are left: `apply_committed_entries`, `notify_pending_requests`, `propose` and
the two queries of the state machine.

So a property of tasks that holds of what is in the background and of these pieces, and of a
sequence when it holds of its parts (`Piecewise`), holds of every operation (`Piecewise.task`).
-/

set_option autoImplicit false

namespace RaftEbpf

open RaftEbpf.Lib (HashMap Prog)

/-- Each entry is in the map under its own index. -/
def RaftLog.Keyed (log : RaftLog) : Prop := ∀ i e, log.get i = some e → e.index = i

namespace RaftLog.Keyed

variable {log : RaftLog}

theorem of_entries {log' : RaftLog} (h : log.Keyed) (heq : log'.entries = log.entries) :
    log'.Keyed := by
  intro i e he
  rw [RaftLog.get, heq] at he
  exact h i e he

/-- An entry that is stored under its own index. -/
theorem insert {log' : RaftLog} (h : log.Keyed) {e : LogEntry}
    (heq : log'.entries = log.entries.insert e.index e) : log'.Keyed := by
  intro i e' he'
  rw [RaftLog.get, heq] at he'
  by_cases hi : i = e.index
  · subst hi
    rw [AList.lookup_insert] at he'
    obtain rfl := Option.some.inj he'
    rfl
  · rw [AList.lookup_insert_ne hi] at he'
    exact h i e' he'

theorem append (h : log.Keyed) (term : Nat) (command : Command) :
    (log.append term command).1.Keyed :=
  h.insert (e := ⟨addOne log.lastIndex, term, command⟩) rfl

theorem appendEntries (h : log.Keyed) (entries : List LogEntry) :
    (log.appendEntries entries).Keyed := by
  rw [RaftLog.appendEntries]
  induction entries generalizing log with
  | nil => exact h
  | cons e entries ih => exact ih (h.insert (e := e) rfl)

theorem truncateFrom (h : log.Keyed) (fromIndex : Nat) : (log.truncateFrom fromIndex).Keyed := by
  intro i e he
  have hlookup : (HashMap.retain (fun idx => decide (idx < fromIndex)) log.entries).lookup i
      = some e := he
  rw [HashMap.lookup_retain] at hlookup
  split at hlookup
  · exact h i e hlookup
  · cases hlookup

theorem deleteConflicting (h : log.Keyed) (entries : List LogEntry) :
    (RaftNode.deleteConflicting log entries).Keyed := by
  induction entries with
  | nil => exact h
  | cons e entries ih =>
      rw [RaftNode.deleteConflicting]
      split
      · split
        · exact h.truncateFrom e.index
        · exact ih
      · exact ih

/-- What `RaftLog::new` loads. -/
theorem new {dir : DataDir} (h : RaftLog.new dir = some log) : log.Keyed := by
  have hload : ∀ (lines : List DiskLogEntry) (log : RaftLog), log.Keyed →
      (lines.foldl RaftLog.loadLine log).Keyed := by
    intro lines
    induction lines with
    | nil => exact fun _ h => h
    | cons line lines ih =>
        intro log h
        exact ih _ (h.insert (e := RaftLog.diskEntryToLogEntry line) rfl)
  have hnone : ∀ ps, ({ RaftLog.unloaded dir with persistentState := ps } : RaftLog).Keyed := by
    intro ps i e he
    cases he
  rw [RaftLog.new, RaftLog.loadFromDisk] at h
  split at h
  · obtain rfl := Option.some.inj h
    exact hload _ _ (hnone _)
  · obtain rfl := Option.some.inj h
    exact hload _ _ (hnone _)
  · cases h

end RaftLog.Keyed

namespace RaftNode

/-! ### What is in the background -/

/-- Neither the mutex of the state machine nor that of the waiting clients. -/
def PlainLock (l : Lock) (_ : Bool) : Prop := l ≠ .stateMachine ∧ l ≠ .pendingRequests

instance (l : Lock) (ex : Bool) : Decidable (PlainLock l ex) :=
  inferInstanceAs (Decidable (_ ∧ _))

/-- A write that leaves the state machine, its index and the waiting clients as they are, and each
entry of the log under its own index. -/
structure Background (f : RaftNode → RaftNode) : Prop where
  lastApplied : ∀ n, (f n).lastApplied = n.lastApplied
  stateMachine : ∀ n, (f n).stateMachine = n.stateMachine
  pendingRequests : ∀ n, (f n).pendingRequests = n.pendingRequests
  keyed : ∀ n, n.log.Keyed → (f n).log.Keyed

/-- An output that no client gets, and that stores and applies nothing. -/
def NoClient : Output → Prop
  | .send _ => True
  | .elected _ => True
  | _ => False

/-- The program has no part in what the clients see. -/
abbrev InBackground {α : Type} (p : NodeProg α) : Prop := p.Only PlainLock Background NoClient

/-- A write of fields that the clients do not see. -/
theorem Background.of_eq {f : RaftNode → RaftNode}
    (hf : ∀ n, ∃ log role commitIndex leaderId peers nextIndex matchIndex votesReceived,
      (n.log.Keyed → log.Keyed) ∧ f n = { n with
        log, role, commitIndex, leaderId, peers, nextIndex, matchIndex, votesReceived }) :
    Background f := by
  have hsame : ∀ n, (f n).lastApplied = n.lastApplied ∧ (f n).stateMachine = n.stateMachine ∧
      (f n).pendingRequests = n.pendingRequests ∧ (n.log.Keyed → (f n).log.Keyed) := by
    intro n
    obtain ⟨_, _, _, _, _, _, _, _, hkeyed, heq⟩ := hf n
    rw [heq]
    exact ⟨rfl, rfl, rfl, hkeyed⟩
  exact ⟨fun n => (hsame n).1, fun n => (hsame n).2.1, fun n => (hsame n).2.2.1,
    fun n => (hsame n).2.2.2⟩

theorem Electing.background {f : RaftNode → RaftNode} (hf : Electing f) : Background f := by
  refine .of_eq fun n => ?_
  obtain ⟨persistentState, dataDir, role, leaderId, nextIndex, matchIndex, votesReceived, heq⟩ :=
    hf n
  have hkeyed : n.log.Keyed → ({ n.log with persistentState, dataDir } : RaftLog).Keyed :=
    fun h => h.of_entries rfl
  exact ⟨_, role, n.commitIndex, leaderId, n.peers, nextIndex, matchIndex, votesReceived, hkeyed,
    heq⟩

theorem background_log {g : RaftLog → RaftLog} (hg : ∀ log : RaftLog, log.Keyed → (g log).Keyed) :
    Background fun n => { n with log := g n.log } :=
  .of_eq fun n => ⟨_, n.role, n.commitIndex, n.leaderId, n.peers, n.nextIndex, n.matchIndex,
    n.votesReceived, hg n.log, rfl⟩

theorem background_commitIndex (k : Nat) : Background fun n => { n with commitIndex := k } :=
  .of_eq fun n => ⟨n.log, n.role, k, n.leaderId, n.peers, n.nextIndex, n.matchIndex,
    n.votesReceived, id, rfl⟩

theorem background_peers (g : RaftNode → HashMap String PeerInfo) :
    Background fun n => { n with peers := g n } :=
  .of_eq fun n => ⟨n.log, n.role, n.commitIndex, n.leaderId, g n, n.nextIndex, n.matchIndex,
    n.votesReceived, id, rfl⟩

theorem background_progress (g g' : RaftNode → HashMap String Nat) :
    Background fun n => { n with nextIndex := g n, matchIndex := g' n } :=
  .of_eq fun n => ⟨n.log, n.role, n.commitIndex, n.leaderId, n.peers, g n, g' n,
    n.votesReceived, id, rfl⟩

section Primitives
variable {A : Lock → Bool → Prop} {W : (RaftNode → RaftNode) → Prop} {E : Output → Prop}
  {α β : Type}

theorem only_lock_iff (l : Lock) (f : Unit → NodeProg β) :
    (lock l >>= f).Only A W E ↔ A l true ∧ (f ()).Only A W E := Iff.rfl

theorem only_lockAt_iff (l : Lock) (site : Site) (f : Unit → NodeProg β) :
    (lockAt l site >>= f).Only A W E ↔ A l true ∧ (f ()).Only A W E := Iff.rfl

theorem only_readLock_iff (l : Lock) (f : Unit → NodeProg β) :
    (readLock l >>= f).Only A W E ↔ A l false ∧ (f ()).Only A W E := Iff.rfl

theorem only_unlock_iff (l : Lock) (f : Unit → NodeProg β) :
    (unlock l >>= f).Only A W E ↔ (f ()).Only A W E := Iff.rfl

theorem only_get_iff (f : RaftNode → NodeProg β) :
    (get >>= f).Only A W E ↔ ∀ n, (f n).Only A W E := Iff.rfl

theorem only_withRead_iff (l : Lock) (g : RaftNode → α) (f : α → NodeProg β) :
    (withRead l g >>= f).Only A W E ↔ A l false ∧ ∀ n, (f (g n)).Only A W E := Iff.rfl

theorem only_modify_iff (g : RaftNode → RaftNode) (f : Unit → NodeProg β) :
    (modify g >>= f).Only A W E ↔ W g ∧ (f ()).Only A W E := Iff.rfl

theorem only_withWriteAt_iff (l : Lock) (site : Site) (g : RaftNode → RaftNode)
    (f : Unit → NodeProg β) : (withWriteAt l site g >>= f).Only A W E ↔
      A l true ∧ W g ∧ (f ()).Only A W E := Iff.rfl

theorem only_withWrite_iff (l : Lock) (g : RaftNode → RaftNode) (f : Unit → NodeProg β) :
    (withWrite l g >>= f).Only A W E ↔ A l true ∧ W g ∧ (f ()).Only A W E := Iff.rfl

theorem only_emit_iff (o : Output) (f : Unit → NodeProg β) :
    ((.emit o (.done ()) : NodeProg Unit) >>= f).Only A W E ↔ E o ∧ (f ()).Only A W E := Iff.rfl

theorem only_sendAll_iff {envs : List MessageEnvelope} (h : ∀ env ∈ envs, E (.send env)) :
    (sendAll envs).Only A W E := by
  induction envs with
  | nil => trivial
  | cons env envs ih =>
      exact ⟨h env List.mem_cons_self, ih fun e he => h e (List.mem_cons_of_mem _ he)⟩

end Primitives

/-! ### Elections, votes and heartbeats -/

theorem background_setRole (role : NodeRole) : InBackground (setRole role) :=
  ⟨by decide, (electing_role role).background, trivial⟩

/-- A write of `state.json` whose result is checked. -/
theorem background_checked {g : WriteResult → RaftNode → RaftNode} (hg : ∀ r, Electing (g r)) :
    InBackground (Prog.choose fun r => .write .plain (g r) (checkWrite r) : NodeProg Unit) := by
  intro r
  refine ⟨(hg r).background, ?_⟩
  cases r <;> trivial

theorem background_setCurrentTerm (term : Nat) : InBackground (setCurrentTerm term) :=
  background_checked fun r => ((campaigns_setCurrentTerm term) r).1

theorem background_setVotedFor (candidateId : String) : InBackground (setVotedFor candidateId) :=
  background_checked fun r => ((campaigns_setVotedFor candidateId) r).1

theorem background_sendAll (envs : List MessageEnvelope) : InBackground (sendAll envs) :=
  only_sendAll_iff fun _ _ => trivial

theorem background_sendAppendEntriesResponse (recipient : String) (term : Nat) (success : Bool) :
    InBackground (sendAppendEntriesResponse recipient term success) := by
  rw [sendAppendEntriesResponse, InBackground, only_lock_iff]
  exact ⟨by decide, fun n => (background_sendAll _).bind fun _ => trivial⟩

theorem background_sendRequestVoteResponse (recipient : String) (term : Nat) (granted : Bool) :
    InBackground (sendRequestVoteResponse recipient term granted) :=
  fun _ => background_sendAll _

theorem background_sendHeartbeats : InBackground sendHeartbeats := by
  rw [sendHeartbeats, InBackground, only_withRead_iff]
  refine ⟨by decide, fun n => .ite (fun _ => trivial) fun _ => ?_⟩
  simp only [only_lockAt_iff, only_get_iff, only_withRead_iff, only_readLock_iff]
  exact ⟨by decide, fun n₁ => ⟨by decide, fun n₂ => ⟨by decide, by decide, fun n₃ =>
    (background_sendAll _).bind fun _ => trivial⟩⟩⟩

theorem background_becomeLeader : InBackground becomeLeader := by
  simp only [becomeLeader, InBackground, only_withWriteAt_iff, only_withWrite_iff, only_lock_iff,
    only_get_iff, only_unlock_iff, only_readLock_iff, only_modify_iff]
  exact ⟨by decide, (electing_role _).background, by decide, (electing_leaderId _).background,
    by decide, fun n => ⟨by decide, by decide, by decide, background_progress _ _,
      background_sendHeartbeats⟩⟩

theorem background_startElection : InBackground startElection := by
  rw [startElection_eq, InBackground, only_lockAt_iff]
  refine ⟨by decide, fun n => (background_setCurrentTerm _).bind fun _ =>
    (background_setVotedFor _).bind fun _ => ?_⟩
  refine (background_setRole _).bind fun _ => ?_
  simp only [only_withWrite_iff, only_get_iff, only_readLock_iff]
  refine ⟨by decide, (electing_votesReceived _).background, fun n₁ => ⟨by decide, fun n₂ => ?_⟩⟩
  refine (background_sendAll _).bind fun _ => .ite (fun _ => ?_) fun _ => trivial
  simp only [only_emit_iff, only_unlock_iff]
  exact ⟨trivial, background_becomeLeader⟩

theorem background_stepDown (term : Nat) : InBackground (stepDown term) := by
  simp only [stepDown, InBackground, only_unlock_iff, only_lockAt_iff]
  exact ⟨by decide, (background_setCurrentTerm term).bind fun _ => (background_setRole _).bind
    fun _ => trivial⟩

theorem background_handleRequestVote (sender : String) (req : RequestVoteRequest) :
    InBackground (handleRequestVote sender req) := by
  have hcast : InBackground (castVote sender req) := by
    refine fun n => .ite (fun _ => ?_) fun _ => ?_
    · exact (background_setVotedFor _).bind fun _ n' =>
        (background_sendRequestVoteResponse _ _ _).bind fun _ => trivial
    · exact (background_sendRequestVoteResponse _ _ _).bind fun _ => trivial
  rw [handleRequestVote_eq, InBackground, only_lock_iff]
  refine ⟨by decide, fun n => .ite (fun _ => ?_) fun _ => .ite (fun _ => ?_) fun _ => hcast⟩
  · exact (background_sendRequestVoteResponse _ _ _).bind fun _ => trivial
  · exact (background_setCurrentTerm _).bind fun _ => (background_setRole _).bind fun _ => hcast

theorem background_handleRequestVoteResponse (sender : String) (resp : RequestVoteResponse) :
    InBackground (handleRequestVoteResponse sender resp) := by
  have hcount : InBackground (countVote sender) := by
    simp only [countVote, InBackground, only_lock_iff, only_modify_iff, only_readLock_iff,
      only_get_iff]
    refine ⟨by decide, .of_eq fun n => ?_, by decide, fun n => .ite (fun _ => ?_) fun _ => trivial⟩
    · by_cases hvoted : sender ∈ n.votesReceived
      · exact ⟨n.log, n.role, n.commitIndex, n.leaderId, n.peers, n.nextIndex, n.matchIndex,
          n.votesReceived, id, if_pos hvoted⟩
      · exact ⟨n.log, n.role, n.commitIndex, n.leaderId, n.peers, n.nextIndex, n.matchIndex,
          n.votesReceived ++ [sender], id, if_neg hvoted⟩
    · simp only [only_emit_iff, only_unlock_iff]
      exact ⟨trivial, background_becomeLeader⟩
  simp only [handleRequestVoteResponse_eq, InBackground, only_lock_iff, only_withRead_iff]
  refine ⟨by decide, by decide, fun n => .ite (fun _ => trivial) fun _ n' => ?_⟩
  exact .ite (fun _ => background_stepDown _) fun _ => .ite (fun _ => hcount) fun _ => trivial

/-! ### Membership and status -/

theorem background_addPeer (id address : String) : InBackground (addPeer id address) := by
  rw [addPeer, InBackground, only_withWrite_iff]
  refine ⟨by decide, background_peers _, ?_⟩
  rw [only_withRead_iff]
  refine ⟨by decide, fun n => .ite (fun _ => ?_) fun _ => trivial⟩
  simp only [only_lock_iff, only_get_iff, only_withWrite_iff]
  exact ⟨by decide, fun n' => ⟨by decide, background_progress _ (·.matchIndex), by decide,
    background_progress (·.nextIndex) _, trivial⟩⟩

theorem background_removePeer (id : String) : InBackground (removePeer id) := by
  simp only [removePeer, InBackground, only_withWrite_iff]
  exact ⟨by decide, background_peers _, by decide, background_progress _ (·.matchIndex), by decide,
    background_progress (·.nextIndex) _, trivial⟩

theorem background_getStatus : InBackground getStatus := by
  simp only [getStatus, InBackground, only_lock_iff, only_get_iff, only_readLock_iff]
  exact ⟨by decide, by decide, by decide, fun _ _ => ⟨by decide, fun _ => ⟨by decide, fun _ =>
    ⟨by decide, fun _ => trivial⟩⟩⟩⟩

/-! ### The clients -/

section
variable {A : Lock → Bool → Prop} {W : (RaftNode → RaftNode) → Prop} {E : Output → Prop}

/-- `notify_pending_requests` removes channels and answers them. -/
theorem only_notifyPendingRequests (hA : A .pendingRequests true)
    (herase : ∀ idx, W fun n => { n with pendingRequests := n.pendingRequests.erase idx })
    (hreply : ∀ tx idx, E (.reply tx (.success idx))) (upToIndex : Nat) :
    (notifyPendingRequests upToIndex).Only A W E := by
  have hloop : ∀ indices, (notifyEach indices).Only A W E := by
    intro indices
    induction indices with
    | nil => trivial
    | cons idx rest ih =>
        rw [notifyEach, only_get_iff]
        intro n
        split
        · exact ⟨herase idx, hreply _ _, ih⟩
        · exact ih
  rw [notifyPendingRequests, only_lock_iff]
  exact ⟨hA, fun n => (hloop _).bind fun _ => trivial⟩

/-- `propose` refuses, or appends and registers. -/
theorem only_propose {command : Command} {tx : Sender}
    (hlog : A .role false ∧ A .leaderId false ∧ A .log true ∧ A .pendingRequests true)
    (happend : ∀ term, W fun n => { n with log := (n.log.append term command).1 })
    (hregister : ∀ index, W fun n =>
      { n with pendingRequests := n.pendingRequests.insert index tx })
    (hrefuse : ∀ leaderId, E (.reply tx (.notLeader leaderId)))
    (happended : ∀ entry, E (.appended tx entry)) (hheartbeats : sendHeartbeats.Only A W E) :
    (propose command tx).Only A W E := by
  rw [propose, only_withRead_iff]
  refine ⟨hlog.1, fun n => .ite (fun _ => ?_) fun _ => ?_⟩
  · rw [only_withRead_iff]
    exact ⟨hlog.2.1, fun n' => ⟨hrefuse _, trivial⟩⟩
  · simp only [only_lockAt_iff, only_get_iff, only_modify_iff, only_emit_iff, only_unlock_iff,
      only_withWrite_iff]
    exact ⟨hlog.2.2.1, fun n' => ⟨happend _, happended _, hlog.2.2.2, hregister _, hheartbeats⟩⟩

end

/-! ### The operations -/

/-- A property of tasks that holds of what is in the background, of the pieces that are not, and of
a sequence when it holds of its parts. -/
structure Piecewise (P : ∀ {α : Type}, NodeProg α → Prop) : Prop where
  bind : ∀ {α β : Type} {p : NodeProg α} {f : α → NodeProg β}, P p → (∀ a, P (f a)) → P (p >>= f)
  background : ∀ {α : Type} {p : NodeProg α}, InBackground p → P p
  applies : P applyCommittedEntries
  notifies : ∀ upToIndex, P (notifyPendingRequests upToIndex)
  reads : ∀ {α : Type} (f : RaftNode → α), P (do
    lock .stateMachine
    let n ← get
    unlock .stateMachine
    return f n)

namespace Piecewise
variable {P : ∀ {α : Type}, NodeProg α → Prop} (h : Piecewise P)
include h

omit h in
theorem either {α : Type} {c : Prop} [Decidable c] {p q : NodeProg α} (hp : P p) (hq : P q) :
    P (if c then p else q) := by
  split
  · exact hp
  · exact hq

/-- One action in front of the rest. -/
theorem step {α β : Type} {p : NodeProg α} {f : α → NodeProg β} (hp : InBackground p)
    (hf : ∀ a, P (f a)) : P (p >>= f) :=
  h.bind (h.background hp) hf

theorem tryAdvanceCommitIndex : P tryAdvanceCommitIndex := by
  have hread : ∀ {α : Type} {l : Lock} (g : RaftNode → α), PlainLock l false →
      InBackground (withRead l g) := fun g hl => ⟨hl, fun _ => trivial⟩
  refine h.step (hread _ (by decide)) fun role => either (h.background trivial) ?_
  refine h.step (p := lock .log) ⟨by decide, trivial⟩ fun _ => ?_
  refine h.step (hread _ (by decide)) fun currentCommit => ?_
  refine h.step (p := readLock .matchIndex) ⟨by decide, trivial⟩ fun _ => ?_
  refine h.step (p := readLock .peers) ⟨by decide, trivial⟩ fun _ => ?_
  refine h.step (p := RaftNode.get) (fun _ => trivial) fun n => ?_
  split
  · rename_i k hk
    refine h.step (p := unlock .matchIndex) trivial fun _ => ?_
    refine h.step (p := unlock .peers) trivial fun _ => ?_
    refine h.step (p := unlock .log) trivial fun _ => ?_
    refine h.step (p := withWrite .commitIndex _) ⟨by decide, background_commitIndex k, trivial⟩
      fun _ => ?_
    exact h.bind h.applies fun _ => h.notifies k
  · exact h.background trivial

theorem handleAppendEntriesResponse (sender : String) (resp : AppendEntriesResponse) :
    P (handleAppendEntriesResponse sender resp) := by
  have hanswer : P (recordAnswer sender resp) := by
    refine either ?_ (h.background ?_)
    · refine h.step (p := lock .nextIndex) ⟨by decide, trivial⟩ fun _ => ?_
      refine h.step (p := lock .matchIndex) ⟨by decide, trivial⟩ fun _ => ?_
      refine h.step (p := modify _) ⟨background_progress _ _, trivial⟩ fun _ => ?_
      refine h.step (p := unlock .nextIndex) trivial fun _ => ?_
      refine h.step (p := unlock .matchIndex) trivial fun _ => ?_
      exact h.step (p := unlock .log) trivial fun _ => h.tryAdvanceCommitIndex
    · refine ⟨by decide, .of_eq fun n => ?_, trivial⟩
      split
      · exact ⟨n.log, n.role, n.commitIndex, n.leaderId, n.peers, _, n.matchIndex,
          n.votesReceived, id, rfl⟩
      · exact ⟨n.log, n.role, n.commitIndex, n.leaderId, n.peers, n.nextIndex, n.matchIndex,
          n.votesReceived, id, rfl⟩
  rw [handleAppendEntriesResponse_eq]
  refine h.step (p := lock .log) ⟨by decide, trivial⟩ fun _ => ?_
  refine h.step (p := withRead .role _) ⟨by decide, fun _ => trivial⟩ fun role => ?_
  refine either (h.background trivial) (h.step (p := RaftNode.get) (fun _ => trivial) fun n => ?_)
  exact either (h.background (background_stepDown _)) hanswer

theorem handleAppendEntries (sender : String) (req : AppendEntriesRequest) :
    P (handleAppendEntries sender req) := by
  have hrefuse : ∀ term, P (sendAppendEntriesResponse sender term false >>= fun _ =>
      unlock .log) := fun term =>
    h.background ((background_sendAppendEntriesResponse _ _ _).bind fun _ => trivial)
  have hfollow : ∀ term, P (followCommit sender req term) := by
    intro term
    have hrest : P (unlock .log >>= fun _ => applyCommittedEntries >>= fun _ =>
        sendAppendEntriesResponse sender term true) := by
      refine h.step (p := unlock .log) trivial fun _ => ?_
      exact h.bind h.applies fun _ => h.background (background_sendAppendEntriesResponse _ _ _)
    refine h.step (p := withRead .commitIndex _) ⟨by decide, fun _ => trivial⟩ fun k => ?_
    refine either (h.step (p := RaftNode.get) (fun _ => trivial) fun n => ?_) hrest
    exact h.step (p := withWrite .commitIndex _)
      ⟨by decide, background_commitIndex _, trivial⟩ fun _ => hrest
  have hchecked : ∀ term, P (afterTermCheck sender req term) := by
    intro term
    rw [afterTermCheck_eq]
    refine h.step (p := withWrite .leaderId _)
      ⟨by decide, (electing_leaderId _).background, trivial⟩ fun _ => ?_
    refine h.step (p := RaftNode.get) (fun _ => trivial) fun n =>
      either (hrefuse _) (either ?_ (hfollow term))
    refine h.step (p := modify _)
      ⟨background_log fun _ hlog => hlog.deleteConflicting _, trivial⟩ fun _ => ?_
    exact h.step (p := modify _) ⟨background_log fun _ hlog => hlog.appendEntries _, trivial⟩
      fun _ => hfollow term
  rw [handleAppendEntries_eq]
  refine h.step (p := lock .log) ⟨by decide, trivial⟩ fun _ => ?_
  refine h.step (p := RaftNode.get) (fun _ => trivial) fun n =>
    either (hrefuse _) (either ?_ (hchecked _))
  refine h.step (background_setCurrentTerm _) fun _ => ?_
  exact h.step (background_setRole _) fun _ => hchecked _

/-- Every operation but `propose` is put together from these pieces. -/
theorem task {op : Operation} (hpropose : ∀ command tx, op = .propose command tx → P op.task) :
    P op.task := by
  cases op with
  | handleMessage envelope =>
      show P (RaftNode.handleMessage envelope)
      rw [handleMessage]
      split
      · exact h.handleAppendEntries _ _
      · exact h.handleAppendEntriesResponse _ _
      · exact h.background (background_handleRequestVote _ _)
      · exact h.background (background_handleRequestVoteResponse _ _)
      · exact h.background trivial
      · exact h.background trivial
  | startElection => exact h.background background_startElection
  | sendHeartbeats => exact h.background background_sendHeartbeats
  | propose command tx => exact hpropose command tx rfl
  | addPeer id address => exact h.background (background_addPeer id address)
  | removePeer id => exact h.background (background_removePeer id)
  | getStatus => exact h.background (background_getStatus.bind fun _ => trivial)
  | getValue key => exact h.bind (h.reads _) fun _ => h.background trivial
  | getMessages limit sinceIndex => exact h.bind (h.reads _) fun _ => h.background trivial

end Piecewise

/-! ### Disciplines -/

/-- The task takes the mutex, does something that keeps the invariant, and drops the mutex. -/
theorem tidy_section {D : Lib.Discipline Lock RaftNode Output WriteResult Site} {l : Lock}
    (hl : l = D.mutex) (hrely : ∀ w w', D.rely true w w' → D.inv w → D.inv w') {α β : Type}
    {p : RaftNode → NodeProg α} {f : RaftNode → α → NodeProg β}
    (hp : ∀ memo w, D.inv w →
      (p w.state).Safe D true memo (fun _ held _ w' => held = true ∧ D.inv w') w)
    (hf : ∀ n a, (f n a).Tidy D) :
    (do
      lock l
      let n ← get
      let a ← p n
      unlock l
      f n a : NodeProg β).Tidy D := by
  intro memo w w₁ _ _
  rw [if_pos hl]
  refine ⟨rfl, fun _ hinv w₂ hw₂ => ?_⟩
  have hinv₂ := hrely _ _ hw₂ hinv
  show (p w₂.state >>= fun a => unlock l >>= fun _ => f w₂.state a).Safe D true memo _ w₂
  refine Prog.Safe.bind ((hp memo w₂ hinv₂).mono fun a held memo' w₃ hend w₄ hw₄ => ?_)
  obtain ⟨rfl, hinv₃⟩ := hend
  rw [if_pos hl]
  exact ⟨fun _ => hrely _ _ hw₄ hinv₃, hf _ a memo' w₄⟩

end RaftNode

/-- In every interleaving of operations that keep to a discipline, from a node with its invariant,
all tasks keep to it. What each of their actions keeps (`J`) holds at every moment. -/
theorem Contention.Run.safe {D : Lib.Discipline Lock RaftNode Output WriteResult Site}
    (hsite : ∀ k memo n, D.site k memo n) (hanswers : ∀ r, D.answer r)
    (htask : ∀ op : Operation, op.task.Tidy D) {J : Lib.World RaftNode Output → Prop}
    (hJ : ∀ held w w', D.guar held w w' → J w → J w') {n : RaftNode} (hinv : D.inv ⟨n, []⟩)
    (hinit : J ⟨n, []⟩) {ok : Contention → Turn → Prop} {tr : List Contention}
    (h : Contention.Run n ok tr) : ∀ c ∈ tr, c.config.Safe D ∧ J c.config.world := by
  refine h.invariant (I := fun c => c.config.Safe D ∧ J c.config.world)
    ⟨Lib.Config.Safe.initial hinv, hinit⟩ fun c turn c' hc _ hstep => ?_
  rcases Lib.Queued.config_step hstep with hsame | hstep
  · -- The task joins the queue of a lock.
    rw [hsame]
    exact hc
  · have hfinds := Lib.Config.finds_of_forall hsite hanswers c.config turn.sched
    have hnew : ∀ p, turn.sched = .spawn p → ∀ w, p.Safe D false [] (fun _ _ _ _ => True) w := by
      intro p hp w
      cases turn with
      | start op =>
          obtain rfl := Lib.Sched.spawn.inj hp
          exact (htask op).safe w
      | advance i r => cases hp
    obtain ⟨hsafe, hworld⟩ := hc.1.step hfinds hnew hstep
    refine ⟨hsafe, ?_⟩
    rcases hworld with hsame | ⟨held, hguar⟩
    · rw [hsame]
      exact hc.2
    · exact hJ held _ _ hguar hc.2

end RaftEbpf
