import RaftEbpf.Interleaving
import RaftEbpf.Lib.Duties
import RaftEbpf.Proofs.KeepsIndexes
import RaftEbpf.Proofs.LockOrder

/-!
# `RaftEbpf.Proofs.NodeDuties`: the rules of `Lib.Duties` for the primitives of a node

One rule for each primitive of `RaftEbpf.Node` in front of the rest of a task. Duties that look
at the indexes and the pending requests only are `Dutiful` when the few writes to these leave
nothing due, or are followed by what settles it. Every handler is honest then
(`Dutiful.honest_handler`).
-/

set_option autoImplicit false

namespace RaftEbpf.RaftNode

open RaftEbpf.Lib
open RaftEbpf.Lib.Prog

variable {ι : Type} {D : Duties ι Lock RaftNode} {α : Type}

/-! ### What is honest -/

section Honest
variable {held : List (Lock × Bool)}

@[simp] theorem honest_lock_bind (l : Lock) (f : Unit → NodeProg Unit) :
    (lock l >>= f).Honest D held ↔ (f ()).Honest D ((l, true) :: held) := Iff.rfl

@[simp] theorem honest_lockAt_bind (l : Lock) (site : Site) (f : Unit → NodeProg Unit) :
    (lockAt l site >>= f).Honest D held ↔ (f ()).Honest D ((l, true) :: held) := Iff.rfl

@[simp] theorem honest_readLock_bind (l : Lock) (f : Unit → NodeProg Unit) :
    (readLock l >>= f).Honest D held ↔ (f ()).Honest D ((l, false) :: held) := Iff.rfl

@[simp] theorem honest_unlock_bind (l : Lock) (f : Unit → NodeProg Unit) :
    (unlock l >>= f).Honest D held ↔ (f ()).Honest D (Config.dropGuard l held) := Iff.rfl

@[simp] theorem honest_get_bind (f : RaftNode → NodeProg Unit) :
    (get >>= f).Honest D held ↔ ∀ n, (f n).Honest D held := Iff.rfl

@[simp] theorem honest_withRead_bind (l : Lock) (g : RaftNode → α) (f : α → NodeProg Unit) :
    (withRead l g >>= f).Honest D held ↔ ∀ n, (f (g n)).Honest D held := by
  show (∀ n, (f (g n)).Honest D (Config.dropGuard l ((l, false) :: held))) ↔ _
  rw [dropGuard_cons_self]

@[simp] theorem honest_modify_bind (g : RaftNode → RaftNode) (f : Unit → NodeProg Unit) :
    (modify g >>= f).Honest D held ↔ HonestWrite D held g (f ()) ∧ (f ()).Honest D held := Iff.rfl

@[simp] theorem honest_withWrite_bind (l : Lock) (g : RaftNode → RaftNode)
    (f : Unit → NodeProg Unit) : (withWrite l g >>= f).Honest D held ↔
      HonestWrite D ((l, true) :: held) g (f ()) ∧ (f ()).Honest D held := by
  show HonestWrite D ((l, true) :: held) g (f ()) ∧
    (f ()).Honest D (Config.dropGuard l ((l, true) :: held)) ↔ _
  rw [dropGuard_cons_self]

@[simp] theorem honest_emit_bind (o : Output) (f : Unit → NodeProg Unit) :
    ((.emit o (.done ()) : NodeProg Unit) >>= f).Honest D held ↔ (f ()).Honest D held := Iff.rfl

/-- A write of `state.json` whose result is checked. -/
theorem honest_checked {g : WriteResult → RaftNode → RaftNode} {f : Unit → NodeProg Unit}
    (hg : ∀ r, D.Harmless (g r)) (hf : (f ()).Honest D held) :
    ((Prog.choose fun r => .write .plain (g r) (checkWrite r) : NodeProg Unit) >>= f).Honest
      D held := by
  intro r
  refine ⟨honestWrite_of_harmless (hg r) held _, ?_⟩
  cases r with
  | ok => exact hf
  | errOld => trivial
  | errUnparsable => trivial

end Honest

/-! ### What settles -/

section Settles
variable {i : ι} {Q : Unit → RaftNode → Prop} {n : RaftNode}

@[simp] theorem settles_lock_bind (l : Lock) (f : Unit → NodeProg Unit) :
    (lock l >>= f).Settles D i Q n ↔ (f ()).Settles D i Q n := Iff.rfl

@[simp] theorem settles_unlock_bind (l : Lock) (f : Unit → NodeProg Unit) :
    (unlock l >>= f).Settles D i Q n ↔ (f ()).Settles D i Q n := Iff.rfl

@[simp] theorem settles_get_bind (f : RaftNode → NodeProg Unit) :
    (get >>= f).Settles D i Q n ↔
      ∀ n', D.rely n n' → D.due n' i → (f n').Settles D i Q n' := Iff.rfl

@[simp] theorem settles_withRead_bind (l : Lock) (g : RaftNode → α) (f : α → NodeProg Unit) :
    (withRead l g >>= f).Settles D i Q n ↔
      ∀ n', D.rely n n' → D.due n' i → (f (g n')).Settles D i Q n' := Iff.rfl

@[simp] theorem settles_modify_bind (g : RaftNode → RaftNode) (f : Unit → NodeProg Unit) :
    (modify g >>= f).Settles D i Q n ↔ ∀ n', D.rely n n' → D.due n' i → D.due (g n') i →
      (f ()).Settles D i Q (g n') := Iff.rfl

@[simp] theorem settles_emit_bind (o : Output) (f : Unit → NodeProg Unit) :
    ((.emit o (.done ()) : NodeProg Unit) >>= f).Settles D i Q n ↔ (f ()).Settles D i Q n := Iff.rfl

end Settles

/-! ### The handlers -/

/-- The write of both places that commit. -/
def commitAt (k : Nat) (n : RaftNode) : RaftNode := { n with commitIndex := k }

/-- What `propose` does to the requests. -/
def register (idx : Nat) (tx : Sender) (n : RaftNode) : RaftNode :=
  { n with pendingRequests := n.pendingRequests.insert idx tx }

/-- Only a commit and a registration may leave something due, and what follows them in their
tasks settles it. A follower commits under the log mutex. -/
structure Dutiful (D : Duties ι Lock RaftNode) : Prop where
  keepsIndexes : ∀ f, KeepsIndexes f → D.Harmless f
  log : ∀ g : RaftLog → RaftLog, D.Harmless fun n => { n with log := g n.log }
  applies : applyCommittedEntries.Only LogExclusive D.Harmless fun _ => True
  notifies : ∀ k, (notifyPendingRequests k).Only LogExclusive D.Harmless fun _ => True
  registers : ∀ held idx tx (next : NodeProg Unit), HonestWrite D held (register idx tx) next
  commits : ∀ held k, HonestWrite D held (commitAt k) (do
    applyCommittedEntries
    notifyPendingRequests k)
  follows : ∀ held k sender term, (Lock.log, true) ∈ held → HonestWrite D held (commitAt k) (do
    unlock .log
    applyCommittedEntries
    sendAppendEntriesResponse sender term true)

namespace Dutiful
variable {held : List (Lock × Bool)} (h : Dutiful D)
include h

theorem aside {p : NodeProg Unit} (hp : Aside p) : p.Honest D held :=
  hp.honest h.keepsIndexes held

theorem refuse (sender : String) (term : Nat) :
    (sendAppendEntriesResponse sender term false >>= fun _ => unlock .log).Honest D held :=
  h.aside ((aside_sendAppendEntriesResponse _ _ _).bind fun _ => only_unlock _)

/-- A leader commits, applies and notifies. -/
theorem honest_tryAdvanceCommitIndex : tryAdvanceCommitIndex.Honest D held := by
  simp only [tryAdvanceCommitIndex, honest_withRead_bind]
  intro n
  split
  · trivial
  · simp only [honest_lock_bind, honest_withRead_bind, honest_readLock_bind, honest_get_bind]
    intro n₁ n₂
    split
    · rename_i k _
      simp only [honest_unlock_bind, honest_withWrite_bind]
      have hrest : (applyCommittedEntries >>= fun _ => notifyPendingRequests k).Only LogExclusive
          D.Harmless fun _ => True :=
        h.applies.bind fun _ => h.notifies k
      exact ⟨h.commits _ k, hrest.honest (fun _ => id) _⟩
    · trivial

theorem honest_propose (command : Command) (responseTx : Sender) :
    (propose command responseTx).Honest D held := by
  simp only [propose, honest_withRead_bind]
  intro n
  split
  · simp only [honest_withRead_bind]
    exact fun _ => trivial
  · simp only [honest_lockAt_bind, honest_get_bind, honest_modify_bind, honest_emit_bind,
      honest_unlock_bind, honest_withWrite_bind]
    intro n₁
    exact ⟨honestWrite_of_harmless (h.log fun log => (log.append n₁.log.currentTerm command).1) _ _,
      h.registers _ _ responseTx _, h.aside aside_sendHeartbeats⟩

/-- A follower commits under the log mutex, and applies without it. -/
theorem honest_followCommit (sender : String) (req : AppendEntriesRequest) (currentTerm : Nat)
    (hlog : (Lock.log, true) ∈ held) : (followCommit sender req currentTerm).Honest D held := by
  have hrest : ∀ held, (applyCommittedEntries >>= fun _ =>
      sendAppendEntriesResponse sender currentTerm true).Honest D held := fun held =>
    h.applies.honest_bind (fun _ => id)
      (fun _ _ => h.aside (aside_sendAppendEntriesResponse _ _ _)) held
  simp only [followCommit, honest_withRead_bind]
  intro n
  split
  · simp only [honest_get_bind, honest_withWrite_bind, honest_unlock_bind]
    exact fun n₁ => ⟨h.follows _ _ sender currentTerm (List.mem_cons_of_mem _ hlog), hrest _⟩
  · exact hrest _

theorem honest_afterTermCheck (sender : String) (req : AppendEntriesRequest) (currentTerm : Nat)
    (hlog : (Lock.log, true) ∈ held) : (afterTermCheck sender req currentTerm).Honest D held := by
  have hcommit := h.honest_followCommit sender req currentTerm hlog
  simp only [afterTermCheck_eq, honest_withWrite_bind, honest_get_bind]
  refine ⟨honestWrite_of_harmless (h.keepsIndexes _ (keepsIndexes_leaderId _)) _ _, fun n => ?_⟩
  split
  · exact h.refuse _ _
  · split
    · simp only [honest_modify_bind]
      exact ⟨honestWrite_of_harmless (h.log fun log => deleteConflicting log _) _ _,
        honestWrite_of_harmless (h.log fun log => log.appendEntries _) _ _, hcommit⟩
    · exact hcommit

theorem honest_handleAppendEntries (sender : String) (req : AppendEntriesRequest) :
    (handleAppendEntries sender req).Honest D held := by
  simp only [handleAppendEntries_eq, honest_lock_bind, honest_get_bind]
  intro n
  have hrest : (afterTermCheck sender req n.log.currentTerm).Honest D ((.log, true) :: held) :=
    h.honest_afterTermCheck sender req n.log.currentTerm List.mem_cons_self
  split
  · exact h.refuse _ _
  · split
    · refine honest_checked (fun r => h.log fun log => log.setCurrentTerm req.term r) ?_
      simp only [setRole, honest_withWrite_bind]
      exact ⟨honestWrite_of_harmless (h.keepsIndexes _ (keepsIndexes_setRole _)) _ _, hrest⟩
    · exact hrest

theorem honest_handleAppendEntriesResponse (sender : String) (resp : AppendEntriesResponse) :
    (handleAppendEntriesResponse sender resp).Honest D held := by
  simp only [handleAppendEntriesResponse_eq, honest_lock_bind, honest_withRead_bind]
  intro n
  split
  · exact h.aside (only_unlock _)
  · simp only [honest_get_bind]
    intro n₁
    split
    · exact h.aside (aside_stepDown _)
    · unfold recordAnswer
      split
      · simp only [honest_lock_bind, honest_modify_bind, honest_unlock_bind]
        refine ⟨honestWrite_of_harmless (h.keepsIndexes _ ?_) _ _, h.honest_tryAdvanceCommitIndex⟩
        exact ⟨fun _ => rfl, fun _ => rfl, fun _ => rfl, fun _ => rfl⟩
      · simp only [honest_lock_bind, honest_modify_bind, honest_unlock_bind]
        refine ⟨honestWrite_of_harmless (h.keepsIndexes _ ?_) _ _, trivial⟩
        refine ⟨fun m => ?_, fun m => ?_, fun m => ?_, fun m => ?_⟩ <;> split <;> rfl

/-- Every handler is honest. -/
theorem honest_handler (ev : Event) : ev.handler.Honest D held := by
  cases ev with
  | electionTimeout => exact h.aside aside_startElection
  | heartbeatTimeout => exact h.aside aside_sendHeartbeats
  | propose command responseTx => exact h.honest_propose command responseTx
  | receive envelope =>
      obtain ⟨sender, recipient, message⟩ := envelope
      cases message with
      | appendEntries req => exact h.honest_handleAppendEntries _ req
      | appendEntriesResponse resp => exact h.honest_handleAppendEntriesResponse _ resp
      | requestVote req => exact h.aside (aside_handleRequestVote _ req)
      | requestVoteResponse resp => exact h.aside (aside_handleRequestVoteResponse _ resp)
      | clientRequest req => trivial
      | clientResponse resp => trivial

/-- A step whose write finds what is assumed leaves all that is due with a task that settles it. -/
theorem covered_step {c c' : Tasks} {ch : Choice} (hc : c.Covered D)
    (hok : Config.Writes D.ok c ch.sched) (hstep : c.step ch = some c') : c'.Covered D := by
  refine hc.step hok (fun p hp => ?_) hstep
  cases ch with
  | start ev =>
      obtain rfl := Sched.spawn.inj hp
      exact h.honest_handler ev
  | advance i r => cases hp

end Dutiful

end RaftEbpf.RaftNode
