import RaftEbpf.Lib.Custody
import RaftEbpf.Proofs.NodeDuties

/-!
# `RaftEbpf.Proofs.CommitMonotone`: when concurrent tasks never take the commit index back

`try_advance_commit_index` finds an index above the `commit_index` that it read, drops all locks,
and then stores it without another look. `handle_append_entries` drops its read guard of
`commit_index` between its look and its store, and stores `last_index` where that is less than
the leader's commit.

* `not_commitMonotone`: of two overlapping acknowledgements the older result is stored last.
* `commitMonotone_of_storeSound`: where each task that stores finds `commit_index` as it saw it,
  and `handle_append_entries` no shorter log, the commit index never decreases, and all that is
  committed is applied once all tasks have ended.
-/

set_option autoImplicit false

namespace RaftEbpf

open RaftEbpf.Lib
open RaftEbpf.Lib.Prog (guarded_bind)
open RaftNode

/-! ### What a task saw -/

/-- What a task saw of `commit_index` after it took this lock: a read guard shows it. -/
def RaftNode.look (l : Lock) (exclusive : Bool) (n : RaftNode) (seen : Nat) : Nat :=
  if l = .commitIndex ∧ exclusive = false then n.commitIndex else seen

/-- A task that takes the write guard of `commit_index` finds there what it saw, short of
`u64::MAX`. Under the log mutex, as `handle_append_entries` has it, the log reaches that far. -/
def RaftNode.StoreSound (seen : Nat) (held : List (Lock × Bool)) (l : Lock) (exclusive : Bool)
    (n : RaftNode) : Prop :=
  l = .commitIndex ∧ exclusive = true →
    n.commitIndex = seen ∧ n.commitIndex < u64Max ∧
      ((Lock.log, true) ∈ held → n.commitIndex ≤ n.log.lastIndex)

instance (seen : Nat) (held : List (Lock × Bool)) (l : Lock) (exclusive : Bool) (n : RaftNode) :
    Decidable (StoreSound seen held l exclusive n) :=
  inferInstanceAs (Decidable (_ → _))

/-- A node with its running tasks, and what each of them saw of `commit_index`. -/
abbrev SeenTasks : Type := Tasks × (Nat → Nat)

namespace SeenTasks

/-- One step, and what its task saw. -/
def step (s : SeenTasks) (ch : Choice) : Option SeenTasks :=
  withGhost Tasks.step (fun c ch _ seen => Config.noted look c ch.sched seen) s ch

/-- The step takes no lock, or finds what `RaftNode.StoreSound` says. -/
def StoreSound (s : SeenTasks) (ch : Choice) : Prop :=
  Config.Takes RaftNode.StoreSound s.1 ch.sched s.2

instance (s : SeenTasks) (ch : Choice) : Decidable (s.StoreSound ch) :=
  inferInstanceAs (Decidable (Config.Takes _ _ _ _))

/-- No task yet has seen anything. -/
def idle (n : RaftNode) : SeenTasks := (Tasks.idle n, fun _ => 0)

/-- The states of one interleaving, newest first. Each step is one that `ok` allows. -/
abbrev Run (n : RaftNode) (ok : SeenTasks → Choice → Prop) (tr : List SeenTasks) : Prop :=
  Lib.Run step (idle n) ok tr

end SeenTasks

/-! ### The custody of the indexes -/

/-- Three locks protect an index each. The commit index never decreases, and nothing else is
applied than what is committed. -/
def indexCustody : Custody Lock RaftNode Nat where
  same
    | .log, n, n' => n'.log.lastIndex = n.log.lastIndex
    | .commitIndex, n, n' => n'.commitIndex = n.commitIndex
    | .lastApplied, n, n' => n'.lastApplied = n.lastApplied
    | _, _, _ => True
  grows n n' := n.commitIndex ≤ n'.commitIndex ∧
    (n.lastApplied ≤ n.commitIndex → n'.lastApplied ≤ n'.commitIndex)
  note := look
  may := RaftNode.StoreSound
  same_refl l n := by cases l <;> simp
  same_trans := by
    intro l n₁ n₂ n₃ h h'
    cases l <;> simp_all
  grows_refl n := ⟨Nat.le_refl _, id⟩
  grows_trans h h' := ⟨Nat.le_trans h.1 h'.1, h'.2 ∘ h.2⟩

section Rules
variable {g : Nat} {held : List (Lock × Bool)} {n n' : RaftNode} {α β : Type}
  {Q : β → Nat → List (Lock × Bool) → RaftNode → Prop}

/-- The rest of a task, about whose end nothing is claimed. -/
abbrev InCustody (p : NodeProg Unit) (g : Nat) (held : List (Lock × Bool)) (n : RaftNode) : Prop :=
  p.Guarded indexCustody (fun _ _ _ _ => True) g held n

theorem guarded_withRead {l : Lock} {f : RaftNode → α} {p : α → NodeProg β}
    (h : ∀ n₁ n₂, indexCustody.Rely held n n₁ → indexCustody.Rely ((l, false) :: held) n₁ n₂ →
      (p (f n₂)).Guarded indexCustody Q (look l false n₁ g) held n₂) :
    (withRead l f >>= p).Guarded indexCustody Q g held n := by
  intro n₁ hn₁ _ n₂ hn₂ n₃ hn₃
  rw [dropGuard_cons_self]
  exact (h n₁ n₂ hn₁ hn₂).rely (hn₃.mono fun _ => List.mem_cons_of_mem _)

theorem guarded_withWrite {l : Lock} {w : RaftNode → RaftNode} {p : Unit → NodeProg β}
    (h : ∀ n₁ n₂, indexCustody.Rely held n n₁ → RaftNode.StoreSound g held l true n₁ →
      indexCustody.Rely ((l, true) :: held) n₁ n₂ →
      indexCustody.Guar ((l, true) :: held) n₂ (w n₂) ∧
        (p ()).Guarded indexCustody Q (look l true n₁ g) held (w n₂)) :
    (withWrite l w >>= p).Guarded indexCustody Q g held n := by
  intro n₁ hn₁ hmay n₂ hn₂
  obtain ⟨hguar, hrest⟩ := h n₁ n₂ hn₁ hmay hn₂
  refine ⟨hguar, fun n₃ hn₃ => ?_⟩
  rw [dropGuard_cons_self]
  exact hrest.rely (hn₃.mono fun _ => List.mem_cons_of_mem _)

/-- To take another lock shows nothing of the commit index, and nothing is assumed of it. -/
theorem guarded_lock {l : Lock} (hl : l ≠ .commitIndex) {p : Unit → NodeProg β}
    (h : ∀ n₁, indexCustody.Rely held n n₁ →
      (p ()).Guarded indexCustody Q g ((l, true) :: held) n₁) :
    (lock l >>= p).Guarded indexCustody Q g held n := by
  intro n₁ hn₁ _
  have hlook : look l true n₁ g = g := if_neg fun h => hl h.1
  show (p ()).Guarded indexCustody Q (look l true n₁ g) _ _
  rw [hlook]
  exact h n₁ hn₁

theorem guarded_readLock {l : Lock} (hl : l ≠ .commitIndex) {p : Unit → NodeProg β}
    (h : ∀ n₁, indexCustody.Rely held n n₁ →
      (p ()).Guarded indexCustody Q g ((l, false) :: held) n₁) :
    (readLock l >>= p).Guarded indexCustody Q g held n := by
  intro n₁ hn₁ _
  have hlook : look l false n₁ g = g := if_neg fun h => hl h.1
  show (p ()).Guarded indexCustody Q (look l false n₁ g) _ _
  rw [hlook]
  exact h n₁ hn₁

theorem guarded_unlock {l : Lock} {p : Unit → NodeProg β}
    (h : ∀ n₁, indexCustody.Rely held n n₁ →
      (p ()).Guarded indexCustody Q g (Config.dropGuard l held) n₁) :
    (unlock l >>= p).Guarded indexCustody Q g held n := h

theorem guarded_get {p : RaftNode → NodeProg β}
    (h : ∀ n₁, indexCustody.Rely held n n₁ → (p n₁).Guarded indexCustody Q g held n₁) :
    (get >>= p).Guarded indexCustody Q g held n := h

theorem guarded_modify {w : RaftNode → RaftNode} {p : Unit → NodeProg β}
    (h : ∀ n₁, indexCustody.Rely held n n₁ → indexCustody.Guar held n₁ (w n₁) ∧
      (p ()).Guarded indexCustody Q g held (w n₁)) :
    (modify w >>= p).Guarded indexCustody Q g held n := h

theorem guarded_emit {o : Output} {p : Unit → NodeProg β}
    (h : ∀ n₁, indexCustody.Rely held n n₁ → (p ()).Guarded indexCustody Q g held n₁) :
    ((.emit o (.done ()) : NodeProg Unit) >>= p).Guarded indexCustody Q g held n := h

/-- A write of `state.json` whose result is checked. -/
theorem guarded_checked {w : WriteResult → RaftNode → RaftNode} {p : Unit → NodeProg β}
    (hw : ∀ r n₁, indexCustody.Guar held n₁ (w r n₁))
    (h : ∀ n₁, (p ()).Guarded indexCustody Q g held n₁) :
    ((Prog.choose fun r => .write .plain (w r) (checkWrite r) : NodeProg Unit) >>= p).Guarded
      indexCustody Q g held n := by
  intro r n₁ _ n₂ _
  refine ⟨hw r n₂, ?_⟩
  cases r with
  | ok => exact h _
  | errOld => trivial
  | errUnparsable => trivial

end Rules

/-! ### The handlers -/

section Handlers
variable {g : Nat} {held : List (Lock × Bool)} {n : RaftNode}

/-- A write to nothing that the locks of `indexCustody` protect. -/
def Unprotected (f : RaftNode → RaftNode) : Prop := ∀ n, (f n).commitIndex = n.commitIndex ∧
  (f n).lastApplied = n.lastApplied ∧ (f n).log.lastIndex = n.log.lastIndex

/-- Such a write is within what any task may do. -/
theorem grows_of_same {n' : RaftNode} (hcommit : n'.commitIndex = n.commitIndex)
    (happlied : n'.lastApplied = n.lastApplied) (hlast : n'.log.lastIndex = n.log.lastIndex) :
    indexCustody.grows n n' ∧ ∀ l, indexCustody.same l n n' := by
  refine ⟨⟨Nat.le_of_eq hcommit.symm, fun h => ?_⟩, fun l => ?_⟩
  · rw [hcommit, happlied]
    exact h
  · cases l with
    | log => exact hlast
    | commitIndex => exact hcommit
    | lastApplied => exact happlied
    | _ => trivial

theorem guar_of_same {n' : RaftNode} (hcommit : n'.commitIndex = n.commitIndex)
    (happlied : n'.lastApplied = n.lastApplied) (hlast : n'.log.lastIndex = n.log.lastIndex) :
    indexCustody.Guar held n n' :=
  have hsame := grows_of_same hcommit happlied hlast
  ⟨hsame.1, fun l _ => hsame.2 l⟩

theorem Unprotected.grows {f : RaftNode → RaftNode} (hf : Unprotected f) (n : RaftNode) :
    indexCustody.grows n (f n) ∧ ∀ l, indexCustody.same l n (f n) :=
  grows_of_same (hf n).1 (hf n).2.1 (hf n).2.2

theorem unprotected_of_keepsIndexes {f : RaftNode → RaftNode} (hf : KeepsIndexes f) :
    Unprotected f :=
  fun n => ⟨hf.commitIndex n, hf.lastApplied n, hf.lastIndex n⟩

/-- Under its mutex the log may change in any way. -/
theorem log_guar (hlog : (Lock.log, true) ∈ held) (f : RaftLog → RaftLog) (n : RaftNode) :
    indexCustody.Guar held n { n with log := f n.log } := by
  refine ⟨⟨Nat.le_refl _, id⟩, fun l hl => ?_⟩
  cases l with
  | log => exact absurd hlog hl
  | _ => first | rfl | trivial

theorem inCustody_of_aside {p : NodeProg Unit} (h : Aside p) : InCustody p g held n :=
  h.guarded (fun _ hf => (unprotected_of_keepsIndexes hf).grows) g held n

/-- With its guard held `last_applied` stays, so as many turns as before stay within the commit
index. -/
theorem turns_rely {steps : Nat} {n' : RaftNode} (hheld : (Lock.lastApplied, true) ∈ held)
    (hrely : indexCustody.Rely held n n')
    (hturns : steps = 0 ∨ n.lastApplied + steps ≤ n.commitIndex) :
    steps = 0 ∨ n'.lastApplied + steps ≤ n'.commitIndex := by
  have hsame : n'.lastApplied = n.lastApplied := hrely.2 _ hheld
  have hgrows : n.commitIndex ≤ n'.commitIndex := hrely.1.1
  omega

/-- The loop counts `last_applied` up to the commit index that was read, under its guard. -/
theorem guarded_applyEntries {steps : Nat} {Q : Unit → Nat → List (Lock × Bool) → RaftNode → Prop}
    (hQ : ∀ g held n, Q () g held n) (hheld : (Lock.lastApplied, true) ∈ held)
    (hturns : steps = 0 ∨ n.lastApplied + steps ≤ n.commitIndex) :
    (applyEntries steps).Guarded indexCustody Q g held n := by
  induction steps generalizing n with
  | zero => exact fun n₁ _ => hQ g held n₁
  | succ steps ih =>
      rw [applyEntries]
      refine guarded_modify fun n₁ hn₁ => ?_
      have hturns₁ := turns_rely hheld hn₁ hturns
      have hbound : n₁.lastApplied + 1 + steps ≤ n₁.commitIndex := by omega
      refine ⟨⟨⟨Nat.le_refl _, fun _ => ?_⟩, fun l hl => ?_⟩, guarded_get fun n₂ hn₂ => ?_⟩
      · show n₁.lastApplied + 1 ≤ n₁.commitIndex
        omega
      · cases l with
        | lastApplied => exact absurd hheld hl
        | _ => first | rfl | trivial
      · have hturns₂ := turns_rely hheld hn₂ (Or.inr hbound)
        split
        · refine guarded_modify fun n₃ hn₃ => ⟨guar_of_same rfl rfl rfl, ?_⟩
          have hturns₃ := turns_rely hheld hn₃ hturns₂
          refine guarded_emit fun n₄ hn₄ => ih (turns_rely hheld hn₄ ?_)
          exact hturns₃
        · exact ih hturns₂

theorem guarded_applyCommittedEntries {Q : Unit → Nat → List (Lock × Bool) → RaftNode → Prop}
    (hQ : ∀ g held n, Q () g held n) :
    applyCommittedEntries.Guarded indexCustody Q g held n := by
  rw [applyCommittedEntries]
  refine guarded_withRead fun n₁ n₂ _ _ => guarded_lock (by decide) fun n₃ hn₃ =>
    guarded_lock (by decide) fun n₄ hn₄ => guarded_lock (by decide) fun n₅ hn₅ =>
    guarded_get fun n₆ hn₆ => guarded_bind ?_
  refine guarded_applyEntries (fun g held n => ?_) (by simp) ?_
  · exact guarded_unlock fun _ _ => guarded_unlock fun _ _ => fun _ _ _ _ => hQ _ _ _
  · -- The commit index that was read is still committed.
    have h₃ := hn₃.1.1
    have h₄ := hn₄.1.1
    have h₅ := hn₅.1.1
    have h₆ := hn₆.1.1
    omega

/-- What the scan finds is above the commit index it was given. -/
theorem lt_of_findCommit {k currentCommit : Nat} (h : findCommit n currentCommit = some k)
    (hcommit : currentCommit < u64Max) : currentCommit < k := by
  have hmem := List.mem_reverse.mp (List.mem_of_find?_eq_some h)
  have hstart := (List.mem_range'_1.mp hmem).1
  rw [addOne_of_lt hcommit] at hstart
  exact hstart

/-- A store of a greater commit index under its guard. -/
theorem commit_guar {k : Nat} (hheld : (Lock.commitIndex, true) ∈ held) (hle : n.commitIndex ≤ k) :
    indexCustody.Guar held n { n with commitIndex := k } := by
  refine ⟨⟨hle, fun happlied => Nat.le_trans happlied hle⟩, fun l hl => ?_⟩
  cases l with
  | commitIndex => exact absurd hheld hl
  | _ => first | rfl | trivial

/-- What the scan found is above what the task saw, and that is still there. -/
theorem inCustody_tryAdvanceCommitIndex : InCustody tryAdvanceCommitIndex g held n := by
  rw [tryAdvanceCommitIndex]
  refine guarded_withRead fun n₁ n₂ _ _ => ?_
  split
  · exact fun _ _ => trivial
  · refine guarded_lock (by decide) fun n₃ _ => guarded_withRead fun n₄ n₅ _ hn₅ =>
      guarded_readLock (by decide) fun n₆ _ => guarded_readLock (by decide) fun n₇ _ =>
      guarded_get fun n₈ _ => ?_
    -- The read guard shows what the scan is given.
    have hlook : look .commitIndex false n₄ (look .role false n₁ g) = n₄.commitIndex :=
      if_pos ⟨rfl, rfl⟩
    have hread : n₅.commitIndex = n₄.commitIndex := hn₅.2 _ List.mem_cons_self
    rw [hlook]
    split
    · rename_i k hk
      refine guarded_unlock fun n₉ _ => guarded_unlock fun n₁₀ _ => guarded_unlock fun n₁₁ _ =>
        guarded_withWrite fun n₁₂ n₁₃ _ hfinds hn₁₃ => ⟨commit_guar List.mem_cons_self ?_, ?_⟩
      · obtain ⟨hseen, hshort, -⟩ := hfinds ⟨rfl, rfl⟩
        have hsame : n₁₃.commitIndex = n₁₂.commitIndex := hn₁₃.2 _ List.mem_cons_self
        have hlt := lt_of_findCommit hk (by omega)
        omega
      · have hnotify := only_notifyPendingRequests_of (W := Unprotected)
          (fun _ _ => ⟨rfl, rfl, rfl⟩) k
        exact guarded_bind (guarded_applyCommittedEntries
          (hnotify.guarded (fun _ => Unprotected.grows)))
    · exact inCustody_of_aside (by simp)

theorem inCustody_propose (command : Command) (responseTx : Sender) :
    InCustody (propose command responseTx) g held n := by
  rw [propose]
  refine guarded_withRead fun n₁ n₂ _ _ => ?_
  split
  · exact guarded_withRead fun n₃ n₄ _ _ n₅ _ n₆ _ => trivial
  · refine guarded_lock (by decide) fun n₃ _ => guarded_get fun n₄ _ => guarded_modify fun n₅ _ =>
      ⟨log_guar List.mem_cons_self (fun log => (log.append n₄.log.currentTerm command).1) n₅, ?_⟩
    refine guarded_emit fun n₆ _ => guarded_unlock fun n₇ _ => guarded_withWrite
      fun n₈ n₉ _ _ _ => ⟨guar_of_same rfl rfl rfl, ?_⟩
    exact inCustody_of_aside aside_sendHeartbeats

/-- The log reaches the commit index that the task saw, and the leader's commit is above it. -/
theorem inCustody_followCommit (sender : String) (req : AppendEntriesRequest) (currentTerm : Nat)
    (hlog : (Lock.log, true) ∈ held) :
    InCustody (followCommit sender req currentTerm) g held n := by
  have hrest : ∀ g held n, InCustody (do
      unlock .log
      applyCommittedEntries
      sendAppendEntriesResponse sender currentTerm true) g held n := fun g held n =>
    guarded_unlock fun n' _ => guarded_bind (guarded_applyCommittedEntries fun g held n =>
      inCustody_of_aside (aside_sendAppendEntriesResponse _ _ _))
  rw [followCommit]
  refine guarded_withRead fun n₁ n₂ hn₁ hn₂ => ?_
  have hlook : look .commitIndex false n₁ g = n₁.commitIndex := if_pos ⟨rfl, rfl⟩
  have hread : n₂.commitIndex = n₁.commitIndex := hn₂.2 _ List.mem_cons_self
  rw [hlook]
  split
  · rename_i hcommit
    refine guarded_get fun n₃ hn₃ => guarded_withWrite fun n₄ n₅ hn₄ hfinds hn₅ =>
      ⟨commit_guar List.mem_cons_self ?_, hrest _ _ _⟩
    obtain ⟨hseen, -, hreach⟩ := hfinds ⟨rfl, rfl⟩
    have hreach := hreach hlog
    have hlast : n₄.log.lastIndex = n₃.log.lastIndex := hn₄.2 _ hlog
    have hsame : n₅.commitIndex = n₄.commitIndex := hn₅.2 _ List.mem_cons_self
    omega
  · exact hrest _ _ _

theorem inCustody_afterTermCheck (sender : String) (req : AppendEntriesRequest)
    (currentTerm : Nat) (hlog : (Lock.log, true) ∈ held) :
    InCustody (afterTermCheck sender req currentTerm) g held n := by
  rw [afterTermCheck_eq]
  refine guarded_withWrite fun n₁ n₂ _ _ _ =>
    ⟨guar_of_same rfl rfl rfl, guarded_get fun n₃ _ => ?_⟩
  split
  · exact inCustody_of_aside ((aside_sendAppendEntriesResponse _ _ _).bind fun _ => only_unlock _)
  · split
    · refine guarded_modify fun n₄ _ => ⟨log_guar hlog (fun log => deleteConflicting log _) n₄, ?_⟩
      refine guarded_modify fun n₅ _ => ⟨log_guar hlog (fun log => log.appendEntries _) n₅, ?_⟩
      exact inCustody_followCommit sender req currentTerm hlog
    · exact inCustody_followCommit sender req currentTerm hlog

theorem inCustody_handleAppendEntries (sender : String) (req : AppendEntriesRequest) :
    InCustody (handleAppendEntries sender req) g held n := by
  rw [handleAppendEntries_eq]
  refine guarded_lock (by decide) fun n₁ _ => guarded_get fun n₂ _ => ?_
  split
  · exact inCustody_of_aside ((aside_sendAppendEntriesResponse _ _ _).bind fun _ => only_unlock _)
  · split
    · refine guarded_checked (fun r n₃ => log_guar List.mem_cons_self
        (fun log => log.setCurrentTerm req.term r) n₃) fun n₃ => ?_
      exact guarded_withWrite fun n₄ n₅ _ _ _ =>
        ⟨guar_of_same rfl rfl rfl,
          inCustody_afterTermCheck sender req _ List.mem_cons_self⟩
    · exact inCustody_afterTermCheck sender req _ List.mem_cons_self

theorem inCustody_handleAppendEntriesResponse (sender : String) (resp : AppendEntriesResponse) :
    InCustody (handleAppendEntriesResponse sender resp) g held n := by
  rw [handleAppendEntriesResponse_eq]
  refine guarded_lock (by decide) fun n₁ _ => guarded_withRead fun n₂ n₃ _ _ => ?_
  split
  · exact inCustody_of_aside (only_unlock _)
  · refine guarded_get fun n₄ _ => ?_
    split
    · exact inCustody_of_aside (aside_stepDown _)
    · rw [recordAnswer]
      split
      · refine guarded_lock (by decide) fun n₅ _ => guarded_lock (by decide) fun n₆ _ =>
          guarded_modify fun n₇ _ => ⟨guar_of_same rfl rfl rfl, ?_⟩
        exact guarded_unlock fun n₈ _ => guarded_unlock fun n₉ _ => guarded_unlock fun n₁₀ _ =>
          inCustody_tryAdvanceCommitIndex
      · refine guarded_lock (by decide) fun n₅ _ => guarded_modify fun n₆ _ => ⟨?_, ?_⟩
        · split <;> exact guar_of_same rfl rfl rfl
        · exact inCustody_of_aside (by simp)

/-- Every handler keeps to the custody of the indexes. -/
theorem inCustody_handler (ev : Event) : InCustody ev.handler g held n := by
  cases ev with
  | electionTimeout => exact inCustody_of_aside aside_startElection
  | heartbeatTimeout => exact inCustody_of_aside aside_sendHeartbeats
  | propose command responseTx => exact inCustody_propose command responseTx
  | receive envelope =>
      obtain ⟨sender, recipient, message⟩ := envelope
      cases message with
      | appendEntries req => exact inCustody_handleAppendEntries _ req
      | appendEntriesResponse resp => exact inCustody_handleAppendEntriesResponse _ resp
      | requestVote req => exact inCustody_of_aside (aside_handleRequestVote _ req)
      | requestVoteResponse resp =>
          exact inCustody_of_aside (aside_handleRequestVoteResponse _ resp)
      | clientRequest req => exact fun _ _ => trivial
      | clientResponse resp => exact fun _ _ => trivial

end Handlers

/-! ### What is committed is applied -/

/-- An index is committed and not applied. -/
def applyDuties : Duties Nat Lock RaftNode where
  due n idx := n.lastApplied < idx ∧ idx ≤ n.commitIndex
  rely n n' := n.lastApplied ≤ n'.lastApplied
  ok _ _ _ := True
  rely_refl _ := Nat.le_refl _
  rely_trans h h' := Nat.le_trans h h'

/-- As many turns as it takes to get from `last_applied` to the index. -/
theorem reaches_applyEntries {idx steps : Nat} {Q : Unit → RaftNode → Prop} {n : RaftNode}
    (hidx : idx ≤ n.lastApplied + steps) : (applyEntries steps).Settles applyDuties idx Q n := by
  induction steps generalizing n with
  | zero =>
      intro n₁ hn₁ hdue
      have hrely : n.lastApplied ≤ n₁.lastApplied := hn₁
      have hbelow : n₁.lastApplied < idx := hdue.1
      omega
  | succ steps ih =>
      simp only [applyEntries, settles_modify_bind, settles_get_bind]
      intro n₁ hn₁ _ _ n₂ hn₂ _
      have hrely : n.lastApplied ≤ n₁.lastApplied := hn₁
      have hcount : n₁.lastApplied + 1 ≤ n₂.lastApplied := hn₂
      split
      · simp only [settles_modify_bind, settles_emit_bind]
        intro n₃ hn₃ _ _
        have hrely' : n₂.lastApplied ≤ n₃.lastApplied := hn₃
        refine ih ?_
        show idx ≤ n₃.lastApplied + steps
        omega
      · exact ih (by omega)

/-- The commit index that is read is at or above what is due, and so is where the loop ends. -/
theorem reaches_applyCommittedEntries {idx : Nat} {Q : Unit → RaftNode → Prop} (n : RaftNode) :
    applyCommittedEntries.Settles applyDuties idx Q n := by
  simp only [applyCommittedEntries, settles_withRead_bind, settles_lock_bind, settles_get_bind]
  intro n₁ _ hdue n₂ _ hdue'
  have hcommit : idx ≤ n₁.commitIndex := hdue.2
  have hbelow : n₂.lastApplied < idx := hdue'.1
  exact Prog.settles_bind (reaches_applyEntries (by omega))

theorem harmless_of_same_progress {f : RaftNode → RaftNode}
    (hf : ∀ n, (f n).lastApplied = n.lastApplied ∧ (f n).commitIndex = n.commitIndex) :
    applyDuties.Harmless f := by
  refine fun n => ⟨Nat.le_of_eq (hf n).1.symm, fun idx hdue => ?_⟩
  simp only [applyDuties] at hdue ⊢
  rwa [(hf n).1, (hf n).2] at hdue

/-- Both places that commit apply next. -/
theorem dutiful_applyDuties : Dutiful applyDuties where
  keepsIndexes f hf := harmless_of_same_progress fun n => ⟨hf.lastApplied n, hf.commitIndex n⟩
  log g := harmless_of_same_progress fun _ => ⟨rfl, rfl⟩
  applies := by
    refine only_applyCommittedEntries_of (fun n => ⟨Nat.le_succ _, fun idx hdue => ?_⟩) fun entry =>
      harmless_of_same_progress fun _ => ⟨rfl, rfl⟩
    exact ⟨Nat.lt_of_succ_lt hdue.1, hdue.2⟩
  notifies := only_notifyPendingRequests_of fun idx => harmless_of_same_progress fun _ => ⟨rfl, rfl⟩
  registers := fun held idx tx next =>
    have hregister : applyDuties.Harmless (register idx tx) :=
      harmless_of_same_progress fun _ => ⟨rfl, rfl⟩
    Prog.honestWrite_of_harmless hregister held next
  commits := fun held k n _ =>
    ⟨Nat.le_refl _, fun idx _ _ => Prog.settles_bind (reaches_applyCommittedEntries _)⟩
  follows := fun held k sender term _ n _ => by
    refine ⟨Nat.le_refl _, fun idx _ _ => ?_⟩
    rw [settles_unlock_bind]
    exact Prog.settles_bind (reaches_applyCommittedEntries _)

/-! ### The runs -/

/-- The tasks keep to the custody of the indexes, nothing is applied that is not committed, and
what is committed has a task that applies it. -/
structure SeenTasks.Kept (s : SeenTasks) : Prop where
  guarded : s.1.Guarded indexCustody s.2
  applied : s.1.state.lastApplied ≤ s.1.state.commitIndex
  covered : s.1.Covered applyDuties

/-- One step that is `StoreSound` keeps all that, and does not take the commit index back. -/
theorem kept_step {s s' : SeenTasks} {ch : Choice} (h : s.Kept) (hok : s.StoreSound ch)
    (hstep : s.step ch = some s') :
    s'.Kept ∧ s.1.state.commitIndex ≤ s'.1.state.commitIndex := by
  obtain ⟨c', hc', rfl⟩ := Option.map_eq_some_iff.mp hstep
  obtain ⟨hguarded, hgrows⟩ := h.guarded.step hok (fun p hp g n => by
    cases ch with
    | start ev =>
        obtain rfl := Sched.spawn.inj hp
        exact inCustody_handler ev
    | advance i r => cases hp) hc'
  have hcovered := dutiful_applyDuties.covered_step h.covered
    (Config.writes_of_forall (fun _ _ _ => trivial) _ _) hc'
  exact ⟨⟨hguarded, hgrows.2 h.applied, hcovered⟩, hgrows.1⟩

/-- In every interleaving whose steps are `StoreSound` the commit index does not decrease from
any state to a later one, and where no task is running all that is committed is applied. -/
theorem commitMonotone_of_storeSound {n : RaftNode} {tr : List SeenTasks}
    (hstart : n.lastApplied = n.commitIndex) (hrun : SeenTasks.Run n SeenTasks.StoreSound tr) :
    (tr.Pairwise fun later earlier =>
      earlier.1.state.commitIndex ≤ later.1.state.commitIndex) ∧
    ∀ s ∈ tr, s.1.AtRest → s.1.state.lastApplied = s.1.state.commitIndex := by
  have hnothing : ∀ idx, ¬applyDuties.due n idx := by
    intro idx hdue
    have hbelow : n.lastApplied < idx := hdue.1
    have hcommit : idx ≤ n.commitIndex := hdue.2
    omega
  have hinit : (SeenTasks.idle n).Kept :=
    ⟨.initial n _, Nat.le_of_eq hstart, .initial hnothing⟩
  refine ⟨hrun.pairwise hinit (fun _ _ _ => kept_step) fun _ _ _ => Nat.le_trans,
    fun s hs hrest => ?_⟩
  have hkept := hrun.invariant hinit (fun _ _ _ hc hok hstep => (kept_step hc hok hstep).1) s hs
  have hdue := hkept.covered.atRest hrest s.1.state.commitIndex
  by_contra hne
  exact hdue ⟨Nat.lt_of_le_of_ne hkept.applied hne, Nat.le_refl _⟩

/-- "A" leads with two entries in its log, and nothing is committed yet. -/
def leadingNode : RaftNode :=
  (Tasks.final bootedNode (fun _ ch => ch.Below)
    (takesOffice ++ .start (.propose .noop 7) :: advances 2 27 ++
      .start (.propose .noop 8) :: advances 3 27)).state

/-- "B" acknowledges the first entry, and then both. The second task starts after the first one
has stored its result and before it applies. -/
theorem commitMonotone_of_storeSound_twoAnswers :
    (Lib.trace SeenTasks.step (SeenTasks.idle leadingNode) SeenTasks.StoreSound
      (.start (.acknowledged 1) :: advances 0 27 ++
        .start (.acknowledged 2) :: advances 1 54 ++ advances 0 13)).Pairwise
      (fun later earlier => earlier.1.state.commitIndex ≤ later.1.state.commitIndex) ∧
    ∀ s ∈ Lib.trace SeenTasks.step (SeenTasks.idle leadingNode) SeenTasks.StoreSound
      (.start (.acknowledged 1) :: advances 0 27 ++
        .start (.acknowledged 2) :: advances 1 54 ++ advances 0 13),
      s.1.AtRest → s.1.state.lastApplied = s.1.state.commitIndex :=
  commitMonotone_of_storeSound (by decide +kernel) (run_trace (by decide +kernel))

/-! ### Two overlapping answers -/

/-- A task starts as `propose`, `handle_append_entries` or `handle_append_entries_response`, on a
message with a term below `u64::MAX`. -/
def Choice.Replicates : Choice → Prop
  | .start (.propose _ _) => True
  | .start (.receive env) =>
      match env.message with
      | .appendEntries req => req.term < u64Max
      | .appendEntriesResponse resp => resp.term < u64Max
      | _ => False
  | .start _ => False
  | .advance _ _ => True

instance (ch : Choice) : Decidable ch.Replicates := by
  unfold Choice.Replicates
  exact match ch with
    | .start (.receive ⟨_, _, message⟩) =>
        match message with
        | .appendEntries _ | .appendEntriesResponse _ | .requestVote _ | .requestVoteResponse _
        | .clientRequest _ | .clientResponse _ => inferInstance
    | .start .electionTimeout | .start .heartbeatTimeout | .start (.propose _ _) | .advance _ _ =>
        inferInstance

/-- The step removes no entry at or below the commit index. -/
def Tasks.KeepsCommitted (c : Tasks) (ch : Choice) : Prop :=
  match c.step ch with
  | none => True
  | some c' => ∀ idx ∈ List.range (c.state.commitIndex + 1),
      (c.state.log.get idx).isSome → (c'.state.log.get idx).isSome

instance (c : Tasks) (ch : Choice) : Decidable (c.KeepsCommitted ch) := by
  unfold Tasks.KeepsCommitted
  exact match c.step ch with
    | none => inferInstance
    | some _ => inferInstance

/-- A task finds that the first entry can be committed, and drops its locks. Another finds the
same of the second entry, and stores and applies it. Then the first task stores its result. -/
def overlappingAnswers : List Choice :=
  .start (.acknowledged 1) :: advances 0 24 ++
    .start (.acknowledged 2) :: advances 1 54 ++ advances 0 16

/-- The commit index goes from 2 back to 1, and at the end the last applied index is above it. -/
theorem not_commitMonotone : ¬ ∀ (n : RaftNode) (tr : List Tasks), n.lastApplied = n.commitIndex →
    Tasks.Run n (fun c ch => ch.Replicates ∧ c.KeepsCommitted ch) tr →
    (tr.Pairwise fun later earlier => earlier.state.commitIndex ≤ later.state.commitIndex) ∧
      ∀ c ∈ tr, c.AtRest → c.state.lastApplied = c.state.commitIndex := by
  intro h
  have hrun : Tasks.Run leadingNode (fun c ch => ch.Replicates ∧ c.KeepsCommitted ch)
      (Tasks.final leadingNode (fun c ch => ch.Replicates ∧ c.KeepsCommitted ch)
          overlappingAnswers ::
        (Tasks.trace leadingNode (fun c ch => ch.Replicates ∧ c.KeepsCommitted ch)
          overlappingAnswers).tail) :=
    run_final (by decide +kernel)
  obtain ⟨hmono, -⟩ := h _ _ (by decide +kernel) hrun
  have hlast : (Tasks.final leadingNode (fun c ch => ch.Replicates ∧ c.KeepsCommitted ch)
      overlappingAnswers).state.commitIndex = 1 := by
    decide +kernel
  obtain ⟨c, hc, hcommit⟩ : ∃ c ∈ (Tasks.trace leadingNode
      (fun c ch => ch.Replicates ∧ c.KeepsCommitted ch) overlappingAnswers).tail,
      c.state.commitIndex = 2 := by
    decide +kernel
  have hle := List.rel_of_pairwise_cons hmono hc
  rw [hlast, hcommit] at hle
  exact absurd hle (by decide)

end RaftEbpf
