import RaftEbpf.Proofs.NodeDuties

/-!
# `RaftEbpf.Proofs.WaitingClients`: when every committed proposal is answered

Three places bring the index of a waiting client and `commit_index` together.
`try_advance_commit_index` raises `commit_index` and then notifies. `handle_append_entries`
raises it without, and `propose` registers its client only after the log mutex is dropped, when
the entry may be committed already.

* `not_allAnswered`: a leader that is deposed commits, as a follower, past the index of its own
  proposal, and the client waits for ever.
* `allAnswered_of_answerSound`: where the last two places meet no such client, none is left
  waiting once all tasks have ended, whatever the interleaving.
-/

set_option autoImplicit false

namespace RaftEbpf

open RaftEbpf.Lib
open RaftNode

/-- No request is pending at or below the commit index. -/
def RaftNode.AllAnswered (n : RaftNode) : Prop :=
  ∀ idx ∈ n.pendingRequests.keys, n.commitIndex < idx

instance (n : RaftNode) : Decidable n.AllAnswered :=
  inferInstanceAs (Decidable (∀ idx ∈ n.pendingRequests.keys, n.commitIndex < idx))

/-- A write of `handle_append_entries`, which is under the log mutex, takes the commit index
past no pending request, and a request is registered above the commit index. -/
def RaftNode.AnswerSound (held : List (Lock × Bool)) (n : RaftNode) (f : RaftNode → RaftNode) :
    Prop :=
  ((Lock.log, true) ∈ held → ∀ idx ∈ n.pendingRequests.keys,
    idx ≤ n.commitIndex ∨ (f n).commitIndex < idx) ∧
  ∀ idx ∈ (f n).pendingRequests.keys, idx ∈ n.pendingRequests.keys ∨ n.commitIndex < idx

instance (held : List (Lock × Bool)) (n : RaftNode) (f : RaftNode → RaftNode) :
    Decidable (AnswerSound held n f) :=
  inferInstanceAs (Decidable (_ ∧ _))

/-- The step is no write, or one that bears `RaftNode.AnswerSound` out. -/
def Tasks.AnswerSound (c : Tasks) (ch : Choice) : Prop :=
  Config.Writes RaftNode.AnswerSound c ch.sched

instance (c : Tasks) (ch : Choice) : Decidable (c.AnswerSound ch) :=
  inferInstanceAs (Decidable (Config.Writes _ _ _))

/-- A request at this index is pending although the index is committed. -/
def answerDuties : Duties Nat Lock RaftNode where
  due n idx := idx ∈ n.pendingRequests.keys ∧ idx ≤ n.commitIndex
  rely _ _ := True
  ok := RaftNode.AnswerSound
  rely_refl _ := trivial
  rely_trans _ _ := trivial

/-! ### What leaves no request unanswered -/

theorem harmless_of_same {f : RaftNode → RaftNode}
    (hf : ∀ n, (f n).commitIndex = n.commitIndex ∧ (f n).pendingRequests = n.pendingRequests) :
    answerDuties.Harmless f := by
  refine fun n => ⟨trivial, fun idx hdue => ?_⟩
  simp only [answerDuties] at hdue ⊢
  rwa [(hf n).1, (hf n).2] at hdue

theorem harmless_erase (idx : Nat) : answerDuties.Harmless fun n =>
    { n with pendingRequests := n.pendingRequests.erase idx } := by
  refine fun n => ⟨trivial, fun i hdue => ?_⟩
  have herase : i ≠ idx ∧ i ∈ n.pendingRequests := AList.mem_erase.mp hdue.1
  exact ⟨herase.2, hdue.2⟩

/-! ### What answers a request -/

/-- The loop takes each of its requests off the list. -/
theorem settles_notifyEach {idx : Nat} {Q : Unit → RaftNode → Prop} {indices : List Nat}
    (hidx : idx ∈ indices) (n : RaftNode) : (notifyEach indices).Settles answerDuties idx Q n := by
  induction indices generalizing n with
  | nil => cases hidx
  | cons idx' rest ih =>
      simp only [notifyEach, settles_get_bind]
      intro n₁ _ hdue
      rcases List.mem_cons.mp hidx with rfl | hrest
      · -- Its turn: the request is there, and then it is not.
        obtain ⟨tx, htx⟩ := Option.isSome_iff_exists.mp
          (AList.lookup_isSome.mpr (AList.mem_keys.mp hdue.1))
        simp only [htx, settles_modify_bind]
        intro n₂ _ _ hdue'
        have herase : idx ≠ idx ∧ idx ∈ n₂.pendingRequests := AList.mem_erase.mp hdue'.1
        exact absurd rfl herase.1
      · split
        · simp only [settles_modify_bind, settles_emit_bind]
          exact fun n₂ _ _ _ => ih hrest _
        · exact ih hrest _

theorem settles_notifyPendingRequests {idx upToIndex : Nat} (hidx : idx ≤ upToIndex)
    (n : RaftNode) : (notifyPendingRequests upToIndex).Settles answerDuties idx (fun _ _ => False) n := by
  simp only [notifyPendingRequests, settles_lock_bind, settles_get_bind]
  intro n₁ _ hdue
  have hmem : idx ∈ n₁.pendingRequests.keys.filter fun i => decide (i ≤ upToIndex) :=
    List.mem_filter.mpr ⟨hdue.1, decide_eq_true hidx⟩
  exact Prog.settles_bind (settles_notifyEach hmem _)

/-- To apply what is committed answers nobody, and it always comes to its end. -/
theorem settles_applyEntries {idx : Nat} {Q : Unit → RaftNode → Prop} (hQ : ∀ n, Q () n)
    (steps : Nat) (n : RaftNode) : (applyEntries steps).Settles answerDuties idx Q n := by
  induction steps generalizing n with
  | zero => exact fun n' _ _ => hQ n'
  | succ steps ih =>
      simp only [applyEntries, settles_modify_bind, settles_get_bind]
      intro n₁ _ _ _ n₂ _ _
      split
      · simp only [settles_modify_bind, settles_emit_bind]
        exact fun n₃ _ _ _ => ih _
      · exact ih _

theorem settles_applyCommittedEntries {idx : Nat} {Q : Unit → RaftNode → Prop} (hQ : ∀ n, Q () n)
    (n : RaftNode) : applyCommittedEntries.Settles answerDuties idx Q n := by
  simp only [applyCommittedEntries, settles_withRead_bind, settles_lock_bind, settles_get_bind]
  intro n₁ _ _ n₂ _ _
  exact Prog.settles_bind (settles_applyEntries (fun n₃ => fun n₄ _ _ => hQ n₄) _ _)

/-- A leader answers what it commits. The other two places find nobody to answer. -/
theorem dutiful_answerDuties : Dutiful answerDuties where
  keepsIndexes f hf := harmless_of_same fun n => ⟨hf.commitIndex n, hf.pendingRequests n⟩
  log g := harmless_of_same fun _ => ⟨rfl, rfl⟩
  applies := only_applyCommittedEntries_of (harmless_of_same fun _ => ⟨rfl, rfl⟩)
    fun _ => harmless_of_same fun _ => ⟨rfl, rfl⟩
  notifies := only_notifyPendingRequests_of harmless_erase
  registers := fun held idx tx next n hok => by
    refine ⟨trivial, fun i hno hdue => ?_⟩
    rcases hok.2 i hdue.1 with hold | habove
    · exact absurd ⟨hold, hdue.2⟩ hno
    · exact absurd habove (Nat.not_lt.mpr hdue.2)
  commits := fun held k n hok => by
    refine ⟨trivial, fun i hno hdue => ?_⟩
    exact Prog.settles_bind (settles_applyCommittedEntries
      (settles_notifyPendingRequests hdue.2) _)
  follows := fun held k sender term hlog n hok => by
    refine ⟨trivial, fun i hno hdue => ?_⟩
    rcases hok.1 hlog i hdue.1 with hold | habove
    · exact absurd ⟨hdue.1, hold⟩ hno
    · exact absurd habove (Nat.not_lt.mpr hdue.2)

/-- In every interleaving whose steps are `AnswerSound` no request is left pending at or below
the commit index where no task is running. -/
theorem allAnswered_of_answerSound {n : RaftNode} {tr : List Tasks} (hstart : n.AllAnswered)
    (hrun : Tasks.Run n Tasks.AnswerSound tr) :
    ∀ c ∈ tr, c.AtRest → c.state.AllAnswered := by
  have hnothing : ∀ idx, ¬answerDuties.due n idx :=
    fun idx hdue => absurd (hstart idx hdue.1) (Nat.not_lt.mpr hdue.2)
  have hcovered := hrun.invariant (I := fun c => c.Covered answerDuties) (.initial hnothing)
    fun _ _ _ hc hok hstep => dutiful_answerDuties.covered_step hc hok hstep
  intro c hc hrest idx hidx
  by_contra hle
  exact (hcovered c hc).atRest hrest idx ⟨hidx, Nat.not_lt.mp hle⟩

/-- "A" leads and proposes. "B" acknowledges the entry, and the client is told. -/
def toldClient : List Choice :=
  takesOffice ++ .start (.propose .noop 7) :: advances 2 27 ++
    .start (.acknowledged 1) :: advances 3 47

theorem allAnswered_of_answerSound_acknowledged :
    (Tasks.final bootedNode Tasks.AnswerSound toldClient).state.AllAnswered :=
  allAnswered_of_answerSound (by decide) (run_final (by decide +kernel)) _ List.mem_cons_self
    (by decide +kernel)

/-- "A" leads and proposes. "B" gets the entry, is the leader of term 2, and takes "A" past it: "A"
commits what its client proposed. -/
def deposedLeader : List Choice :=
  takesOffice ++ .start (.propose .noop 7) :: advances 2 27 ++
    .start (.receive (.new "B" "A" (.appendEntries
      { term := 2
        leaderId := .pushStr 64 "B"
        prevLogIndex := 1
        prevLogTerm := 1
        entries := .collectTake 64 [⟨2, 2, .noop⟩]
        leaderCommit := 2 }))) :: advances 3 43

/-- The client of "A" still waits once all tasks have ended. -/
theorem not_allAnswered : ¬ ∀ (n : RaftNode) (tr : List Tasks), n.AllAnswered →
    Tasks.Run n (fun _ ch => ch.Below) tr → ∀ c ∈ tr, c.AtRest → c.state.AllAnswered := by
  intro h
  have hrun : Tasks.Run bootedNode (fun _ ch => ch.Below)
      (Tasks.final bootedNode (fun _ ch => ch.Below) deposedLeader ::
        (Tasks.trace bootedNode (fun _ ch => ch.Below) deposedLeader).tail) :=
    run_final (by decide +kernel)
  have hrest : (Tasks.final bootedNode (fun _ ch => ch.Below) deposedLeader).AtRest := by
    decide +kernel
  have hlast := h _ _ (by decide) hrun _ List.mem_cons_self hrest
  exact absurd hlast (by decide +kernel)

/-- A heartbeat takes the entry to "B", and the answer commits it before `propose` registers its
client. -/
def lateRegistration : List Choice :=
  takesOffice ++ .start (.propose .noop 7) :: advances 2 8 ++
    .start .heartbeatTimeout :: advances 3 16 ++ .start (.acknowledged 1) :: advances 4 44 ++
    advances 2 19

/-- The other order that leaves a client waiting. -/
example : (Tasks.final bootedNode (fun _ ch => ch.Below) lateRegistration).AtRest ∧
    ¬(Tasks.final bootedNode (fun _ ch => ch.Below) lateRegistration).state.AllAnswered := by
  decide +kernel

end RaftEbpf
