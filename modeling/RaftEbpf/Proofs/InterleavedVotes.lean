import RaftEbpf.Proofs.Concurrent

/-!
# `RaftEbpf.Proofs.InterleavedVotes`: when term and vote are stable under interleaving

The two response handlers compare the response's term with `current_term`, drop the log
mutex, take it again and then store the term and clear the vote.

* `not_voteStable`: between the two, another handler takes the node to a newer term, and the
  step-down takes it back.
* `voteStable_of_voteSound`: where each step-down that gets the mutex again still finds an
  older term, or its own term without a vote, the term never decreases and a vote lasts as
  long as its term.
-/

set_option autoImplicit false

namespace RaftEbpf

open RaftEbpf.Lib
open RaftNode

/-- From one moment to a later one the term does not decrease, and a vote stays while the
term stays. -/
def VoteStable (n n' : RaftNode) : Prop :=
  n.log.currentTerm ≤ n'.log.currentTerm ∧
    (n'.log.currentTerm = n.log.currentTerm →
      ∀ name, n.log.votedFor = some name → n'.log.votedFor = some name)

/-- To store this term and clear the vote moves nothing back: the term is newer, or it is
the node's own and the node has not voted. -/
def MayStore (n : RaftNode) (term : Nat) : Prop :=
  n.log.currentTerm < term ∨ n.log.currentTerm = term ∧ n.log.votedFor = none

instance (n : RaftNode) (term : Nat) : Decidable (MayStore n term) :=
  inferInstanceAs (Decidable (_ ∨ _))

/-- A step-down that gets the log mutex again may still store the response's term, and an
election starts from a term short of `u64::MAX`. -/
def voteSite : Site → List Output → RaftNode → Prop
  | .stepDown term, _, n => MayStore n term
  | .startElection, _, n => n.log.currentTerm < u64Max
  | _, _, _ => True

instance (site : Site) (memo : List Output) (n : RaftNode) : Decidable (voteSite site memo n) := by
  unfold voteSite
  exact match site with
    | .plain | .stepDown _ | .startElection | .becomeLeader | .sendHeartbeats | .propose =>
        inferInstance

/-- The step bears `voteSite` out. Writes of `state.json` may fail. -/
def Tasks.VoteSound (c : Tasks) (ch : Choice) : Prop :=
  Config.Finds voteSite (fun _ => True) c ch.sched

instance (c : Tasks) (ch : Choice) : Decidable (c.VoteSound ch) :=
  inferInstanceAs (Decidable (Config.Finds _ _ _ _))

namespace VoteStable

theorem refl (n : RaftNode) : VoteStable n n := ⟨Nat.le_refl _, fun _ _ h => h⟩

theorem trans {n₁ n₂ n₃ : RaftNode} (h : VoteStable n₁ n₂) (h' : VoteStable n₂ n₃) :
    VoteStable n₁ n₃ := by
  refine ⟨Nat.le_trans h.1 h'.1, fun heq name hv => ?_⟩
  have h12 : n₂.log.currentTerm = n₁.log.currentTerm := by
    have := h.1
    have := h'.1
    omega
  exact h'.2 (heq.trans h12.symm) name (h.2 h12 name hv)

theorem of_eq {n n' : RaftNode} (h : n'.log.persistentState = n.log.persistentState) :
    VoteStable n n' := by
  have hterm : n'.log.currentTerm = n.log.currentTerm := congrArg (·.currentTerm) h
  refine ⟨Nat.le_of_eq hterm.symm, fun _ name hv => ?_⟩
  rw [RaftLog.votedFor, h]
  exact hv

end VoteStable

/-- Around the log mutex: each action is `VoteStable`, and a task without the mutex does not
touch term and vote. -/
def voteDiscipline : Discipline Lock RaftNode Output WriteResult Site where
  mutex := .log
  inv _ := True
  guar held w w' := VoteStable w.state w'.state ∧
    (held = false → w'.state.log.persistentState = w.state.log.persistentState)
  rely held w w' := held = true → w'.state.log.persistentState = w.state.log.persistentState
  site := voteSite
  answer _ := True
  rely_refl _ _ _ := rfl
  rely_trans _ _ _ _ h h' hheld := (h' hheld).trans (h hheld)
  guar_rely held other _ _ hexcl hguar hother := hguar.2 (by
    cases held with
    | false => rfl
    | true => exact absurd (hexcl rfl) (by rw [hother]; decide))
  inv_guar _ _ _ _ := trivial

section Handlers
variable {held : Bool} {memo : List Output} {w : World RaftNode Output}

/-- The end of a task, about which nothing is claimed. -/
abbrev AnyEnd : Unit → Bool → List Output → World RaftNode Output → Prop := fun _ _ _ _ => True

/-- What keeps the vote is safe, whatever it outputs. -/
theorem voteSafe_of_only {E : Output → Prop} {p : NodeProg Unit}
    (h : p.Only LogExclusive KeepsVote E) : p.Safe voteDiscipline held memo AnyEnd w := by
  refine (h.safe (D := voteDiscipline) (fun _ hex => hex rfl) (fun f hf held w => ?_)
    (fun o _ held w => ⟨⟨.refl _, fun _ => rfl⟩, fun _ => trivial⟩) (fun _ _ _ _ => trivial)
    (fun _ => trivial)).mono fun _ _ _ _ _ => trivial
  have heq := hf.persistentState w.state
  exact ⟨⟨.of_eq heq, fun _ => heq⟩, fun _ => trivial⟩

/-- Under the mutex a term is stored where it moves nothing back. -/
theorem voteSafe_setCurrentTerm {term : Nat} (hmay : MayStore w.state term)
    {f : Unit → NodeProg Unit} (h : ∀ w', w'.state.log.persistentState = ⟨term, none⟩ →
      (f ()).Safe voteDiscipline true memo AnyEnd w') :
    (setCurrentTerm term >>= f).Safe voteDiscipline true memo AnyEnd w := by
  refine safe_checked fun r _ w' hw => ?_
  have hstored := persistentState_setCurrentTerm w'.state.log term r
  have hmay' : MayStore w'.state term := by
    rw [MayStore, RaftLog.currentTerm, RaftLog.votedFor, hw rfl]
    exact hmay
  refine ⟨⟨⟨?_, fun heq name hv => ?_⟩, nofun⟩, fun _ => h _ hstored, fun _ _ _ _ => trivial⟩
  · show _ ≤ (RaftLog.setCurrentTerm _ _ _).persistentState.currentTerm
    rw [hstored]
    exact hmay'.elim Nat.le_of_lt fun h => Nat.le_of_eq h.1
  · have hterm : (RaftLog.setCurrentTerm _ _ _).persistentState.currentTerm = _ := heq
    rw [hstored] at hterm
    rcases hmay' with hlt | ⟨-, hnone⟩
    · exact absurd hterm (Nat.ne_of_gt hlt)
    · rw [hnone] at hv
      cases hv

/-- Under the mutex a vote may be stored where there is none, or the same one. -/
theorem voteSafe_setVotedFor {name : String} (hcan : ∀ name', w.state.log.votedFor = some name' →
      (HeaplessString.pushStr 64 name).asStr = name')
    {f : Unit → NodeProg Unit} (h : ∀ w', (f ()).Safe voteDiscipline true memo AnyEnd w') :
    (setVotedFor name >>= f).Safe voteDiscipline true memo AnyEnd w := by
  refine safe_checked fun r _ w' hw => ?_
  have hstored := persistentState_setVotedFor w'.state.log name r
  have hsame : w'.state.log.votedFor = w.state.log.votedFor := by
    rw [RaftLog.votedFor, hw rfl]
    rfl
  refine ⟨⟨⟨?_, fun _ name' hv => ?_⟩, nofun⟩, fun _ => h _, fun _ _ _ _ => trivial⟩
  · show _ ≤ (RaftLog.setVotedFor _ _ _).persistentState.currentTerm
    rw [hstored]
    exact Nat.le_refl _
  · show (RaftLog.setVotedFor _ _ _).persistentState.votedFor.map (·.asStr) = some name'
    rw [hstored]
    exact congrArg some (hcan name' (hsame ▸ hv))

theorem keepsVote_setRole (role : NodeRole) : KeepsVote fun n => { n with role } :=
  ⟨fun _ => rfl, fun _ => rfl, fun _ => rfl⟩

/-- A campaign asks for votes, and leaves its own alone. -/
theorem keepsVote_campaign (newTerm : Nat) :
    (campaign newTerm).Only LogExclusive KeepsVote fun _ => True := by
  have hleader : becomeLeader.Only LogExclusive KeepsVote fun _ => True :=
    keepsVote_becomeLeader.mono (fun _ => id) fun _ _ => trivial
  simp only [campaign, setRole, only_withWrite_bind, only_get_bind, only_readLock_bind, ne_eq,
    reduceCtorEq, not_false_eq_true]
  refine ⟨keepsVote_setRole _, ⟨fun _ => rfl, fun _ => rfl, fun _ => rfl⟩, fun n₁ n₂ =>
    (only_sendAll fun _ _ => trivial).bind fun _ => .ite (fun _ => ?_) fun _ => ?_⟩
  · simp only [only_emit_bind, only_unlock_bind]
    exact ⟨trivial, hleader⟩
  · simp

/-- A vote cast under the mutex. -/
theorem voteSafe_castVote (sender : String) (req : RequestVoteRequest) :
    (castVote sender req).Safe voteDiscipline true memo AnyEnd w := by
  refine safe_get fun w₁ _ => ?_
  dsimp only
  split
  · rename_i hcan
    refine voteSafe_setVotedFor (fun name' hv => ?_) fun w₂ => ?_
    · rw [HeaplessString.pushStr_asStr]
      rcases hcan.1 with hnone | hsome
      · rw [hnone] at hv
        cases hv
      · exact Option.some.inj (hsome.symm.trans hv)
    · refine voteSafe_of_only (E := fun _ => True) ?_
      simp only [only_get_bind, sendRequestVoteResponse]
      exact fun n₁ => Prog.Only.bind (fun n₂ => only_sendAll fun _ _ => trivial) fun _ =>
        only_unlock _
  · exact voteSafe_of_only (keepsVote_of_only
      ((only_sendRequestVoteResponse _ _).bind fun _ => only_unlock _))

/-- The mutex is dropped and taken again. The site says that the term may be stored. -/
theorem voteSafe_stepDown (term : Nat) :
    (stepDown term).Safe voteDiscipline true memo AnyEnd w := by
  refine safe_unlockLog rfl fun w₁ _ => ⟨fun _ => trivial, safe_lockLog rfl fun w₂ _ hmay _ => ?_⟩
  refine voteSafe_setCurrentTerm hmay fun w₃ _ => voteSafe_of_only (E := fun _ => True) ?_
  simp only [setRole, only_withWrite_bind]
  exact ⟨keepsVote_setRole _, only_unlock _⟩

theorem voteSafe_startElection : startElection.Safe voteDiscipline false memo AnyEnd w := by
  rw [startElection_eq]
  refine safe_lockLog rfl fun w₁ _ hterm _ => safe_get fun w₂ hw₂ => ?_
  have hps : w₂.state.log.persistentState = w₁.state.log.persistentState := hw₂ rfl
  have hlt : w₂.state.log.currentTerm < addOne w₂.state.log.currentTerm := by
    rw [addOne_of_lt (by rw [RaftLog.currentTerm, hps]; exact hterm)]
    exact Nat.lt_succ_self _
  refine voteSafe_setCurrentTerm (Or.inl hlt) fun w₃ hw₃ =>
    voteSafe_setVotedFor (fun name' hv => ?_) fun w₄ => voteSafe_of_only (keepsVote_campaign _)
  -- The vote has just been cleared.
  rw [RaftLog.votedFor, hw₃] at hv
  cases hv

theorem voteSafe_handleAppendEntries (sender : String) (req : AppendEntriesRequest) :
    (handleAppendEntries sender req).Safe voteDiscipline false memo AnyEnd w := by
  have htail := fun term => keepsVote_of_only (only_afterTermCheck sender req term)
  rw [handleAppendEntries_eq]
  refine safe_lockLog rfl fun w₁ _ _ _ => safe_get fun w₂ _ => ?_
  split
  · exact voteSafe_of_only (keepsVote_of_only
      ((only_sendAppendEntriesResponse _ _ _).bind fun _ => only_unlock _))
  · split
    · rename_i hgt
      refine voteSafe_setCurrentTerm (Or.inl hgt) fun w₃ _ => voteSafe_of_only (E := NoVote) ?_
      simp only [setRole, only_withWrite_bind]
      exact ⟨keepsVote_setRole _, htail _⟩
    · exact voteSafe_of_only (htail _)

theorem voteSafe_handleAppendEntriesResponse (sender : String) (resp : AppendEntriesResponse) :
    (handleAppendEntriesResponse sender resp).Safe voteDiscipline false memo AnyEnd w := by
  rw [handleAppendEntriesResponse_eq]
  refine safe_lockLog rfl fun w₁ _ _ _ => safe_withRead rfl (by decide) fun w₂ _ => ?_
  split
  · exact voteSafe_of_only (E := NoVote) (only_unlock _)
  · refine safe_get fun w₃ _ => ?_
    split
    · exact voteSafe_stepDown _
    · exact voteSafe_of_only (keepsVote_of_only (only_recordAnswer _ _))

theorem voteSafe_handleRequestVote (sender : String) (req : RequestVoteRequest) :
    (handleRequestVote sender req).Safe voteDiscipline false memo AnyEnd w := by
  rw [handleRequestVote_eq]
  refine safe_lockLog rfl fun w₁ _ _ _ => safe_get fun w₂ _ => ?_
  split
  · exact voteSafe_of_only (keepsVote_of_only
      ((only_sendRequestVoteResponse _ _).bind fun _ => only_unlock _))
  · split
    · rename_i hgt
      exact voteSafe_setCurrentTerm (Or.inl hgt) fun w₃ _ => safe_withWriteAt rfl (by decide)
        fun w₄ _ _ _ => ⟨⟨.of_eq rfl, fun _ => rfl⟩, voteSafe_castVote sender req⟩
    · exact voteSafe_castVote sender req

theorem voteSafe_handleRequestVoteResponse (sender : String) (resp : RequestVoteResponse) :
    (handleRequestVoteResponse sender resp).Safe voteDiscipline false memo AnyEnd w := by
  rw [handleRequestVoteResponse_eq]
  refine safe_lockLog rfl fun w₁ _ _ _ => safe_withRead rfl (by decide) fun w₂ _ => ?_
  split
  · exact voteSafe_of_only (E := NoVote) (only_unlock _)
  · refine safe_get fun w₃ _ => ?_
    split
    · exact voteSafe_stepDown _
    · split
      · exact voteSafe_of_only (keepsVote_countVote _)
      · exact voteSafe_of_only (E := NoVote) (only_unlock _)

/-- Every handler is safe, whatever the others do. -/
theorem voteSafe_handler (ev : Event) : ev.handler.Safe voteDiscipline false memo AnyEnd w := by
  cases ev with
  | electionTimeout => exact voteSafe_startElection
  | heartbeatTimeout => exact voteSafe_of_only keepsVote_sendHeartbeats
  | propose command responseTx => exact voteSafe_of_only (keepsVote_propose _ _)
  | receive envelope =>
      obtain ⟨sender, recipient, message⟩ := envelope
      cases message with
      | appendEntries req => exact voteSafe_handleAppendEntries _ req
      | appendEntriesResponse resp => exact voteSafe_handleAppendEntriesResponse _ resp
      | requestVote req => exact voteSafe_handleRequestVote _ req
      | requestVoteResponse resp => exact voteSafe_handleRequestVoteResponse _ resp
      | clientRequest req => exact voteSafe_of_only (E := NoVote) (Prog.only_pure ())
      | clientResponse resp => exact voteSafe_of_only (E := NoVote) (Prog.only_pure ())

end Handlers

/-- One step of the node keeps its tasks safe and is `VoteStable`. -/
theorem voteSafe_step {c c' : Tasks} {ch : Choice} (h : Config.Safe voteDiscipline c)
    (hok : c.VoteSound ch) (hstep : c.step ch = some c') :
    Config.Safe voteDiscipline c' ∧ VoteStable c.state c'.state := by
  obtain ⟨hsafe, hworld⟩ := h.step hok (fun p hp w => by
    cases ch with
    | start ev =>
        obtain rfl := Sched.spawn.inj hp
        exact voteSafe_handler ev
    | advance i r => cases hp) hstep
  refine ⟨hsafe, ?_⟩
  rcases hworld with heq | ⟨held, hguar⟩
  · have hstate : c'.state = c.state := congrArg World.state heq
    rw [hstate]
    exact .refl _
  · exact hguar.1

/-- In every interleaving whose steps are `VoteSound`, with writes that may fail, term and
vote are stable from each state to every later one. -/
theorem voteStable_of_voteSound {n : RaftNode} {tr : List Tasks}
    (hrun : Tasks.Run n Tasks.VoteSound tr) :
    tr.Pairwise fun later earlier => VoteStable earlier.state later.state :=
  hrun.pairwise (Config.Safe.initial trivial) (fun _ _ _ => voteSafe_step)
    fun _ _ _ => VoteStable.trans

/-- "A" stands for election in term 1. "B" answers with a newer term, and while that handler
is between its two locks "C" asks for a vote in term 5 and gets it. -/
def stepDownGap (answered : Nat) : List Choice :=
  .start .electionTimeout :: advances 0 19 ++
    .start (.receive (.new "B" "A" (.requestVoteResponse ⟨answered, false, .pushStr 64 "B"⟩))) ::
    advances 1 6 ++
    .start (.receive (.new "C" "A" (.requestVote ⟨5, .pushStr 64 "C", 0, 0⟩))) :: advances 2 14

/-- The answer is of term 6, so the step-down still finds an older term. Its write fails. -/
theorem voteStable_of_voteSound_gap :
    (Tasks.trace bootedNode Tasks.VoteSound
      (stepDownGap 6 ++ advances 1 1 ++ [.advance 1 .errOld, .advance 1 .errOld])).Pairwise
      fun later earlier => VoteStable earlier.state later.state :=
  voteStable_of_voteSound (run_trace (by decide +kernel))

/-- The answer is of term 2, and the step-down takes the node from term 5 back to term 2. -/
theorem not_voteStable : ¬ ∀ (n : RaftNode) (tr : List Tasks),
    Tasks.Run n (fun _ ch => ch.Below) tr →
    tr.Pairwise fun later earlier => VoteStable earlier.state later.state := by
  intro h
  have hrun : Tasks.Run bootedNode (fun _ ch => ch.Below)
      (Tasks.final bootedNode (fun _ ch => ch.Below) (stepDownGap 2 ++ advances 1 3) ::
        (Tasks.trace bootedNode (fun _ ch => ch.Below) (stepDownGap 2 ++ advances 1 3)).tail) :=
    run_final (by decide +kernel)
  have hlast : (Tasks.final bootedNode (fun _ ch => ch.Below)
      (stepDownGap 2 ++ advances 1 3)).state.log.currentTerm = 2 := by
    decide +kernel
  obtain ⟨c, hc, hterm⟩ : ∃ c ∈ (Tasks.trace bootedNode (fun _ ch => ch.Below)
      (stepDownGap 2 ++ advances 1 3)).tail, c.state.log.currentTerm = 5 := by
    decide +kernel
  have hle := (List.rel_of_pairwise_cons (h _ _ hrun) hc).1
  rw [hlast, hterm] at hle
  exact absurd hle (by decide)

end RaftEbpf
