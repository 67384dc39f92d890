import RaftEbpf.Proofs.NodeRun

/-!
# `RaftEbpf.Proofs.Locks`: when a request is answered

The log mutex is not re-entrant, and `send_append_entries_response` takes it. Two exits of
`handle_append_entries` call it with the mutex still held.

* `answered_iff`: a RequestVote request is always answered, and an AppendEntries request
  exactly if its term is not stale and its previous entry is in the log.
* `not_answered`: a node that has seen a newer term hangs on a stale heartbeat.
-/

set_option autoImplicit false

namespace RaftEbpf.RaftNode

open RaftEbpf.Lib (Prog)

/-- The answers to requests among the envelopes a handler sent. -/
def responses (out : List Output) : List MessageEnvelope :=
  out.filterMap fun o =>
    match o with
    | .send env =>
        match env.message with
        | .appendEntriesResponse _ => some env
        | .requestVoteResponse _ => some env
        | _ => none
    | _ => none

/-- Handled with all locks free and no failing write, the envelope's handler does not block
on itself, leaves the log mutex free and sends exactly one answer, to the envelope's
sender. -/
def Answered (n : RaftNode) (env : MessageEnvelope) : Prop :=
  ∃ n' out held, (handleMessage env).runLocked [] n [] = .finished true n' out held ∧
    Lock.log ∉ held ∧ ∃ answer, responses out = [answer] ∧ answer.recipient = env.sender

/-! ### The primitives over the locks -/

section Primitives
variable (cs : List WriteResult) (n : RaftNode) (held : List Lock)
  (post : Unit → List WriteResult → RaftNode → List Lock → Prop)

@[simp] theorem endsWith_pure (a : Unit) :
    (pure a : NodeProg Unit).EndsWith cs n held post ↔ post a cs n held := Iff.rfl

@[simp] theorem endsWith_lockAt (l : Lock) (site : Site) :
    (lockAt l site).EndsWith cs n held post ↔ l ∉ held ∧ post () cs n (l :: held) := Iff.rfl

@[simp] theorem endsWith_lock (l : Lock) :
    (lock l).EndsWith cs n held post ↔ l ∉ held ∧ post () cs n (l :: held) := Iff.rfl

@[simp] theorem endsWith_unlock (l : Lock) :
    (unlock l).EndsWith cs n held post ↔ post () cs n (held.erase l) := Iff.rfl

@[simp] theorem endsWith_get (post : RaftNode → List WriteResult → RaftNode → List Lock → Prop) :
    get.EndsWith cs n held post ↔ post n cs n held := Iff.rfl

@[simp] theorem endsWith_modify (f : RaftNode → RaftNode) :
    (modify f).EndsWith cs n held post ↔ post () cs (f n) held := Iff.rfl

@[simp] theorem endsWith_emit (o : Output) :
    (.emit o (.done ()) : NodeProg Unit).EndsWith cs n held post ↔ post () cs n held := Iff.rfl

@[simp] theorem endsWith_withRead {α : Type} (l : Lock) (f : RaftNode → α)
    (post : α → List WriteResult → RaftNode → List Lock → Prop) :
    (withRead l f).EndsWith cs n held post ↔ l ∉ held ∧ post (f n) cs n held := by
  show l ∉ held ∧ post (f n) cs n ((l :: held).erase l) ↔ _
  rw [List.erase_cons_head]

@[simp] theorem endsWith_withWrite (l : Lock) (f : RaftNode → RaftNode) :
    (withWrite l f).EndsWith cs n held post ↔ l ∉ held ∧ post () cs (f n) held := by
  show l ∉ held ∧ post () cs (f n) ((l :: held).erase l) ↔ _
  rw [List.erase_cons_head]

@[simp] theorem endsWith_setRole (role : NodeRole) :
    (setRole role).EndsWith cs n held post ↔
      Lock.role ∉ held ∧ post () cs { n with role } held :=
  endsWith_withWrite cs n held post .role _

@[simp] theorem endsWith_sendAll (envs : List MessageEnvelope) :
    (sendAll envs).EndsWith cs n held post ↔ post () cs n held := by
  induction envs with
  | nil => rfl
  | cons env envs ih => simp [sendAll, Prog.endsWith_bind, ih]

@[simp] theorem endsWith_setCurrentTerm (term : Nat) :
    (setCurrentTerm term).EndsWith [] n held post ↔
      post () [] { n with log := n.log.setCurrentTerm term .ok } held := Iff.rfl

@[simp] theorem endsWith_setVotedFor (candidateId : String) :
    (setVotedFor candidateId).EndsWith [] n held post ↔
      post () [] { n with log := n.log.setVotedFor (some candidateId) .ok } held := Iff.rfl

end Primitives

/-! ### The handlers over the locks -/

section Handlers
variable (n : RaftNode) (held : List Lock)
  (post : Unit → List WriteResult → RaftNode → List Lock → Prop)

/-- Applying entries takes no lock. -/
theorem endsWith_applyEntries (steps : Nat) (h : ∀ n', post () [] n' held) :
    (applyEntries steps).EndsWith [] n held post := by
  induction steps generalizing n with
  | zero => exact h n
  | succ steps ih =>
      cases he : n.log.get (n.lastApplied + 1) with
      | none =>
          simp only [applyEntries, Prog.endsWith_bind, endsWith_modify, endsWith_get, he]
          exact ih _
      | some entry =>
          simp only [applyEntries, Prog.endsWith_bind, endsWith_modify, endsWith_get, he,
            endsWith_emit]
          exact ih _

/-- `apply_committed_entries` takes four locks and drops them. -/
theorem endsWith_applyCommittedEntries (h : ∀ n', post () [] n' []) :
    applyCommittedEntries.EndsWith [] n [] post := by
  simp only [applyCommittedEntries, Prog.endsWith_bind, endsWith_withRead, endsWith_lock,
    endsWith_get, List.not_mem_nil, not_false_eq_true, true_and]
  refine ⟨by decide, by decide, endsWith_applyEntries _ _ _ _ fun n' => ?_⟩
  exact h n'

/-- `send_append_entries_response` takes the log mutex: it blocks where the caller has it. -/
@[simp] theorem endsWith_sendAppendEntriesResponse (recipient : String) (term : Nat)
    (success : Bool) : (sendAppendEntriesResponse recipient term success).EndsWith [] n held post ↔
      Lock.log ∉ held ∧ post () [] n held := by
  simp [sendAppendEntriesResponse, Prog.endsWith_bind]

@[simp] theorem endsWith_sendRequestVoteResponse (recipient : String) (term : Nat)
    (voteGranted : Bool) :
    (sendRequestVoteResponse recipient term voteGranted).EndsWith [] n held post ↔
      post () [] n held := by
  simp [sendRequestVoteResponse, Prog.endsWith_bind]

/-- `handle_request_vote` ends with the log mutex free. -/
theorem endsWith_handleRequestVote (sender : String) (req : RequestVoteRequest) :
    (handleRequestVote sender req).EndsWith [] n [] fun _ _ _ held => Lock.log ∉ held := by
  simp only [handleRequestVote, Prog.endsWith_bind, endsWith_lock, endsWith_get]
  refine ⟨List.not_mem_nil, ?_⟩
  split
  · simp [Prog.endsWith_bind]
  · split
    · simp only [Prog.endsWith_bind, endsWith_setCurrentTerm, endsWith_setRole, endsWith_get]
      refine ⟨by decide, ?_⟩
      split <;> simp [Prog.endsWith_bind]
    · simp only [Prog.endsWith_bind, endsWith_get]
      split <;> simp [Prog.endsWith_bind]

/-- A stale request: the answer is built while the mutex is still held. -/
theorem not_endsWith_stale (sender : String) (req : AppendEntriesRequest)
    (h : req.term < n.log.currentTerm) :
    ¬ (handleAppendEntries sender req).EndsWith [] n [] post := by
  simp [handleAppendEntries, Prog.endsWith_bind, h]

/-- A request whose previous entry is missing: again the mutex is still held. -/
theorem not_endsWith_mismatch (sender : String) (req : AppendEntriesRequest)
    (h : ¬ req.term < n.log.currentTerm) (hm : Mismatch n req) :
    ¬ (handleAppendEntries sender req).EndsWith [] n [] post := by
  obtain ⟨hp, he⟩ := hm
  by_cases ht : req.term > n.log.currentTerm
  · have he' : (n.log.setCurrentTerm req.term .ok).hasEntry req.prevLogIndex req.prevLogTerm
        = false := he
    simp [handleAppendEntries, Prog.endsWith_bind, h, ht, hp, he']
  · simp [handleAppendEntries, Prog.endsWith_bind, h, ht, hp, he]

/-- Any other request: the mutex is dropped before entries are applied and the answer is
built. -/
theorem endsWith_accept (sender : String) (req : AppendEntriesRequest)
    (h : ¬ req.term < n.log.currentTerm) (hm : ¬ Mismatch n req) :
    (handleAppendEntries sender req).EndsWith [] n [] fun _ _ _ held => Lock.log ∉ held := by
  have hanswer : ∀ (n' : RaftNode) (term : Nat), applyCommittedEntries.EndsWith [] n' []
      fun _ cs n₂ held => (sendAppendEntriesResponse sender term true).EndsWith cs n₂ held
        fun _ _ _ held' => Lock.log ∉ held' :=
    fun n' term => endsWith_applyCommittedEntries n' _ fun n₂ => by simp
  -- The guard of the mismatch branch, at the log after the term check.
  have hm' : ¬ (0 < req.prevLogIndex ∧
      (raiseTerm n req.term).log.hasEntry req.prevLogIndex req.prevLogTerm = false) := by
    rw [raiseTerm_hasEntry]
    exact hm
  by_cases ht : req.term > n.log.currentTerm <;>
    by_cases he : req.entries.toVec = [] <;>
    by_cases hc : req.leaderCommit > n.commitIndex <;>
    · simp only [raiseTerm, ht, if_true, if_false] at hm'
      simp [handleAppendEntries, Prog.endsWith_bind, h, ht, hm', he, hc, hanswer,
        -endsWith_sendAppendEntriesResponse]

/-- `handle_append_entries` ends, with the log mutex free, exactly on the requests that it
accepts. -/
theorem endsWith_handleAppendEntries (sender : String) (req : AppendEntriesRequest) :
    ((handleAppendEntries sender req).EndsWith [] n [] fun _ _ _ held => Lock.log ∉ held) ↔
      ¬ req.term < n.log.currentTerm ∧ ¬ Mismatch n req := by
  constructor
  · intro hends
    have hold : ¬ req.term < n.log.currentTerm :=
      fun h => not_endsWith_stale n _ sender req h hends
    exact ⟨hold, fun hm => not_endsWith_mismatch n _ sender req hold hm hends⟩
  · rintro ⟨hold, hm⟩
    exact endsWith_accept n sender req hold hm

end Handlers

/-! ### One answer for each request -/

/-- Applying entries answers no request. -/
theorem Applies.responses {n n' : RaftNode} {out : List Output} (h : Applies n n' out) :
    responses out = [] := by
  rw [RaftNode.responses, List.filterMap_eq_nil_iff]
  intro o ho
  obtain ⟨i, e, rfl, -⟩ := h.outputs o ho
  rfl

/-- What is answered when the handler, alone, ends and has sent one answer. -/
theorem answered_iff_endsWith {n : RaftNode} {env : MessageEnvelope} (h :
    ∃ answer, responses ((handleMessage env).run [] n).out = [answer] ∧
      answer.recipient = env.sender) :
    Answered n env ↔
      (handleMessage env).EndsWith [] n [] fun _ _ _ held => Lock.log ∉ held := by
  rw [Prog.endsWith_iff_runLocked]
  constructor
  · rintro ⟨n', out, held, hrun, hfree, -⟩
    exact ⟨n', out, held, hrun, hfree⟩
  · rintro ⟨n', out, held, hrun, hfree⟩
    obtain ⟨-, -, rfl⟩ := Prog.runLocked_finished _ hrun
    exact ⟨n', _, held, hrun, hfree, h⟩

/-- A RequestVote request is always answered. An AppendEntries request is answered exactly
if its term is not stale and its previous entry is in the log. -/
theorem answered_iff (n : RaftNode) (sender recipient : HeaplessString 64) :
    (∀ req, Answered n ⟨sender, recipient, .requestVote req⟩) ∧
    ∀ req, Answered n ⟨sender, recipient, .appendEntries req⟩ ↔
      ¬ req.term < n.log.currentTerm ∧ ¬ Mismatch n req := by
  refine ⟨fun req => ?_, fun req => ?_⟩
  · rw [answered_iff_endsWith]
    · exact endsWith_handleRequestVote n sender.asStr req
    · simp only [handleMessage, run_handleRequestVote]
      split
      · exact ⟨_, rfl, HeaplessString.pushStr_asStr sender⟩
      · split
        · exact ⟨_, rfl, HeaplessString.pushStr_asStr sender⟩
        · exact ⟨_, rfl, HeaplessString.pushStr_asStr sender⟩
  · rw [answered_iff_endsWith]
    · exact endsWith_handleAppendEntries n sender.asStr req
    · simp only [handleMessage]
      by_cases hold : req.term < n.log.currentTerm
      · rw [run_handleAppendEntries_stale n _ req hold]
        exact ⟨_, rfl, HeaplessString.pushStr_asStr sender⟩
      · by_cases hm : Mismatch n req
        · rw [run_handleAppendEntries_mismatch n _ req hold hm]
          exact ⟨_, rfl, HeaplessString.pushStr_asStr sender⟩
        · obtain ⟨n', out, hrun, happ⟩ := run_handleAppendEntries_accept n sender.asStr req hold hm
          rw [hrun]
          refine ⟨appendEntriesAnswer n' sender.asStr n.log.currentTerm true, ?_,
            HeaplessString.pushStr_asStr sender⟩
          have hnil : out.filterMap _ = [] := happ.responses
          rw [responses, List.filterMap_append, hnil]
          rfl

/-- A node that stood for election twice gets a heartbeat of term 1, and waits for itself. -/
theorem not_answered : ¬ ∀ (n : RaftNode) (sender recipient : HeaplessString 64),
    (∀ req, Answered n ⟨sender, recipient, .requestVote req⟩) ∧
    ∀ req, Answered n ⟨sender, recipient, .appendEntries req⟩ := by
  intro h
  let n := candidateOf (candidateOf (.withLog "A" (peerMap [("B", "b")]) (.unloaded .empty)))
  let req : AppendEntriesRequest := ⟨1, .pushStr 64 "B", 0, 0, .collectTake 64 [], 0⟩
  obtain ⟨n', out, held, hrun, -⟩ := (h n (.pushStr 64 "B") (.pushStr 64 "A")).2 req
  have hblocked : (handleAppendEntries (HeaplessString.pushStr 64 "B").asStr req).runLocked [] n []
      = .blocked n [] := rfl
  rw [handleMessage, hblocked] at hrun
  cases hrun

end RaftEbpf.RaftNode
