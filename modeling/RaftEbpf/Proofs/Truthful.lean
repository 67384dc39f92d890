import Mathlib.Data.List.Induction
import RaftEbpf.Interleaving
import RaftEbpf.Lifetime
import RaftEbpf.Proofs.Locks
import RaftEbpf.Proofs.Neutral
import RaftEbpf.Proofs.StoreEntries

/-!
# `RaftEbpf.Proofs.Truthful`: what the answers say about the node

Two handlers answer requests, at five exits. Four of them answer with the term the node has by
then. An accepted `AppendEntries` request is answered with the term that the node had on entry.

* `tellsTruth_iff`: the answer to a request tells the truth about term, vote and log exactly if
  an accepted `AppendEntries` request is of the term the node had on entry, and does not carry
  two entries for one index with different terms.
* `not_tellsTruth`: a Follower of term 0 answers the first heartbeat of term 1 with term 0.
-/

set_option autoImplicit false

namespace RaftEbpf.RaftNode

open RaftEbpf.Lib (Prog)

/-- What an answer to an `AppendEntries` request says about the node is so: the term is the
current one, and with a success the request is of that term, the log has the terms of its
entries, and ends where the answer says. -/
structure AppendTruth (n : RaftNode) (req : AppendEntriesRequest) (resp : AppendEntriesResponse) :
    Prop where
  term : resp.term = n.log.currentTerm
  success : resp.success = true → resp.term = req.term ∧
    (∀ e ∈ req.entries.toVec, n.log.termAt e.index = some e.term) ∧
    resp.lastLogIndex = n.log.lastIndex

/-- What an answer to a `RequestVote` request says about the node is so: the term is the current
one, and with a grant the request is of that term and the vote is stored. -/
structure VoteTruth (n : RaftNode) (req : RequestVoteRequest) (resp : RequestVoteResponse) :
    Prop where
  term : resp.term = n.log.currentTerm
  granted : resp.voteGranted = true → resp.term = req.term ∧
    n.log.votedFor = some req.candidateId.asStr

/-- The answer to a request tells the truth about the node. -/
def Truth (n : RaftNode) (request answer : RaftMessage) : Prop :=
  match request, answer with
  | .appendEntries req, .appendEntriesResponse resp => n.AppendTruth req resp
  | .requestVote req, .requestVoteResponse resp => n.VoteTruth req resp
  | _, _ => False

/-- The handler of a request sends one answer, and it tells the truth about the state that the
handler leaves. -/
def TellsTruth (n : RaftNode) (env : MessageEnvelope) (ws : List WriteResult) : Prop :=
  let r := (handleMessage env).run ws n
  ∃ answer, responses r.out = [answer] ∧ r.state.Truth env.message answer.message

/-- The message is a request of the protocol. -/
def IsRequest (message : RaftMessage) : Prop :=
  match message with
  | .appendEntries _ => True
  | .requestVote _ => True
  | _ => False

section Decidable
variable (n : RaftNode)

instance (req : AppendEntriesRequest) (resp : AppendEntriesResponse) :
    Decidable (n.AppendTruth req resp) :=
  decidable_of_iff (_ ∧ _) ⟨fun h => ⟨h.1, h.2⟩, fun h => ⟨h.term, h.success⟩⟩

instance (req : RequestVoteRequest) (resp : RequestVoteResponse) :
    Decidable (n.VoteTruth req resp) :=
  decidable_of_iff (_ ∧ _) ⟨fun h => ⟨h.1, h.2⟩, fun h => ⟨h.term, h.granted⟩⟩

instance (request answer : RaftMessage) : Decidable (n.Truth request answer) := by
  unfold Truth
  exact match request with
    | .appendEntries _ | .requestVote _ =>
        match answer with
        | .appendEntries _ | .appendEntriesResponse _ | .requestVote _ | .requestVoteResponse _
        | .clientRequest _ | .clientResponse _ => inferInstance
    | .appendEntriesResponse _ | .requestVoteResponse _ | .clientRequest _ | .clientResponse _ =>
        inferInstance

/-- There is one answer, and it tells the truth. -/
instance (env : MessageEnvelope) (ws : List WriteResult) : Decidable (n.TellsTruth env ws) :=
  let r := (handleMessage env).run ws n
  match h : responses r.out with
  | [answer] => decidable_of_iff (r.state.Truth env.message answer.message)
      ⟨fun ht => ⟨answer, h, ht⟩, fun ⟨_, heq, ht⟩ => List.singleton_inj.mp (h.symm.trans heq) ▸ ht⟩
  | [] => isFalse fun ⟨_, heq, _⟩ => nomatch h.symm.trans heq
  | _ :: _ :: _ => isFalse fun ⟨_, heq, _⟩ => nomatch h.symm.trans heq

end Decidable

/-- An `AppendEntries` request that is accepted is of the node's own term, and it does not carry
two entries for one index with different terms. -/
def OwnTermRequest (n : RaftNode) (request : RaftMessage) : Prop :=
  match request with
  | .appendEntries req => n.log.currentTerm ≤ req.term → ¬ Mismatch n req →
      req.term = n.log.currentTerm ∧
        ∀ e ∈ req.entries.toVec, ∀ f ∈ req.entries.toVec, e.index = f.index → e.term = f.term
  | _ => True

instance (n : RaftNode) (request : RaftMessage) : Decidable (n.OwnTermRequest request) := by
  unfold OwnTermRequest
  exact match request with
    | .appendEntries _ | .appendEntriesResponse _ | .requestVote _ | .requestVoteResponse _
    | .clientRequest _ | .clientResponse _ => inferInstance

/-! ### A write that fails is an `Err` -/

section Checked
variable {β : Type}

@[simp] theorem checked_lock_bind (l : Lock) (f : Unit → NodeProg β) :
    (lock l >>= f).Checked ↔ (f ()).Checked := Iff.rfl

@[simp] theorem checked_readLock_bind (l : Lock) (f : Unit → NodeProg β) :
    (readLock l >>= f).Checked ↔ (f ()).Checked := Iff.rfl

@[simp] theorem checked_unlock_bind (l : Lock) (f : Unit → NodeProg β) :
    (unlock l >>= f).Checked ↔ (f ()).Checked := Iff.rfl

@[simp] theorem checked_get_bind (f : RaftNode → NodeProg β) :
    (get >>= f).Checked ↔ ∀ n, (f n).Checked := Iff.rfl

@[simp] theorem checked_modify_bind (g : RaftNode → RaftNode) (f : Unit → NodeProg β) :
    (modify g >>= f).Checked ↔ (f ()).Checked := Iff.rfl

@[simp] theorem checked_emit_bind (o : Output) (f : Unit → NodeProg β) :
    ((.emit o (.done ()) : NodeProg Unit) >>= f).Checked ↔ (f ()).Checked := Iff.rfl

@[simp] theorem checked_withRead_bind {α : Type} (l : Lock) (g : RaftNode → α)
    (f : α → NodeProg β) : (withRead l g >>= f).Checked ↔ ∀ n, (f (g n)).Checked := Iff.rfl

@[simp] theorem checked_withWrite_bind (l : Lock) (g : RaftNode → RaftNode)
    (f : Unit → NodeProg β) : (withWrite l g >>= f).Checked ↔ (f ()).Checked := Iff.rfl

@[simp] theorem checked_setRole_bind (role : NodeRole) (f : Unit → NodeProg β) :
    (setRole role >>= f).Checked ↔ (f ()).Checked := Iff.rfl

theorem checked_checkWrite_bind {w : WriteResult} (hw : w ≠ default) (f : Unit → NodeProg β)
    (cs : List WriteResult) (n : RaftNode) : ((checkWrite w >>= f).run cs n).value = none := by
  cases w with
  | ok => exact absurd rfl hw
  | errOld => rfl
  | errUnparsable => rfl

@[simp] theorem checked_setCurrentTerm_bind (term : Nat) (f : Unit → NodeProg β) :
    (setCurrentTerm term >>= f).Checked ↔ (f ()).Checked :=
  and_iff_left fun _ hw cs _ => checked_checkWrite_bind hw f cs _

@[simp] theorem checked_setVotedFor_bind (name : String) (f : Unit → NodeProg β) :
    (setVotedFor name >>= f).Checked ↔ (f ()).Checked :=
  and_iff_left fun _ hw cs _ => checked_checkWrite_bind hw f cs _

theorem checked_sendAll (envs : List MessageEnvelope) : (sendAll envs).Checked := by
  induction envs with
  | nil => trivial
  | cons env envs ih => exact ih

theorem checked_applyEntries (steps : Nat) : (applyEntries steps).Checked := by
  induction steps with
  | zero => trivial
  | succ steps ih =>
      simp only [applyEntries, checked_modify_bind, checked_get_bind]
      intro n
      split
      · simpa only [checked_modify_bind, checked_emit_bind] using ih
      · exact ih

theorem checked_applyCommittedEntries : applyCommittedEntries.Checked := by
  simp only [applyCommittedEntries, checked_withRead_bind, checked_lock_bind, checked_get_bind]
  exact fun _ _ => (checked_applyEntries _).bind fun _ => trivial

theorem checked_sendAppendEntriesResponse (recipient : String) (term : Nat) (success : Bool) :
    (sendAppendEntriesResponse recipient term success).Checked := by
  simp only [sendAppendEntriesResponse, checked_lock_bind, checked_get_bind]
  exact fun _ => (checked_sendAll _).bind fun _ => trivial

theorem checked_afterTermCheck (sender : String) (req : AppendEntriesRequest)
    (currentTerm : Nat) : (afterTermCheck sender req currentTerm).Checked := by
  have hanswer : (applyCommittedEntries >>= fun _ =>
      sendAppendEntriesResponse sender currentTerm true).Checked :=
    checked_applyCommittedEntries.bind fun _ => checked_sendAppendEntriesResponse _ _ _
  simp only [afterTermCheck, checked_withWrite_bind, checked_get_bind]
  intro n
  split
  · exact (checked_sendAppendEntriesResponse _ _ _).bind fun _ => trivial
  · split
    · simp only [checked_modify_bind, checked_withRead_bind]
      intro n
      split
      · exact fun _ => hanswer
      · exact hanswer
    · simp only [checked_withRead_bind]
      intro n
      split
      · exact fun _ => hanswer
      · exact hanswer

theorem checked_handleAppendEntries (sender : String) (req : AppendEntriesRequest) :
    (handleAppendEntries sender req).Checked := by
  rw [handleAppendEntries_eq]
  simp only [checked_lock_bind, checked_get_bind]
  intro n
  split
  · exact (checked_sendAppendEntriesResponse _ _ _).bind fun _ => trivial
  · split
    · simp only [checked_setCurrentTerm_bind, checked_setRole_bind]
      exact checked_afterTermCheck _ _ _
    · exact checked_afterTermCheck _ _ _

theorem checked_sendRequestVoteResponse (recipient : String) (term : Nat) (voteGranted : Bool) :
    (sendRequestVoteResponse recipient term voteGranted).Checked := by
  simp only [sendRequestVoteResponse, checked_get_bind]
  exact fun _ => checked_sendAll _

theorem checked_castVote (sender : String) (req : RequestVoteRequest) :
    (castVote sender req).Checked := by
  simp only [castVote, checked_get_bind]
  intro n
  split
  · simp only [checked_setVotedFor_bind, checked_get_bind]
    exact fun _ => (checked_sendRequestVoteResponse _ _ _).bind fun _ => trivial
  · exact (checked_sendRequestVoteResponse _ _ _).bind fun _ => trivial

theorem checked_handleRequestVote (sender : String) (req : RequestVoteRequest) :
    (handleRequestVote sender req).Checked := by
  rw [handleRequestVote_eq]
  simp only [checked_lock_bind, checked_get_bind]
  intro n
  split
  · exact (checked_sendRequestVoteResponse _ _ _).bind fun _ => trivial
  · split
    · simp only [checked_setCurrentTerm_bind, checked_setRole_bind]
      exact checked_castVote _ _
    · exact checked_castVote _ _

end Checked

/-! ### The answers -/

/-- Whatever the log held, each index of the entries appended has one of them. Induction from the
end: the last entry for an index stays. -/
theorem get_appendEntries (log : RaftLog) {es : List LogEntry} {e : LogEntry} (he : e ∈ es) :
    ∃ f ∈ es, f.index = e.index ∧ (log.appendEntries es).get e.index = some f := by
  induction es using List.reverseRecOn with
  | nil => cases he
  | append_singleton es d ih =>
      have hlast : (log.appendEntries (es ++ [d])).get e.index =
          ((log.appendEntries es).entries.insert d.index d).lookup e.index := by
        rw [RaftLog.appendEntries, List.foldl_append]
        rfl
      rw [hlast]
      by_cases hd : e.index = d.index
      · refine ⟨d, by simp, hd.symm, ?_⟩
        rw [hd, AList.lookup_insert]
      · have hes : e ∈ es := by
          rcases List.mem_append.mp he with he | he
          · exact he
          · exact absurd (congrArg (·.index) (List.mem_singleton.mp he)) hd
        obtain ⟨f, hf, hidx, hget⟩ := ih hes
        refine ⟨f, List.mem_append_left _ hf, hidx, ?_⟩
        rw [AList.lookup_insert_ne hd]
        exact hget

/-- After a request is stored the log has the terms of all its entries exactly if entries for one
index have one term. -/
theorem termAt_storeEntries_iff (log : RaftLog) (es : List LogEntry) :
    (∀ e ∈ es, (storeEntries log es).termAt e.index = some e.term) ↔
      ∀ e ∈ es, ∀ f ∈ es, e.index = f.index → e.term = f.term := by
  constructor
  · intro h e he f hf hidx
    have hterm := h e he
    rw [hidx, h f hf] at hterm
    exact (Option.some.inj hterm).symm
  · intro h e he
    obtain ⟨f, hf, hidx, hget⟩ := get_appendEntries (deleteConflicting log es) he
    rw [storeEntries, if_pos (List.ne_nil_of_mem he), RaftLog.termAt, hget, Option.map_some,
      h f hf e he hidx]

/-- The three ends of `handle_append_entries`. -/
theorem tellsTruth_appendEntries_iff (n : RaftNode) (sender : String)
    (req : AppendEntriesRequest) :
    (∃ answer, responses ((handleAppendEntries sender req).run [] n).out = [answer] ∧
      ((handleAppendEntries sender req).run [] n).state.Truth (.appendEntries req)
        answer.message) ↔ n.OwnTermRequest (.appendEntries req) := by
  rcases run_handleAppendEntries_cases n sender req with
    ⟨hold, hrun⟩ | ⟨hold, hm, hrun⟩ | ⟨hold, hm, n', out, hrun, ha⟩
  · rw [hrun]
    exact iff_of_true ⟨_, rfl, rfl, nofun⟩ fun hle => absurd hold (Nat.not_lt.mpr hle)
  · rw [hrun]
    exact iff_of_true ⟨_, rfl, rfl, nofun⟩ fun _ hm' => absurd hm hm'
  · rw [hrun]
    obtain ⟨hterm, hlog⟩ := accepted_log hold ha
    have hanswer : responses (out ++ [.send (appendEntriesAnswer n' sender n.log.currentTerm true)])
        = [appendEntriesAnswer n' sender n.log.currentTerm true] := by
      rw [responses, List.filterMap_append]
      exact congrArg (· ++ _) ha.responses
    have htruth : (∃ answer, responses (out ++
        [.send (appendEntriesAnswer n' sender n.log.currentTerm true)]) = [answer] ∧
          n'.Truth (.appendEntries req) answer.message) ↔
        n'.AppendTruth req ⟨n.log.currentTerm, true, n'.log.lastIndex, .pushStr 64 n'.nodeId⟩ := by
      rw [hanswer]
      constructor
      · rintro ⟨answer, heq, ht⟩
        obtain rfl := List.singleton_inj.mp heq
        exact ht
      · exact fun ht => ⟨_, rfl, ht⟩
    refine htruth.trans ?_
    rw [OwnTermRequest, forall_prop_of_true (Nat.not_lt.mp hold), forall_prop_of_true hm,
      ← termAt_storeEntries_iff (followed n req).log, ← hlog]
    constructor
    · intro ht
      exact ⟨hterm.symm.trans ht.term.symm, (ht.success rfl).2.1⟩
    · rintro ⟨hown, hall⟩
      exact ⟨hown.symm.trans hterm.symm, fun _ => ⟨hown.symm, hall, rfl⟩⟩

/-- A vote is stored before its grant, and both name the term that the node has by then. -/
theorem tellsTruth_requestVote (n : RaftNode) (sender : String) (req : RequestVoteRequest) :
    ∃ answer, responses ((handleRequestVote sender req).run [] n).out = [answer] ∧
      ((handleRequestVote sender req).run [] n).state.Truth (.requestVote req) answer.message := by
  rw [run_handleRequestVote]
  split
  · exact ⟨_, rfl, rfl, nofun⟩
  · rename_i hold
    split
    · refine ⟨_, rfl, rfl, fun _ => ⟨?_, ?_⟩⟩
      · exact currentTerm_raiseTerm hold
      · show some (HeaplessString.pushStr 64 req.candidateId.asStr).asStr = _
        rw [HeaplessString.pushStr_asStr]
    · exact ⟨_, rfl, rfl, nofun⟩

/-- In every state and for every request whose handler returns `Ok`, the answer tells the truth
exactly if an accepted `AppendEntries` request is of the node's own term and has one term for
each index. A `RequestVote` request is always answered truly. -/
theorem tellsTruth_iff (n : RaftNode) (env : MessageEnvelope) (ws : List WriteResult)
    (hreq : IsRequest env.message) (hproc : n.Processed (.handleMessage env) ws) :
    n.TellsTruth env ws ↔ n.OwnTermRequest env.message := by
  obtain ⟨sender, recipient, message⟩ := env
  cases message with
  | appendEntries req =>
      obtain ⟨-, hstate, hout⟩ := (checked_handleAppendEntries sender.asStr req).run_eq hproc
      rw [← tellsTruth_appendEntries_iff n sender.asStr req, ← hstate, ← hout]
      exact Iff.rfl
  | requestVote req =>
      obtain ⟨-, hstate, hout⟩ := (checked_handleRequestVote sender.asStr req).run_eq hproc
      refine iff_of_true ?_ trivial
      have htruth := tellsTruth_requestVote n sender.asStr req
      rw [← hstate, ← hout] at htruth
      exact htruth
  | _ => exact hreq.elim

/-- B, the leader of term 1, sends A its first entry. -/
def firstEntry : MessageEnvelope :=
  .new "B" "A" (.appendEntries ⟨1, .pushStr 64 "B", 0, 0, .collectTake 64 [⟨1, 1, .noop⟩], 0⟩)

/-- A has heard of term 1 before the entry arrives. -/
theorem tellsTruth_iff_firstEntry :
    let n := ((handleMessage (.new "B" "A" (.heartbeat "B" 1))).run [] bootedNode).state
    n.OwnTermRequest firstEntry.message ∧
      (n.TellsTruth firstEntry [] ↔ n.OwnTermRequest firstEntry.message) :=
  ⟨by decide +kernel, tellsTruth_iff _ firstEntry [] trivial (by decide +kernel)⟩

/-- A new node accepts the first heartbeat of term 1, moves to term 1, and answers that its term
is 0. -/
theorem not_tellsTruth : ¬ ∀ (n : RaftNode) (env : MessageEnvelope) (ws : List WriteResult),
    IsRequest env.message → n.Processed (.handleMessage env) ws → n.TellsTruth env ws := by
  intro h
  have htruth := h bootedNode (.new "B" "A" (.heartbeat "B" 1)) [] trivial (by decide +kernel)
  revert htruth
  decide +kernel

end RaftEbpf.RaftNode
