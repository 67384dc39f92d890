import RaftEbpf.Conditions
import RaftEbpf.Proofs.StoreEntries

/-!
# `RaftEbpf.Proofs.PendingRequests`: when a reported success is true

`pending_requests` is keyed by index only and survives a loss of leadership.

* `not_successTrue`: a client is told success for an entry that another leader wrote over.
* `successTrue_of_pendingSound`: where no accepted request changes an entry that a client
  waits for, each success reported is for the entry that the proposal appended.

`PendingStep` says what one handler can do to the pending channels, the entries under them
and the clients. `PendingInv` is the invariant.
-/

set_option autoImplicit false

namespace RaftEbpf

open RaftEbpf.Lib (HashMap Prog)
open RaftNode

/-- `propose` appended this entry for this channel. -/
def Cluster.Appended (c : Cluster) (tx : Sender) (e : LogEntry) : Prop :=
  ∃ em ∈ c.history, em.output = .appended tx e

/-- Each success sent to a client names an index up to the node's commit index, at which the
node's log holds the entry that `propose` appended for that client's channel. -/
def SuccessTrue (c : Cluster) : Prop :=
  ∀ em ∈ c.history, ∀ tx idx, em.output = .reply tx (.success idx) →
    idx ≤ em.after.commitIndex ∧ (∃ e, c.Appended tx e) ∧
      ∀ e, c.Appended tx e → em.after.log.get idx = some e

/-! ### One handler -/

/-- What a handler may do to the pending channels. `new` is the channel it was given. -/
structure PendingStep (new : Option Sender) (n : RaftNode)
    (r : Prog.Result RaftNode Output WriteResult Unit) : Prop where
  /-- A channel that is pending afterwards was pending, over an entry that stays, or is new,
  over the entry just appended. -/
  pending : ∀ idx tx, r.state.pendingRequests.lookup idx = some tx →
    (n.pendingRequests.lookup idx = some tx ∧
      ∀ e, n.log.get idx = some e → r.state.log.get idx = some e) ∨
    ∃ e, .appended tx e ∈ r.out ∧ r.state.log.get idx = some e
  /-- A client told success had its channel pending at that index. -/
  replies : ∀ idx tx, .reply tx (.success idx) ∈ r.out →
    n.pendingRequests.lookup idx = some tx ∧ r.state.log = n.log ∧
      idx ≤ r.state.commitIndex
  /-- One entry at most is appended, for the channel given. -/
  appended : ∀ tx e, .appended tx e ∈ r.out → new = some tx ∧
    ∀ e', .appended tx e' ∈ r.out → e' = e

/-- An output that tells no client success and appends no entry. -/
def Output.Quiet (o : Output) : Prop :=
  (∀ tx idx, o ≠ .reply tx (.success idx)) ∧ ∀ tx e, o ≠ .appended tx e

section Handlers
variable {n : RaftNode}

/-- A handler that keeps the channels and the entries and whose outputs are quiet. -/
theorem PendingStep.quiet {new : Option Sender}
    {r : Prog.Result RaftNode Output WriteResult Unit}
    (hp : r.state.pendingRequests = n.pendingRequests)
    (hl : ∀ idx tx e, n.pendingRequests.lookup idx = some tx → n.log.get idx = some e →
      r.state.log.get idx = some e)
    (hout : ∀ o ∈ r.out, o.Quiet) : PendingStep new n r where
  pending idx tx h := Or.inl ⟨hp ▸ h, fun e he => hl idx tx e (hp ▸ h) he⟩
  replies idx tx h := absurd rfl ((hout _ h).1 tx idx)
  appended tx e h := absurd rfl ((hout _ h).2 tx e)

/-- The same, for a handler that leaves all entries alone. -/
theorem PendingStep.same {new : Option Sender}
    {r : Prog.Result RaftNode Output WriteResult Unit}
    (hp : r.state.pendingRequests = n.pendingRequests)
    (hl : r.state.log.entries = n.log.entries) (hout : ∀ o ∈ r.out, o.Quiet) :
    PendingStep new n r :=
  .quiet hp (fun idx tx e _ he => by rw [RaftLog.get, hl]; exact he) hout

theorem quiet_heartbeats {o : Output} (h : o ∈ heartbeats n) : o.Quiet := by
  obtain ⟨env, rfl⟩ := exists_send_of_mem_heartbeats h
  simp [Output.Quiet]

/-- A single answer is quiet. -/
theorem quiet_answer (env : MessageEnvelope) : ∀ o ∈ [Output.send env], o.Quiet := by
  intro o ho
  obtain rfl := List.mem_singleton.mp ho
  simp [Output.Quiet]

/-- In front of heartbeats only the first output can be an appended entry. -/
theorem appended_eq_head {tx : Sender} {e : LogEntry} {o : Output}
    (h : .appended tx e ∈ o :: heartbeats n) : .appended tx e = o := by
  rcases List.mem_cons.mp h with h | h
  · exact h
  · exact absurd rfl ((quiet_heartbeats h).2 _ _)

theorem pendingStep_sendHeartbeats : PendingStep none n (sendHeartbeats.run [] n) := by
  rw [run_sendHeartbeats]
  exact .same rfl rfl fun o ho => quiet_heartbeats ho

theorem pendingStep_startElection : PendingStep none n (startElection.run [] n) := by
  rw [run_startElection]
  split
  · refine .same rfl rfl fun o ho => ?_
    rcases List.mem_cons.mp ho with rfl | ho
    · simp [Output.Quiet]
    · exact quiet_heartbeats ho
  · refine .same rfl rfl fun o ho => ?_
    obtain ⟨p, -, rfl⟩ := List.mem_map.mp ho
    simp [Output.Quiet]

/-- `propose` registers its channel over the entry it appended, and keeps the others. -/
theorem pendingStep_propose (command : Command) (tx : Sender) :
    PendingStep (some tx) n ((propose command tx).run [] n) := by
  rw [run_propose]
  split
  · refine ⟨fun idx tx' h => ?_, fun idx tx' h => ?_, fun tx' e h => ?_⟩
    · simp only at h ⊢
      by_cases hidx : idx = (n.log.append n.log.currentTerm command).2
      · subst hidx
        rw [AList.lookup_insert] at h
        obtain rfl := Option.some.inj h
        exact Or.inr ⟨_, List.mem_cons_self, AList.lookup_insert _⟩
      · rw [AList.lookup_insert_ne hidx] at h
        refine Or.inl ⟨h, fun e he => ?_⟩
        exact (AList.lookup_insert_ne hidx).trans he
    · rcases List.mem_cons.mp h with h | h
      · cases h
      · exact absurd rfl ((quiet_heartbeats h).1 _ _)
    · obtain ⟨rfl, rfl⟩ := Output.appended.inj (appended_eq_head h)
      exact ⟨rfl, fun e' h' => (Output.appended.inj (appended_eq_head h')).2⟩
  · refine .same rfl rfl fun o ho => ?_
    obtain rfl := List.mem_singleton.mp ho
    simp [Output.Quiet]

theorem pendingStep_handleRequestVote (sender : String) (req : RequestVoteRequest) :
    PendingStep none n ((handleRequestVote sender req).run [] n) := by
  rw [run_handleRequestVote]
  split
  · exact .same rfl rfl (quiet_answer _)
  · split
    · exact .same (raiseTerm_pendingRequests n req.term) (raiseTerm_entries n req.term)
        (quiet_answer _)
    · exact .same (raiseTerm_pendingRequests n req.term) (raiseTerm_entries n req.term)
        (quiet_answer _)

theorem pendingStep_handleRequestVoteResponse (sender : String) (resp : RequestVoteResponse) :
    PendingStep none n ((handleRequestVoteResponse sender resp).run [] n) := by
  have hc : (counted n sender).pendingRequests = n.pendingRequests ∧
      (counted n sender).log = n.log := by
    unfold counted
    split <;> exact ⟨rfl, rfl⟩
  rw [run_handleRequestVoteResponse]
  split
  · exact .same rfl rfl (by simp)
  · split
    · exact .same (raiseTerm_pendingRequests n resp.term) (raiseTerm_entries n resp.term) (by simp)
    · split
      · split
        · refine .same hc.1 (congrArg RaftLog.entries hc.2) fun o ho => ?_
          rcases List.mem_cons.mp ho with rfl | ho
          · simp [Output.Quiet]
          · exact quiet_heartbeats ho
        · exact .same hc.1 (congrArg RaftLog.entries hc.2) (by simp)
      · exact .same rfl rfl (by simp)

/-- Only a response that commits tells clients, and it leaves the log alone. -/
theorem pendingStep_handleAppendEntriesResponse (sender : String)
    (resp : AppendEntriesResponse) :
    PendingStep none n ((handleAppendEntriesResponse sender resp).run [] n) := by
  rw [run_handleAppendEntriesResponse]
  split
  · exact .same rfl rfl (by simp)
  · split
    · exact .same (raiseTerm_pendingRequests n resp.term) (raiseTerm_entries n resp.term) (by simp)
    · split
      · rcases run_tryAdvanceCommitIndex [] (acknowledged n sender resp.lastLogIndex) with
          ⟨hrun, -⟩ | ⟨k, n', out, -, -, hrun, hc⟩
        · rw [hrun]
          exact .same rfl rfl (by simp)
        · rw [hrun]
          have hlog : n'.log = n.log := by rw [hc.state]; rfl
          have hcom : n'.commitIndex = k := by rw [hc.state]
          refine ⟨fun idx tx h => Or.inl ⟨hc.pending idx tx h, fun e he => ?_⟩,
            fun idx tx h => ?_, fun tx e h => ?_⟩
          · show n'.log.get idx = some e
            rw [hlog]
            exact he
          · rcases hc.outputs _ h with ⟨i, e, he, -⟩ | ⟨i, t, he, hp, hle⟩
            · cases he
            · simp only [Output.reply.injEq, ProposeResult.success.injEq] at he
              obtain ⟨rfl, rfl⟩ := he
              exact ⟨hp, hlog, hcom ▸ hle⟩
          · rcases hc.outputs _ h with ⟨i, d, he, -⟩ | ⟨i, t, he, -⟩
            · cases he
            · cases he
      · refine .same ?_ ?_ (by simp)
        · show (backedOff n sender).pendingRequests = _
          unfold backedOff
          split <;> rfl
        · show (backedOff n sender).log.entries = _
          unfold backedOff
          split <;> rfl

/-- A request keeps the channels; where it is accepted, the condition keeps the entries. -/
theorem pendingStep_handleAppendEntries (sender : String) (req : AppendEntriesRequest)
    (hsound : n.log.currentTerm ≤ req.term → ¬ Mismatch n req →
      ∀ idx ∈ n.pendingRequests.keys, ∀ e ∈ req.entries.toVec,
        (e.index ≤ idx → n.log.termAt e.index = none ∨ n.log.termAt e.index = some e.term) ∧
        (e.index = idx → n.log.get idx = some e)) :
    PendingStep none n ((handleAppendEntries sender req).run [] n) := by
  rcases run_handleAppendEntries_cases n sender req with
    ⟨hold, hrun⟩ | ⟨hold, hm, hrun⟩ | ⟨hold, hm, n', out, hrun, happ⟩
  · rw [hrun]
    exact .same rfl rfl (quiet_answer _)
  · rw [hrun]
    exact .same (raiseTerm_pendingRequests n req.term) (raiseTerm_entries n req.term)
      (quiet_answer _)
  · rw [hrun]
    have hpend : n'.pendingRequests = n.pendingRequests := by
      rw [happ.state]
      exact raiseTerm_pendingRequests n req.term
    refine .quiet hpend (fun idx tx e hidx he => ?_) (fun o ho => ?_)
    · have hkey : idx ∈ n.pendingRequests.keys := by
        rw [← AList.mem_keys, ← AList.lookup_isSome, hidx]
        rfl
      have hcond := hsound (Nat.le_of_not_lt hold) hm idx hkey
      have hget : ∀ i, (followed n req).log.get i = n.log.get i := fun i => by
        show (raiseTerm n req.term).log.entries.lookup i = _
        rw [raiseTerm_entries]
        rfl
      show n'.log.get idx = some e
      rw [happ.state]
      refine storeEntries_keeps ((hget idx).trans he) (fun d hd hle t ht => ?_)
        (fun d hd heq => ?_)
      · rw [RaftLog.termAt, hget] at ht
        rcases (hcond d hd).1 hle with h | h
        · rw [RaftLog.termAt] at h
          rw [h] at ht
          cases ht
        · rw [RaftLog.termAt] at h
          rw [h] at ht
          exact (Option.some.inj ht).symm
      · have := (hcond d hd).2 heq
        rw [he] at this
        exact (Option.some.inj this).symm
    · rcases List.mem_append.mp ho with ho | ho
      · obtain ⟨i, e, rfl, -⟩ := happ.outputs o ho
        simp [Output.Quiet]
      · exact quiet_answer _ o ho

end Handlers

/-! ### The cluster -/

/-- Every pending channel lies over the entry appended for it; channels are used once; and
every success so far was true. -/
structure PendingInv (c : Cluster) : Prop where
  pending : ∀ id idx tx, (c.nodes id).pendingRequests.lookup idx = some tx →
    ∃ e, c.Appended tx e ∧ (c.nodes id).log.get idx = some e
  issued : ∀ tx e, c.Appended tx e → tx < c.proposals
  once : ∀ tx e e', c.Appended tx e → c.Appended tx e' → e = e'
  successes : SuccessTrue c

namespace PendingInv

variable {c : Cluster}

theorem appended_runAt {id : String} {cause : Option RaftMessage} {p : NodeProg Unit}
    {tx : Sender} {e : LogEntry} : (c.runAt id cause p).Appended tx e ↔
      c.Appended tx e ∨ .appended tx e ∈ (p.run [] (c.nodes id)).out := by
  constructor
  · rintro ⟨em, hem, he⟩
    rcases List.mem_append.mp hem with hem | hem
    · exact Or.inl ⟨em, hem, he⟩
    · obtain ⟨o, ho, rfl⟩ := List.mem_map.mp hem
      exact Or.inr (he ▸ ho)
  · rintro (⟨em, hem, he⟩ | hout)
    · exact ⟨em, List.mem_append_left _ hem, he⟩
    · exact ⟨_, List.mem_append_right _ (List.mem_map.mpr ⟨_, hout, rfl⟩), rfl⟩

/-- One node runs one program, given the next channel or none. -/
theorem runAt (h : PendingInv c) {id : String} {cause : Option RaftMessage} {p : NodeProg Unit}
    {new : Option Sender} (hp : PendingStep new (c.nodes id) (p.run [] (c.nodes id)))
    (hnew : ∀ tx, new = some tx → tx = c.proposals) {k : Nat} (hk : c.proposals ≤ k)
    (hlt : new ≠ none → c.proposals < k) :
    PendingInv { c.runAt id cause p with proposals := k } := by
  have happ : ∀ tx e, Cluster.Appended { c.runAt id cause p with proposals := k } tx e ↔
      c.Appended tx e ∨ .appended tx e ∈ (p.run [] (c.nodes id)).out :=
    fun tx e => appended_runAt
  -- A channel of an old entry is not the one given to this handler.
  have hfresh : ∀ tx e e', c.Appended tx e → .appended tx e' ∉ (p.run [] (c.nodes id)).out := by
    intro tx e e' he he'
    have hissued := h.issued tx e he
    rw [hnew tx (hp.appended tx e' he').1] at hissued
    exact lt_irrefl _ hissued
  refine ⟨?_, ?_, ?_, ?_⟩
  · intro v idx tx hv
    by_cases hvi : v = id
    · subst hvi
      simp only [Cluster.runAt, Function.update_self] at hv ⊢
      rcases hp.pending idx tx hv with ⟨hold, hkeep⟩ | ⟨e, hout, hget⟩
      · obtain ⟨e, he, hget⟩ := h.pending v idx tx hold
        exact ⟨e, (happ tx e).mpr (Or.inl he), hkeep e hget⟩
      · exact ⟨e, (happ tx e).mpr (Or.inr hout), hget⟩
    · simp only [Cluster.runAt, Function.update_of_ne hvi] at hv ⊢
      obtain ⟨e, he, hget⟩ := h.pending v idx tx hv
      exact ⟨e, (happ tx e).mpr (Or.inl he), hget⟩
  · intro tx e he
    rcases (happ tx e).mp he with he | he
    · exact (h.issued tx e he).trans_le hk
    · obtain ⟨hsome, -⟩ := hp.appended tx e he
      rw [hnew tx hsome]
      exact hlt (by rw [hsome]; exact Option.some_ne_none tx)
  · intro tx e e' he he'
    rcases (happ tx e).mp he with he | he
    · rcases (happ tx e').mp he' with he' | he'
      · exact h.once tx e e' he he'
      · exact absurd he' (hfresh tx e e' he)
    · rcases (happ tx e').mp he' with he' | he'
      · exact absurd he (hfresh tx e' e he')
      · exact ((hp.appended tx e he).2 e' he').symm
  · intro em hem tx idx hreply
    rcases List.mem_append.mp hem with hem | hem
    · obtain ⟨hle, ⟨e, he⟩, hall⟩ := h.successes em hem tx idx hreply
      refine ⟨hle, ⟨e, (happ tx e).mpr (Or.inl he)⟩, fun d hd => ?_⟩
      rcases (happ tx d).mp hd with hd | hd
      · exact hall d hd
      · exact absurd hd (hfresh tx e d he)
    · obtain ⟨o, ho, rfl⟩ := List.mem_map.mp hem
      obtain ⟨hpend, hlog, hle⟩ := hp.replies idx tx (hreply ▸ ho)
      obtain ⟨e, he, hget⟩ := h.pending id idx tx hpend
      refine ⟨hle, ⟨e, (happ tx e).mpr (Or.inl he)⟩, fun d hd => ?_⟩
      rcases (happ tx d).mp hd with hd | hd
      · rw [← h.once tx e d he hd, hlog]
        exact hget
      · exact absurd hd (hfresh tx e d he)

/-- The network plays no part. -/
theorem network (h : PendingInv c) (net : List Packet) :
    PendingInv { c with network := net } :=
  ⟨h.pending, h.issued, h.once, h.successes⟩

theorem initial (m : Membership) : PendingInv m.initial where
  pending id idx tx h := by simp [Membership.initial, withLog] at h
  issued tx e h := by simp [Cluster.Appended, Membership.initial] at h
  once tx e e' h := by simp [Cluster.Appended, Membership.initial] at h
  successes em hem := by simp [Membership.initial] at hem

/-- Each step that is `PendingSound` keeps the invariant. -/
theorem step {m : Membership} {c' : Cluster} {a : Action} (h : PendingInv c)
    (hok : c.PendingSound a) (hstep : m.step c a = some c') : PendingInv c' := by
  cases Membership.moves_of_step hstep with
  | startElection => exact h.runAt pendingStep_startElection (by simp) le_rfl (by simp)
  | sendHeartbeats => exact h.runAt pendingStep_sendHeartbeats (by simp) le_rfl (by simp)
  | @propose id command =>
      exact h.runAt (pendingStep_propose command c.proposals)
        (fun tx htx => (Option.some.inj htx).symm) (Nat.le_succ _) (fun _ => Nat.lt_succ_self _)
  | @deliver k p hp =>
      have hps : PendingStep none (c.nodes p.envelope.recipient.asStr)
          ((handleMessage p.envelope).run [] (c.nodes p.envelope.recipient.asStr)) := by
        unfold handleMessage
        cases hmsg : p.envelope.message with
        | appendEntries req =>
            refine pendingStep_handleAppendEntries _ req ?_
            simp only [Cluster.PendingSound, Cluster.arriving, hp, hmsg] at hok
            exact hok
        | appendEntriesResponse resp => exact pendingStep_handleAppendEntriesResponse _ resp
        | requestVote req => exact pendingStep_handleRequestVote _ req
        | requestVoteResponse resp => exact pendingStep_handleRequestVoteResponse _ resp
        | clientRequest req => exact .same rfl rfl (by simp)
        | clientResponse resp => exact .same rfl rfl (by simp)
      exact (h.network (c.network.eraseIdx k)).runAt hps (by simp) le_rfl (by simp)
  | drop k => exact h.network _
  | duplicate => exact h.network _
  | @restart id n hid hnew =>
      -- A node starts with no client.
      have hn : n.pendingRequests = ∅ := by
        obtain ⟨log, -, rfl⟩ := Option.map_eq_some_iff.mp hnew
        rfl
      refine ⟨?_, h.issued, h.once, h.successes⟩
      intro v idx tx hv
      by_cases hvi : v = id
      · subst hvi
        simp only [Function.update_self, hn] at hv
        simp at hv
      · simp only [Function.update_of_ne hvi] at hv ⊢
        exact h.pending v idx tx hv

end PendingInv

/-- In every run whose steps are `PendingSound`, restarts and duplicates included, each
success reported to a client is for the entry its proposal appended, and that is committed
on the node that reports it. -/
theorem successTrue_of_pendingSound {m : Membership} {tr : List Cluster}
    (hrun : m.Run Cluster.PendingSound tr) : ∀ c ∈ tr, SuccessTrue c := by
  have hinv := hrun.invariant (PendingInv.initial m) fun _ _ _ h hok hstep => h.step hok hstep
  exact fun c hc => (hinv c hc).successes

/-- Three nodes: A proposes twice, B acknowledges both entries, and A tells both clients. -/
theorem successTrue_of_pendingSound_three : SuccessTrue (Membership.three.final
    Cluster.PendingSound [.startElection "A", .deliver 0, .deliver 1, .propose "A" .noop,
      .propose "A" (.delete (.pushStr 256 "k")), .deliver 6, .deliver 6]) :=
  successTrue_of_pendingSound (Lib.run_final (by decide +kernel)) _ List.mem_cons_self

/-- A registers a client at index 1 in term 1. B, leader of term 2, writes over that entry. A
leads term 3 and commits up to index 2. -/
def falseSuccess : List Action :=
  [.startElection "A", .deliver 0, .deliver 1, .propose "A" .noop, .startElection "B",
    .startElection "B", .deliver 7, .deliver 8, .propose "B" (.delete (.pushStr 256 "k")),
    .deliver 11, .startElection "A", .deliver 12, .deliver 13, .propose "A" .noop, .deliver 16,
    .deliver 16]

/-- A client can be told success for an entry that is not its own, with no envelope
duplicated and no restart. -/
theorem not_successTrue : ¬ ∀ (m : Membership) (tr : List Cluster),
    m.Run (fun _ a => a.isLossy = true) tr → ∀ c ∈ tr, SuccessTrue c := by
  intro h
  have hrun : Membership.three.Run (fun _ a => a.isLossy = true)
      (Membership.three.final (fun _ a => a.isLossy = true) falseSuccess ::
        (Membership.three.trace (fun _ a => a.isLossy = true) falseSuccess).tail) :=
    Lib.run_final (by decide +kernel)
  have hsucc := h _ _ hrun _ List.mem_cons_self
  -- Channel 0 appended an entry of term 1, and entry 1 is of term 2 when it is told.
  have happ : Output.appended 0 ⟨1, 1, .noop⟩ ∈ (Membership.three.final
      (fun _ a => a.isLossy = true) falseSuccess).history.map (·.output) := by
    decide +kernel
  have hreply : (Output.reply 0 (.success 1), some ⟨1, 2, .delete (.pushStr 256 "k")⟩) ∈
      (Membership.three.final (fun _ a => a.isLossy = true) falseSuccess).history.map
        (fun em => (em.output, em.after.log.get 1)) := by
    decide +kernel
  obtain ⟨em', hem', he'⟩ := List.mem_map.mp happ
  obtain ⟨em, hem, he⟩ := List.mem_map.mp hreply
  obtain ⟨hout, hget⟩ := Prod.mk.inj he
  have hentry := (hsucc em hem 0 1 hout).2.2 _ ⟨em', hem', he'⟩
  rw [hget] at hentry
  exact absurd hentry (by decide)

end RaftEbpf
