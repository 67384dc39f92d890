import RaftEbpf.Proofs.Invariant
import RaftEbpf.Proofs.StoreEntries

/-!
# `RaftEbpf.Proofs.WellFormed`: logs and requests are well formed

`RaftLog` takes any index and cuts anywhere. That a log has no holes rests on what leaders
send and on what `handle_append_entries` checks, over whole runs, and it needs no
uniqueness of leaders.

* `cluster_wellFormed`: in every run whose counters stay short of `u64::MAX`, each log holds
  entries exactly at `1 .. last_index`, under their own index, with terms that go up from 1
  and not above the node's term. Each request in flight holds consecutive entries of such
  terms, and each `next_index` is at least 1.

`RaftNode.Regular` and `RaftMessage.Regular` are the invariant (`kept_regular`). A request
also says that its entries are no older than the previous entry it names, which is what
joins them to the follower's log in order.
-/

set_option autoImplicit false

namespace RaftEbpf

open RaftEbpf.Lib (HashMap Prog)
open RaftNode

/-- A log is well formed, and each `next_index` is at least 1. -/
structure RaftNode.WellFormed (n : RaftNode) : Prop where
  /-- There is an entry at an index exactly for `1 ≤ k ≤ last_index`. -/
  present : ∀ k, (n.log.get k).isSome ↔ 1 ≤ k ∧ k ≤ n.log.lastIndex
  index : ∀ k e, n.log.get k = some e → e.index = k
  positive : ∀ k e, n.log.get k = some e → 1 ≤ e.term
  nondecreasing : ∀ j k d e, j ≤ k → n.log.get j = some d → n.log.get k = some e →
    d.term ≤ e.term
  bounded : ∀ k e, n.log.get k = some e → e.term ≤ n.log.currentTerm
  nextIndex : ∀ p k, n.nextIndex.lookup p = some k → 1 ≤ k

/-- A request carries consecutive entries with terms that go up to its own term. -/
structure AppendEntriesRequest.WellFormed (req : AppendEntriesRequest) : Prop where
  consecutive : ∀ j e, req.entries.toVec[j]? = some e → e.index = req.prevLogIndex + 1 + j
  nondecreasing : req.entries.toVec.Pairwise fun d e => d.term ≤ e.term
  bounded : ∀ e ∈ req.entries.toVec, e.term ≤ req.term

/-- All logs of the cluster and all requests in flight are well formed. -/
structure Cluster.WellFormed (m : Membership) (c : Cluster) : Prop where
  nodes : ∀ id ∈ m.ids, (c.nodes id).WellFormed
  requests : ∀ p ∈ c.network, ∀ req, p.envelope.message = .appendEntries req → req.WellFormed

/-! ### Terms along a log -/

/-- The terms along a list of entries go up, from 1 to at most `bound`. -/
structure TermsUpTo (bound : Nat) (l : List LogEntry) : Prop where
  positive : ∀ e ∈ l, 1 ≤ e.term
  nondecreasing : l.Pairwise fun d e => d.term ≤ e.term
  bounded : ∀ e ∈ l, e.term ≤ bound

namespace TermsUpTo

variable {b : Nat} {l l' es : List LogEntry}

theorem nil (b : Nat) : TermsUpTo b [] := ⟨by simp, .nil, by simp⟩

theorem mono {b' : Nat} (h : TermsUpTo b l) (hb : b ≤ b') : TermsUpTo b' l :=
  ⟨h.positive, h.nondecreasing, fun e he => (h.bounded e he).trans hb⟩

theorem sublist (h : TermsUpTo b l) (hl : l'.Sublist l) : TermsUpTo b l' :=
  ⟨fun e he => h.positive e (hl.subset he), h.nondecreasing.sublist hl,
    fun e he => h.bounded e (hl.subset he)⟩

/-- Only the terms matter. -/
theorem congr (h : TermsUpTo b l) (hl : l'.map (·.term) = l.map (·.term)) : TermsUpTo b l' := by
  have hmem : ∀ e ∈ l', ∃ d ∈ l, d.term = e.term := by
    intro e he
    have h' : e.term ∈ l'.map (·.term) := List.mem_map_of_mem he
    rw [hl] at h'
    exact List.mem_map.mp h'
  constructor
  · intro e he
    obtain ⟨d, hd, heq⟩ := hmem e he
    rw [← heq]
    exact h.positive d hd
  · have hp : (l.map (·.term)).Pairwise (· ≤ ·) := List.pairwise_map.mpr h.nondecreasing
    rw [← hl] at hp
    exact List.pairwise_map.mp hp
  · intro e he
    obtain ⟨d, hd, heq⟩ := hmem e he
    rw [← heq]
    exact h.bounded d hd

/-- Entries that are no older than all before them join the end. -/
theorem append (h : TermsUpTo b l) (hes : TermsUpTo b es)
    (hle : ∀ d ∈ l, ∀ e ∈ es, d.term ≤ e.term) : TermsUpTo b (l ++ es) where
  positive e he := (List.mem_append.mp he).elim (h.positive e) (hes.positive e)
  nondecreasing := List.pairwise_append.mpr ⟨h.nondecreasing, hes.nondecreasing, hle⟩
  bounded e he := (List.mem_append.mp he).elim (h.bounded e) (hes.bounded e)

/-- Entries up to an index are no younger than the entry there. -/
theorem le_of_mem_take (h : TermsUpTo b l) {k : Nat} {d e : LogEntry} (hd : d ∈ l.take (k + 1))
    (he : l[k]? = some e) : d.term ≤ e.term := by
  obtain ⟨hlt, rfl⟩ := List.getElem?_eq_some_iff.mp he
  obtain ⟨i, hi, rfl⟩ := List.getElem_of_mem hd
  rw [List.length_take] at hi
  rw [List.getElem_take]
  rcases Nat.lt_or_ge i k with hik | hik
  · exact List.pairwise_iff_getElem.mp h.nondecreasing i k (by omega) hlt hik
  · obtain rfl : i = k := by omega
    exact le_rfl

/-- Entries behind an index are no older than the entry there. -/
theorem le_of_mem_drop (h : TermsUpTo b l) {k : Nat} {d e : LogEntry} (hd : l[k]? = some d)
    (he : e ∈ l.drop (k + 1)) : d.term ≤ e.term := by
  obtain ⟨hlt, rfl⟩ := List.getElem?_eq_some_iff.mp hd
  obtain ⟨i, hi, rfl⟩ := List.getElem_of_mem he
  rw [List.getElem_drop]
  rw [List.length_drop] at hi
  exact List.pairwise_iff_getElem.mp h.nondecreasing k (k + 1 + i) hlt (by omega) (by omega)

end TermsUpTo

/-- A log takes over entries from position `prev` on. Either they are all there already, up
to their commands, or the log ends with them. -/
theorem storeEntries_cases {log : RaftLog} {l es : List LogEntry} {prev : Nat} (h : log.Holds l)
    (hprev : prev ≤ l.length) (hnum : NumberedFrom prev es) :
    ∃ l', (storeEntries log es).Holds l' ∧
      (l'.map (·.term) = l.map (·.term) ∨ l' = l.take prev ++ es) := by
  by_cases hnil : es = []
  · subst hnil
    rw [storeEntries, if_neg (by simp)]
    exact ⟨l, h, Or.inl rfl⟩
  · rw [storeEntries, if_pos hnil]
    rcases h.deleteConflicting hnum with ⟨hsame, hall⟩ | ⟨j, e, d, he, hd, hne, hcut⟩
    · rw [hsame]
      refine ⟨_, h.appendEntries hprev hnum, ?_⟩
      by_cases hlong : prev + es.length ≤ l.length
      · left
        -- Without a conflict every entry meets one of its own term.
        have hmid : es.map (·.term) = ((l.drop prev).take es.length).map (·.term) := by
          apply List.ext_getElem?
          intro j
          rw [List.getElem?_map, List.getElem?_map]
          by_cases hj : j < es.length
          · have hlj : prev + j < l.length := by omega
            rw [List.getElem?_take_of_lt hj, List.getElem?_drop, List.getElem?_eq_getElem hj,
              List.getElem?_eq_getElem hlj]
            have ht := hall j es[j] l[prev + j] (List.getElem?_eq_getElem hj)
              (List.getElem?_eq_getElem hlj)
            exact congrArg some ht.symm
          · rw [List.getElem?_eq_none (by omega), List.getElem?_eq_none]
            rw [List.length_take]
            omega
        rw [List.map_append, List.map_append, hmid, ← List.map_append, ← List.map_append,
          List.append_assoc, ← List.drop_drop, List.take_append_drop, List.take_append_drop]
      · right
        rw [List.drop_of_length_le (by omega), List.append_nil]
    · -- The cut is at or behind `prev`, so nothing is left behind the new entries.
      have hlen : (l.take (prev + j)).length = prev + j := by
        have := (List.getElem?_eq_some_iff.mp hd).1
        rw [List.length_take]
        omega
      have hj := (List.getElem?_eq_some_iff.mp he).1
      refine ⟨_, hcut.appendEntries (by omega) hnum, Or.inr ?_⟩
      rw [List.drop_of_length_le (by omega), List.append_nil, List.take_take]
      congr 2
      omega

/-! ### The invariant -/

/-- The log of a node is a list of entries with terms up to the node's term. -/
structure RaftNode.Regular (n : RaftNode) : Prop where
  log : ∃ l, n.log.Holds l ∧ TermsUpTo n.log.currentTerm l
  /-- Only the first term, before any election, is 0. -/
  active : n.role ≠ .follower → 1 ≤ n.log.currentTerm
  nextIndex : ∀ p k, n.nextIndex.lookup p = some k → 1 ≤ k

/-- The entries of a request follow the previous entry it names. -/
structure AppendEntriesRequest.Regular (req : AppendEntriesRequest) : Prop where
  numbered : NumberedFrom req.prevLogIndex req.entries.toVec
  terms : TermsUpTo req.term req.entries.toVec
  follows : ∀ e ∈ req.entries.toVec, req.prevLogTerm ≤ e.term

/-- What the invariant says of a message: of requests, and of the index that an answer
brings to `next_index`. -/
def RaftMessage.Regular : RaftMessage → Prop
  | .appendEntries req => req.Regular
  | .appendEntriesResponse resp => resp.lastLogIndex < u64Max
  | _ => True

namespace RaftNode.Regular

variable {n n' : RaftNode}

/-- Only the log, the role and `next_index` matter. -/
theorem same (h : n.Regular) (hlog : n'.log = n.log) (hrole : n'.role = n.role)
    (hnext : n'.nextIndex = n.nextIndex) : n'.Regular where
  log := hlog ▸ h.log
  active hr := by
    rw [hlog]
    exact h.active (hrole ▸ hr)
  nextIndex := hnext ▸ h.nextIndex

theorem raiseTerm (h : n.Regular) (term : Nat) : (raiseTerm n term).Regular := by
  unfold RaftNode.raiseTerm
  split
  · rename_i ht
    obtain ⟨l, hl, hterms⟩ := h.log
    exact ⟨⟨l, hl.setCurrentTerm term, hterms.mono (Nat.le_of_lt ht)⟩, fun hr => absurd rfl hr,
      h.nextIndex⟩
  · exact h

/-- The heartbeat for any peer. A `next_index` beyond the log sends no entries. -/
theorem heartbeatRequest (h : n.Regular) (commitIndex : Nat) (peerId : String) :
    (heartbeatRequest n n.log.currentTerm commitIndex peerId).Regular := by
  obtain ⟨l, hl, hterms⟩ := h.log
  have hpos : 1 ≤ (n.nextIndex.lookup peerId).getD 1 := by
    cases hk : n.nextIndex.lookup peerId with
    | none => exact le_rfl
    | some k => exact h.nextIndex peerId k hk
  obtain ⟨prev, hprev⟩ : ∃ prev, (n.nextIndex.lookup peerId).getD 1 = prev + 1 :=
    ⟨_, (Nat.sub_add_cancel hpos).symm⟩
  have hentries : n.log.getEntries (prev + 1) n.log.lastIndex = l.drop prev :=
    hl.getEntries (prev + 1)
  have hes : ((l.drop prev).take 64).Sublist (l.drop prev) := List.take_sublist 64 _
  simp only [RaftNode.heartbeatRequest, hprev, Nat.add_sub_cancel, hentries]
  constructor
  · exact hl.numbered.numberedFrom (List.take_prefix 64 _)
  · exact hterms.sublist (hes.trans (List.drop_sublist prev l))
  · intro e he
    show (n.log.termAt prev).getD 0 ≤ e.term
    have hmem : e ∈ l.drop prev := hes.subset he
    cases hk : prev with
    | zero => simp [RaftLog.termAt, hl.get]
    | succ k =>
        rw [RaftLog.termAt, hl.get_succ]
        cases hd : l[k]? with
        | none => exact Nat.zero_le _
        | some d => exact hterms.le_of_mem_drop hd (hk ▸ hmem)

theorem heartbeats (h : n.Regular) {env : MessageEnvelope} (henv : .send env ∈ heartbeats n) :
    env.message.Regular := by
  unfold RaftNode.heartbeats at henv
  split at henv
  · obtain ⟨p, -, hp⟩ := List.mem_map.mp henv
    obtain rfl := Output.send.inj hp
    exact h.heartbeatRequest n.commitIndex p
  · simp at henv

/-- A new leader sets `next_index` of its peers behind its last entry. -/
theorem leaderOf (h : n.Regular) (hshort : n.log.lastIndex < u64Max)
    (hterm : 1 ≤ n.log.currentTerm) : (leaderOf n).Regular where
  log := h.log
  active _ := hterm
  nextIndex p k hk := by
    rw [RaftNode.leaderOf] at hk
    dsimp only at hk
    rw [HashMap.lookup_foldl_insert] at hk
    split at hk
    · rw [addOne_of_lt hshort] at hk
      have := Option.some.inj hk
      omega
    · exact h.nextIndex p k hk

theorem candidateOf (h : n.Regular) (hshort : n.log.currentTerm < u64Max) :
    (candidateOf n).Regular ∧ 1 ≤ (candidateOf n).log.currentTerm := by
  obtain ⟨l, hl, hterms⟩ := h.log
  have hterm : (RaftNode.candidateOf n).log.currentTerm = n.log.currentTerm + 1 :=
    addOne_of_lt hshort
  refine ⟨⟨⟨l, (hl.setCurrentTerm _).setVotedFor _, ?_⟩, fun _ => ?_, h.nextIndex⟩, ?_⟩
  · rw [hterm]
    exact hterms.mono (Nat.le_succ _)
  · omega
  · omega

theorem voted (h : n.Regular) (req : RequestVoteRequest) : (voted n req).Regular := by
  have hr := h.raiseTerm req.term
  obtain ⟨l, hl, hterms⟩ := hr.log
  exact ⟨⟨l, hl.setVotedFor _, hterms⟩, hr.active, hr.nextIndex⟩

/-- A leader appends an entry of its own term, which no entry exceeds. -/
theorem append (h : n.Regular) (hr : n.role = .leader) (hshort : n.log.lastIndex < u64Max)
    (command : Command) (pending : HashMap Nat Sender) :
    RaftNode.Regular { n with
      log := (n.log.append n.log.currentTerm command).1, pendingRequests := pending } := by
  obtain ⟨l, hl, hterms⟩ := h.log
  refine ⟨⟨_, (hl.append _ command hshort).2, hterms.append ⟨?_, ?_, ?_⟩ ?_⟩, h.active,
    h.nextIndex⟩
  · intro e he
    obtain rfl := List.mem_singleton.mp he
    exact h.active (by rw [hr]; simp)
  · exact List.pairwise_singleton _ _
  · intro e he
    obtain rfl := List.mem_singleton.mp he
    exact le_rfl
  · intro d hd e he
    obtain rfl := List.mem_singleton.mp he
    exact hterms.bounded d hd

/-- An accepted request. The entries join the log in order because they are no older than
the previous entry. -/
theorem accepted (h : n.Regular) {req : AppendEntriesRequest} (hreq : req.Regular)
    (hle : n.log.currentTerm ≤ req.term) (hm : ¬ Mismatch n req) : (accepted n req).Regular := by
  have hr := h.raiseTerm req.term
  obtain ⟨l, hl, hterms⟩ := hr.log
  have hbound : req.term ≤ (RaftNode.raiseTerm n req.term).log.currentTerm := by
    unfold RaftNode.raiseTerm
    split
    · exact le_rfl
    · omega
  have hm' : ¬ Mismatch (RaftNode.raiseTerm n req.term) req := by
    rw [Mismatch, raiseTerm_hasEntry]
    exact hm
  have hprev := hl.prev_of_not_mismatch hm'
  have hlen : req.prevLogIndex ≤ l.length := by
    rcases hprev with h0 | ⟨k, d, hk, hd, -⟩
    · omega
    · have := (List.getElem?_eq_some_iff.mp hd).1
      omega
  obtain ⟨l', hl', hcases⟩ := storeEntries_cases hl hlen hreq.numbered
  have hframe : (RaftNode.accepted n req).log.currentTerm
      = (RaftNode.raiseTerm n req.term).log.currentTerm :=
    congrArg PersistentState.currentTerm (storeEntries_persistentState _ _)
  refine ⟨⟨l', hl', ?_⟩, fun hrole => ?_, hr.nextIndex⟩
  · rw [hframe]
    rcases hcases with hsame | rfl
    · exact hterms.congr hsame
    · refine (hterms.sublist (List.take_sublist _ l)).append (hreq.terms.mono hbound) ?_
      intro d hd e he
      rcases hprev with h0 | ⟨k, d', hk, hd', hterm⟩
      · rw [h0] at hd
        simp at hd
      · calc d.term ≤ d'.term := hterms.le_of_mem_take (hk ▸ hd) hd'
          _ = req.prevLogTerm := hterm
          _ ≤ e.term := hreq.follows e he
  · rw [hframe]
    exact hr.active hrole

/-- A success recorded for a peer. -/
theorem acknowledged (h : n.Regular) (sender : String) {lastLogIndex : Nat}
    (hshort : lastLogIndex < u64Max) : (acknowledged n sender lastLogIndex).Regular where
  log := h.log
  active := h.active
  nextIndex p k hk := by
    by_cases hp : p = sender
    · subst hp
      rw [RaftNode.acknowledged, AList.lookup_insert, addOne_of_lt hshort] at hk
      have := Option.some.inj hk
      omega
    · rw [RaftNode.acknowledged, AList.lookup_insert_ne hp] at hk
      exact h.nextIndex p k hk

/-- A refusal stops at 1. -/
theorem backedOff (h : n.Regular) (sender : String) : (backedOff n sender).Regular := by
  unfold RaftNode.backedOff
  split
  · rename_i idx hidx
    refine ⟨h.log, h.active, fun p k hk => ?_⟩
    by_cases hp : p = sender
    · subst hp
      rw [AList.lookup_insert] at hk
      obtain rfl := Option.some.inj hk
      exact Nat.le_max_right _ _
    · rw [AList.lookup_insert_ne hp] at hk
      exact h.nextIndex p k hk
  · exact h

theorem counted (h : n.Regular) (sender : String) : (counted n sender).Regular := by
  unfold RaftNode.counted
  split
  · exact h
  · exact h.same rfl rfl rfl

end RaftNode.Regular

/-! ### The handlers -/

/-- What a handler of a regular node leaves behind and sends. -/
structure LeavesRegular (r : Prog.Result RaftNode Output WriteResult Unit) : Prop where
  node : r.state.Regular
  sent : ∀ env, .send env ∈ r.out → env.message.Regular

section Handlers
variable {n : RaftNode}

/-- A handler that sends at most heartbeats, after outputs that are not envelopes. -/
theorem LeavesRegular.heartbeats (h : n.Regular) (out : List Output)
    (hout : ∀ env, .send env ∉ out) : LeavesRegular ⟨some (), n, out ++ heartbeats n, []⟩ :=
  ⟨h, fun _ henv => (List.mem_append.mp henv).elim (fun ho => absurd ho (hout _)) h.heartbeats⟩

theorem LeavesRegular.silent (h : n.Regular) : LeavesRegular ⟨some (), n, [], []⟩ :=
  ⟨h, by simp⟩

/-- A handler that sends one answer. -/
theorem LeavesRegular.answer (h : n.Regular) (out : List Output)
    (hout : ∀ env, .send env ∉ out) {env : MessageEnvelope} (henv : env.message.Regular) :
    LeavesRegular ⟨some (), n, out ++ [.send env], []⟩ := by
  refine ⟨h, fun env' h' => ?_⟩
  rcases List.mem_append.mp h' with h' | h'
  · exact absurd h' (hout env')
  · obtain rfl := Output.send.inj (List.mem_singleton.mp h')
    exact henv

theorem regular_sendHeartbeats (h : n.Regular) : LeavesRegular (sendHeartbeats.run [] n) := by
  rw [run_sendHeartbeats]
  exact .heartbeats h [] (by simp)

theorem regular_startElection (h : n.Regular) (hshort : n.CountersShort) :
    LeavesRegular (startElection.run [] n) := by
  obtain ⟨hc, hterm⟩ := h.candidateOf hshort.1
  rw [run_startElection]
  split
  · exact .heartbeats (hc.leaderOf hshort.2 hterm) [.elected _] (by simp)
  · refine ⟨hc, fun env henv => ?_⟩
    obtain ⟨p, -, hp⟩ := List.mem_map.mp henv
    obtain rfl := Output.send.inj hp
    trivial

theorem regular_propose (h : n.Regular) (hshort : n.CountersShort) (command : Command)
    (tx : Sender) : LeavesRegular ((propose command tx).run [] n) := by
  rw [run_propose]
  split
  · rename_i hr
    exact .heartbeats (h.append hr hshort.2 command _) [.appended _ _] (by simp)
  · exact ⟨h, by simp⟩

theorem regular_handleAppendEntries (h : n.Regular) {sender : String}
    {req : AppendEntriesRequest} (hreq : req.Regular)
    (hshort : ((handleAppendEntries sender req).run [] n).state.CountersShort) :
    LeavesRegular ((handleAppendEntries sender req).run [] n) := by
  rcases run_handleAppendEntries_cases n sender req with
    ⟨hstale, hrun⟩ | ⟨hstale, hm, hrun⟩ | ⟨hstale, hm, n', out, hrun, ha⟩
  · rw [hrun] at hshort ⊢
    exact .answer h [] (by simp) hshort.2
  · rw [hrun] at hshort ⊢
    have hf : (followed n req).Regular := (h.raiseTerm req.term).same rfl rfl rfl
    exact .answer hf [] (by simp) hshort.2
  · rw [hrun] at hshort ⊢
    have hn' : n'.Regular := by
      have hacc := h.accepted hreq (by omega) hm
      rw [ha.state]
      exact hacc.same rfl rfl rfl
    refine .answer hn' _ (fun env henv => ?_) hshort.2
    obtain ⟨i, e, ho, -⟩ := ha.outputs _ henv
    cases ho

theorem regular_tryAdvanceCommitIndex (h : n.Regular) :
    LeavesRegular (tryAdvanceCommitIndex.run [] n) := by
  rcases run_tryAdvanceCommitIndex [] n with ⟨hrun, -⟩ | ⟨k, n', out, -, -, hrun, hc⟩
  · rw [hrun]
    exact .silent h
  · rw [hrun]
    have hn' : n'.Regular := by
      rw [hc.state]
      exact h.same rfl rfl rfl
    refine ⟨hn', fun env henv => ?_⟩
    rcases hc.outputs _ henv with ⟨i, e, ho, -⟩ | ⟨idx, tx, ho, -⟩
    · cases ho
    · cases ho

theorem regular_handleAppendEntriesResponse (h : n.Regular) {sender : String}
    {resp : AppendEntriesResponse} (hresp : resp.lastLogIndex < u64Max) :
    LeavesRegular ((handleAppendEntriesResponse sender resp).run [] n) := by
  rw [run_handleAppendEntriesResponse]
  split
  · exact .silent h
  · split
    · exact .silent (h.raiseTerm resp.term)
    · split
      · exact regular_tryAdvanceCommitIndex (h.acknowledged sender hresp)
      · exact .silent (h.backedOff sender)

theorem regular_handleRequestVote (h : n.Regular) (sender : String) (req : RequestVoteRequest) :
    LeavesRegular ((handleRequestVote sender req).run [] n) := by
  rw [run_handleRequestVote]
  split
  · exact .answer h [] (by simp) trivial
  · split
    · exact .answer (h.voted req) [] (by simp) trivial
    · exact .answer (h.raiseTerm req.term) [] (by simp) trivial

theorem regular_handleRequestVoteResponse (h : n.Regular) (hshort : n.CountersShort)
    (sender : String) (resp : RequestVoteResponse) :
    LeavesRegular ((handleRequestVoteResponse sender resp).run [] n) := by
  rw [run_handleRequestVoteResponse]
  split
  · exact .silent h
  · rename_i hrole
    split
    · exact .silent (h.raiseTerm resp.term)
    · split
      · have hc := h.counted sender
        have hlog : (counted n sender).log = n.log := by
          unfold counted
          split <;> rfl
        split
        · refine .heartbeats (hc.leaderOf (hlog ▸ hshort.2) ?_) [.elected _] (by simp)
          rw [hlog]
          exact h.active (by rw [not_not.mp hrole]; simp)
        · exact .silent hc
      · exact .silent h

end Handlers

/-- Each handler keeps nodes and messages regular, and so does a restart. -/
theorem kept_regular (m : Membership) :
    Kept m (fun _ n => n.Regular) fun p => p.envelope.message.Regular where
  initial id _ := {
    log := ⟨[], RaftLog.Holds.empty, TermsUpTo.nil _⟩
    active := fun hr => absurd rfl hr
    nextIndex := fun p k hk => by simp [Membership.initial, withLog] at hk }
  run id _ n cause prog hn hh hshort hshort' := by
    suffices h : LeavesRegular (prog.run [] n) from ⟨h.node, h.sent⟩
    cases hh with
    | startElection => exact regular_startElection hn hshort
    | sendHeartbeats => exact regular_sendHeartbeats hn
    | propose command tx => exact regular_propose hn hshort command tx
    | receive p hp _ =>
        unfold handleMessage at hshort' ⊢
        cases hmsg : p.envelope.message with
        | appendEntries req =>
            rw [hmsg] at hp
            simp only [hmsg] at hshort'
            exact regular_handleAppendEntries hn hp hshort'
        | appendEntriesResponse resp =>
            rw [hmsg] at hp
            exact regular_handleAppendEntriesResponse hn hp
        | requestVote req => exact regular_handleRequestVote hn _ req
        | requestVoteResponse resp =>
            exact regular_handleRequestVoteResponse hn hshort _ resp
        | clientRequest req => exact .silent hn
        | clientResponse resp => exact .silent hn
  restart id _ n n' hn hnew := by
    obtain ⟨l, hl, hterms⟩ := hn.log
    obtain ⟨log', hload, hl', hps⟩ := hl.reload
    rw [RaftNode.new, hload] at hnew
    obtain rfl := Option.some.inj hnew
    have hterm : log'.currentTerm = n.log.currentTerm := congrArg PersistentState.currentTerm hps
    exact {
      log := ⟨l, hl', hterm ▸ hterms⟩
      active := fun hr => absurd rfl hr
      nextIndex := fun p k hk => by simp [withLog] at hk }

/-! ### The claim's form -/

/-- A regular node is well formed. -/
theorem RaftNode.Regular.wellFormed {n : RaftNode} (h : n.Regular) : n.WellFormed := by
  obtain ⟨l, hl, hterms⟩ := h.log
  have hget : ∀ {k e}, n.log.get k = some e → ∃ j, k = j + 1 ∧ l[j]? = some e := by
    intro k e he
    cases k with
    | zero => simp [hl.get] at he
    | succ j => exact ⟨j, rfl, by rwa [hl.get_succ] at he⟩
  have hmem : ∀ {k e}, n.log.get k = some e → e ∈ l := by
    intro k e he
    obtain ⟨j, -, hj⟩ := hget he
    exact List.mem_of_getElem? hj
  constructor
  · intro k
    rw [hl.lastIndex]
    cases k with
    | zero => simp [hl.get]
    | succ j =>
        rw [hl.get_succ, isSome_getElem?]
        omega
  · intro k e he
    obtain ⟨j, rfl, hj⟩ := hget he
    exact hl.numbered j e hj
  · exact fun k e he => hterms.positive e (hmem he)
  · intro j k d e hjk hd he
    obtain ⟨i, rfl, hi⟩ := hget hd
    obtain ⟨i', rfl, hi'⟩ := hget he
    have hlt := (List.getElem?_eq_some_iff.mp hi).1
    refine hterms.le_of_mem_take (List.mem_of_getElem? (i := i) ?_) hi'
    rw [List.getElem?_take_of_lt (by omega)]
    exact hi
  · exact fun k e he => hterms.bounded e (hmem he)
  · exact h.nextIndex

/-- A regular request is well formed. -/
theorem AppendEntriesRequest.Regular.wellFormed {req : AppendEntriesRequest} (h : req.Regular) :
    req.WellFormed where
  consecutive j e he := by
    rw [h.numbered j e he]
    omega
  nondecreasing := h.terms.nondecreasing
  bounded := h.terms.bounded

/-- In every run whose counters stay short of `u64::MAX`, with any loss, duplication and
delay, any restarts and any number of leaders in a term, logs and requests are well
formed. -/
theorem cluster_wellFormed {m : Membership} {tr : List Cluster}
    (hrun : m.Run (fun _ _ => True) tr) (hshort : ∀ c ∈ tr, c.CountersShort m) :
    ∀ c ∈ tr, c.WellFormed m := by
  intro c hc
  have hall := (kept_regular m).invariant hrun hshort c hc
  refine ⟨fun id hid => (hall.nodes id hid).wellFormed, fun p hp req hreq => ?_⟩
  have hp' := hall.packets p hp
  rw [hreq] at hp'
  exact AppendEntriesRequest.Regular.wellFormed hp'

/-- Four nodes: A and C lead term 1, B stores an entry of each at index 1 and starts again in
between, and one request arrives that was duplicated. -/
theorem cluster_wellFormed_four :
    let tr := Membership.four.trace (fun _ _ => True)
      [.startElection "A", .deliver 2, .deliver 2, .startElection "C", .deliver 5, .deliver 7,
        .propose "A" .noop, .propose "C" (.delete (.pushStr 256 "k")), .deliver 12, .duplicate 13,
        .deliver 16, .restart "B", .deliver 13, .startElection "D", .deliver 17]
    tr.length = 16 ∧ ∀ c ∈ tr, c.WellFormed .four :=
  ⟨by decide +kernel,
    cluster_wellFormed (Lib.run_trace (by decide +kernel)) (by decide +kernel)⟩

end RaftEbpf
