import RaftEbpf.Proofs.Origin
import RaftEbpf.Proofs.Overflow
import RaftEbpf.Proofs.WireSize

/-!
# `RaftEbpf.Proofs.SentInRange`: every message fits its types and its frame

The counters of the model are numbers without a bound, and those of the code are `u64`s. Each value
that a node puts into a message is a counter of its own, and each of these was incremented with
`addOne`, came in a message or was read from disk.

* `sent_inRange_of_run`: in every run, each message in flight has counters that are `u64`s, and is
  short enough for the connection it goes over.
-/

set_option autoImplicit false

namespace RaftEbpf

open RaftEbpf.Lib (HashMap Prog)
open RaftNode

theorem addOne_le_u64Max (x : Nat) : addOne x ≤ u64Max := by
  unfold addOne u64Max
  omega

/-- The counters of the log are `u64`s, in memory and on disk. -/
structure RaftLog.Counters (log : RaftLog) : Prop where
  currentTerm : log.currentTerm ≤ u64Max
  lastIndex : log.lastIndex ≤ u64Max
  stored : ∀ ps, log.dataDir.stateJson = .json ps → ps.currentTerm ≤ u64Max

/-- The counters of the node are `u64`s. -/
structure RaftNode.InRange (n : RaftNode) : Prop where
  entries : n.From LogEntry.InRange
  log : n.log.Counters
  commitIndex : n.commitIndex ≤ u64Max
  nextIndex : ∀ p i, n.nextIndex.lookup p = some i → i ≤ u64Max

/-- The term of a message is a `u64`, and so is each index that it brings. -/
theorem RaftMessage.InRange.from {message : RaftMessage} (h : message.InRange) :
    message.From LogEntry.InRange := by
  cases message with
  | appendEntries req => exact h.2.2.2.2
  | _ => exact trivial

namespace RaftLog.Counters

variable {log log' : RaftLog}

theorem same (h : log.Counters) (hstate : log'.persistentState = log.persistentState)
    (hlast : log'.lastIndex = log.lastIndex)
    (hfile : log'.dataDir.stateJson = log.dataDir.stateJson) : log'.Counters where
  currentTerm := by
    rw [RaftLog.currentTerm, hstate]
    exact h.currentTerm
  lastIndex := hlast ▸ h.lastIndex
  stored := hfile ▸ h.stored

theorem setCurrentTerm (h : log.Counters) {term : Nat} (hterm : term ≤ u64Max) :
    (log.setCurrentTerm term .ok).Counters := by
  refine ⟨hterm, h.lastIndex, fun ps hps => ?_⟩
  obtain rfl := StateFile.json.inj hps
  exact hterm

theorem setVotedFor (h : log.Counters) (candidateId : Option String) :
    (log.setVotedFor candidateId .ok).Counters := by
  refine ⟨h.currentTerm, h.lastIndex, fun ps hps => ?_⟩
  obtain rfl := StateFile.json.inj hps
  exact h.currentTerm

theorem append (h : log.Counters) (term : Nat) (command : Command) :
    (log.append term command).1.Counters :=
  ⟨h.currentTerm, addOne_le_u64Max _, h.stored⟩

theorem storeEntries (h : log.Counters) {es : List LogEntry} (hes : ∀ e ∈ es, e.InRange) :
    (RaftNode.storeEntries log es).Counters := by
  unfold RaftNode.storeEntries
  split
  · obtain ⟨hcut, hcutFile⟩ := deleteConflicting_frame log es
    obtain ⟨hstored, hstoredFile⟩ := appendEntries_frame (deleteConflicting log es) es
    have hindices : ∀ e ∈ es, e.index ≤ u64Max := fun e he => (hes e he).1
    refine ⟨?_, ?_, ?_⟩
    · rw [RaftLog.currentTerm, hstored, hcut]
      exact h.currentTerm
    · exact HighWater.lastIndex_appendEntries_le
        (HighWater.lastIndex_deleteConflicting_le h.lastIndex hindices) hindices
    · rw [hstoredFile, hcutFile]
      exact h.stored
  · exact h

/-- The load takes over what the disk holds. -/
theorem new {dir : DataDir} (hstate : ∀ ps, dir.stateJson = .json ps → ps.currentTerm ≤ u64Max)
    (hlines : ∀ d ∈ dir.logJsonl, (RaftLog.diskEntryToLogEntry d).InRange)
    (hnew : RaftLog.new dir = some log) : log.Counters := by
  have hload : ∀ (lines : List DiskLogEntry) (l : RaftLog),
      (∀ d ∈ lines, (RaftLog.diskEntryToLogEntry d).InRange) → l.Counters →
      (lines.foldl RaftLog.loadLine l).Counters := by
    intro lines
    induction lines with
    | nil => exact fun l _ hl => hl
    | cons d lines ih =>
        intro l hin hl
        refine ih _ (fun d' hd' => hin d' (List.mem_cons_of_mem _ hd'))
          ⟨hl.currentTerm, ?_, hl.stored⟩
        exact Nat.max_le.mpr ⟨hl.lastIndex, (hin d List.mem_cons_self).1⟩
  rw [RaftLog.new, RaftLog.loadFromDisk] at hnew
  split at hnew
  · obtain rfl := Option.some.inj hnew
    exact hload _ _ hlines ⟨Nat.zero_le _, Nat.zero_le _, hstate⟩
  · rename_i ps hps
    obtain rfl := Option.some.inj hnew
    exact hload _ _ hlines ⟨hstate ps hps, Nat.zero_le _, hstate⟩
  · cases hnew

end RaftLog.Counters

namespace RaftNode.InRange

variable {n n' : RaftNode}

/-- A change that leaves the counters alone. -/
theorem same (h : n.InRange) (hentries : n'.From LogEntry.InRange)
    (hlog : n'.log = n.log) (hcommit : n'.commitIndex = n.commitIndex)
    (hnext : n'.nextIndex = n.nextIndex) : n'.InRange :=
  ⟨hentries, hlog ▸ h.log, hcommit ▸ h.commitIndex, hnext ▸ h.nextIndex⟩

theorem raiseTerm (h : n.InRange) {term : Nat} (hterm : term ≤ u64Max) :
    (raiseTerm n term).InRange := by
  refine ⟨h.entries.raiseTerm term, ?_, ?_, ?_⟩
  all_goals unfold RaftNode.raiseTerm; split
  · exact h.log.setCurrentTerm hterm
  · exact h.log
  · exact h.commitIndex
  · exact h.commitIndex
  · exact h.nextIndex
  · exact h.nextIndex

theorem leaderOf (h : n.InRange) : (leaderOf n).InRange := by
  refine ⟨h.entries.leaderOf, h.log, h.commitIndex, fun p i hi => ?_⟩
  rw [RaftNode.leaderOf] at hi
  dsimp only at hi
  rw [HashMap.lookup_foldl_insert] at hi
  split at hi
  · obtain rfl := Option.some.inj hi
    exact addOne_le_u64Max _
  · exact h.nextIndex p i hi

theorem candidateOf (h : n.InRange) : (candidateOf n).InRange :=
  ⟨h.entries.same rfl rfl rfl, (h.log.setCurrentTerm (addOne_le_u64Max _)).setVotedFor _,
    h.commitIndex, h.nextIndex⟩

theorem counted (h : n.InRange) (sender : String) : (counted n sender).InRange := by
  refine h.same (h.entries.counted sender) ?_ ?_ ?_
  all_goals unfold RaftNode.counted; split <;> rfl

theorem acknowledged (h : n.InRange) (sender : String) (last : Nat) :
    (acknowledged n sender last).InRange := by
  refine ⟨h.entries.same rfl rfl rfl, h.log, h.commitIndex, fun p i hi => ?_⟩
  by_cases hp : p = sender
  · subst hp
    rw [RaftNode.acknowledged, AList.lookup_insert] at hi
    obtain rfl := Option.some.inj hi
    exact addOne_le_u64Max _
  · rw [RaftNode.acknowledged, AList.lookup_insert_ne hp] at hi
    exact h.nextIndex p i hi

theorem backedOff (h : n.InRange) (sender : String) : (backedOff n sender).InRange := by
  unfold RaftNode.backedOff
  split
  · rename_i idx hidx
    refine ⟨h.entries.same rfl rfl rfl, h.log, h.commitIndex, fun p i hi => ?_⟩
    by_cases hp : p = sender
    · subst hp
      rw [AList.lookup_insert] at hi
      obtain rfl := Option.some.inj hi
      have hle := h.nextIndex p idx hidx
      have hone : 1 ≤ u64Max := by decide
      omega
    · rw [AList.lookup_insert_ne hp] at hi
      exact h.nextIndex p i hi
  · exact h

theorem accepted (h : n.InRange) {req : AppendEntriesRequest}
    (hreq : (RaftMessage.appendEntries req).InRange) : (accepted n req).InRange := by
  obtain ⟨hterm, -, -, hcommit, hes⟩ := hreq
  have hraised := h.raiseTerm hterm
  refine ⟨h.entries.accepted hes, hraised.log.storeEntries hes, ?_, hraised.nextIndex⟩
  unfold RaftNode.accepted
  dsimp only
  split
  · exact (Nat.min_le_left _ _).trans hcommit
  · exact h.commitIndex

theorem termAt_le (h : n.InRange) (i : Nat) : (n.log.termAt i).getD 0 ≤ u64Max := by
  rw [RaftLog.termAt]
  cases hget : n.log.get i with
  | none => exact Nat.zero_le _
  | some e => exact (h.entries.log.memory i e hget).2

/-- The requests that a leader sends. -/
theorem heartbeats (h : n.InRange) {env : MessageEnvelope} (henv : .send env ∈ heartbeats n) :
    env.InRange := by
  have hentries := h.entries.heartbeats henv
  unfold RaftNode.heartbeats at henv
  split at henv
  · obtain ⟨p, -, hp⟩ := List.mem_map.mp henv
    obtain rfl := Output.send.inj hp
    have hnext : (n.nextIndex.lookup p).getD 1 ≤ u64Max := by
      cases hlookup : n.nextIndex.lookup p with
      | none => decide
      | some i => exact h.nextIndex p i hlookup
    exact ⟨h.log.currentTerm, (Nat.sub_le _ _).trans hnext, h.termAt_le _, h.commitIndex, hentries⟩
  · cases henv

theorem answer_inRange (h : n.InRange) (recipient : String) {term : Nat} (hterm : term ≤ u64Max)
    (success : Bool) : (appendEntriesAnswer n recipient term success).InRange :=
  ⟨hterm, h.log.lastIndex⟩

/-- A node whose counters are `u64`s handles a message of `u64`s, and sends such messages. -/
theorem handleAppendEntries (h : n.InRange) (sender : String) {req : AppendEntriesRequest}
    (hreq : (RaftMessage.appendEntries req).InRange) :
    ((handleAppendEntries sender req).run [] n).state.InRange ∧
      ∀ env, .send env ∈ ((handleAppendEntries sender req).run [] n).out → env.InRange := by
  obtain ⟨hentries, -⟩ := h.entries.handleAppendEntries sender hreq.from
  have hterm : req.term ≤ u64Max := hreq.1
  have hanswer : ∀ {n' : RaftNode} (_ : n'.InRange) {term : Nat} (_ : term ≤ u64Max)
      (success : Bool) (env : MessageEnvelope),
      Output.send env ∈ [Output.send (appendEntriesAnswer n' sender term success)] →
        env.InRange := by
    intro n' h' term hle success env henv
    obtain rfl := Output.send.inj (List.mem_singleton.mp henv)
    exact h'.answer_inRange sender hle success
  rcases run_handleAppendEntries_cases n sender req with
    ⟨-, hrun⟩ | ⟨-, -, hrun⟩ | ⟨-, -, n', out, hrun, ha⟩
  · rw [hrun]
    exact ⟨h, hanswer h h.log.currentTerm _⟩
  · rw [hrun] at hentries ⊢
    have hfollowed : (followed n req).InRange := (h.raiseTerm hterm).same hentries rfl rfl rfl
    exact ⟨hfollowed, hanswer hfollowed hfollowed.log.currentTerm _⟩
  · rw [hrun] at hentries ⊢
    have hdone : n'.InRange := by
      refine (h.accepted hreq).same hentries ?_ ?_ ?_
      all_goals rw [ha.state]
    refine ⟨hdone, fun env henv => ?_⟩
    rcases List.mem_append.mp henv with henv | henv
    · obtain ⟨i, e, he, -⟩ := ha.outputs _ henv
      cases he
    · exact hanswer hdone h.log.currentTerm _ env henv

theorem handleAppendEntriesResponse (h : n.InRange) (sender : String)
    {resp : AppendEntriesResponse} (hresp : (RaftMessage.appendEntriesResponse resp).InRange) :
    ((handleAppendEntriesResponse sender resp).run [] n).state.InRange := by
  obtain ⟨hentries, -⟩ := h.entries.handleAppendEntriesResponse sender resp
  rw [run_handleAppendEntriesResponse] at hentries ⊢
  split
  · exact h
  · split
    · exact h.raiseTerm hresp.1
    · split
      · rename_i hrole hterm hsuccess
        have hknown := h.acknowledged sender resp.lastLogIndex
        rw [if_neg hrole, if_neg hterm, if_pos hsuccess] at hentries
        rcases run_tryAdvanceCommitIndex [] (RaftNode.acknowledged n sender resp.lastLogIndex) with
          ⟨hrun, -⟩ | ⟨k, n', out, -, hk, hrun, hc⟩
        · rw [hrun]
          exact hknown
        · rw [hrun] at hentries ⊢
          have hstate := hc.state
          have hle := (findCommit_eq_some_iff.mp hk).1.le_lastIndex
          refine ⟨hentries, ?_, ?_, ?_⟩
          · rw [hstate]
            exact hknown.log
          · rw [hstate]
            exact hle.trans hknown.log.lastIndex
          · rw [hstate]
            exact hknown.nextIndex
      · exact h.backedOff sender

theorem handleRequestVote (h : n.InRange) (sender : String) {req : RequestVoteRequest}
    (hreq : (RaftMessage.requestVote req).InRange) :
    ((handleRequestVote sender req).run [] n).state.InRange ∧
      ∀ env, .send env ∈ ((handleRequestVote sender req).run [] n).out → env.InRange := by
  have hraised := h.raiseTerm hreq.1
  have hvoted : (voted n req).InRange :=
    ⟨hraised.entries.same rfl rfl rfl, hraised.log.setVotedFor _, hraised.commitIndex,
      hraised.nextIndex⟩
  have hanswer : ∀ (n₁ n₂ : RaftNode) (_ : n₂.InRange) (granted : Bool) (env : MessageEnvelope),
      Output.send env ∈ [Output.send (requestVoteAnswer n₁ sender n₂.log.currentTerm granted)] →
        env.InRange := by
    intro n₁ n₂ h₂ granted env henv
    obtain rfl := Output.send.inj (List.mem_singleton.mp henv)
    exact h₂.log.currentTerm
  rw [run_handleRequestVote]
  split
  · exact ⟨h, hanswer _ _ h _⟩
  · split
    · exact ⟨hvoted, hanswer _ _ hvoted _⟩
    · exact ⟨hraised, hanswer _ _ hraised _⟩

theorem handleRequestVoteResponse (h : n.InRange) (sender : String) {resp : RequestVoteResponse}
    (hresp : (RaftMessage.requestVoteResponse resp).InRange) :
    ((handleRequestVoteResponse sender resp).run [] n).state.InRange ∧
      ∀ env, .send env ∈ ((handleRequestVoteResponse sender resp).run [] n).out →
        env.InRange := by
  have hcounted := h.counted sender
  rw [run_handleRequestVoteResponse]
  split
  · exact ⟨h, by simp⟩
  · split
    · exact ⟨h.raiseTerm hresp, by simp⟩
    · split
      · split
        · refine ⟨hcounted.leaderOf, fun env henv => ?_⟩
          rcases List.mem_cons.mp henv with henv | henv
          · cases henv
          · exact hcounted.leaderOf.heartbeats henv
        · exact ⟨hcounted, by simp⟩
      · exact ⟨h, by simp⟩

theorem startElection (h : n.InRange) :
    (startElection.run [] n).state.InRange ∧
      ∀ env, .send env ∈ (startElection.run [] n).out → env.InRange := by
  have hcandidate := h.candidateOf
  rw [run_startElection]
  split
  · refine ⟨hcandidate.leaderOf, fun env henv => ?_⟩
    rcases List.mem_cons.mp henv with henv | henv
    · cases henv
    · exact hcandidate.leaderOf.heartbeats henv
  · refine ⟨hcandidate, fun env henv => ?_⟩
    obtain ⟨p, -, hp⟩ := List.mem_map.mp henv
    obtain rfl := Output.send.inj hp
    exact ⟨addOne_le_u64Max _, h.log.lastIndex, h.termAt_le n.log.lastIndex⟩

theorem propose (h : n.InRange) (command : Command) (tx : Sender) :
    ((propose command tx).run [] n).state.InRange ∧
      ∀ env, .send env ∈ ((propose command tx).run [] n).out → env.InRange := by
  obtain ⟨hentries, -⟩ := h.entries.propose command tx fun _ =>
    ⟨addOne_le_u64Max _, h.log.currentTerm⟩
  rw [run_propose] at hentries ⊢
  split
  · rename_i hrole
    rw [if_pos hrole] at hentries
    have hnext : RaftNode.InRange { n with
        log := (n.log.append n.log.currentTerm command).1
        pendingRequests :=
          n.pendingRequests.insert (n.log.append n.log.currentTerm command).2 tx } :=
      ⟨hentries, h.log.append _ _, h.commitIndex, h.nextIndex⟩
    refine ⟨hnext, fun env henv => ?_⟩
    rcases List.mem_cons.mp henv with henv | henv
    · cases henv
    · exact hnext.heartbeats henv
  · exact ⟨h, by simp⟩

theorem sendHeartbeats (h : n.InRange) :
    (sendHeartbeats.run [] n).state.InRange ∧
      ∀ env, .send env ∈ (sendHeartbeats.run [] n).out → env.InRange := by
  rw [run_sendHeartbeats]
  exact ⟨h, fun env henv => h.heartbeats henv⟩

theorem handleMessage (h : n.InRange) {env : MessageEnvelope} (henv : env.InRange) :
    ((handleMessage env).run [] n).state.InRange ∧
      ∀ env', .send env' ∈ ((handleMessage env).run [] n).out → env'.InRange := by
  unfold RaftNode.handleMessage
  unfold MessageEnvelope.InRange at henv
  revert henv
  cases env.message with
  | appendEntries req => exact fun henv => h.handleAppendEntries _ henv
  | appendEntriesResponse resp =>
      obtain ⟨-, hsent⟩ := h.entries.handleAppendEntriesResponse env.sender.asStr resp
      exact fun henv => ⟨h.handleAppendEntriesResponse _ henv,
        fun env' henv' => absurd henv' (hsent env')⟩
  | requestVote req => exact fun henv => h.handleRequestVote _ henv
  | requestVoteResponse resp => exact fun henv => h.handleRequestVoteResponse _ henv
  | clientRequest _ => exact fun _ => ⟨h, fun env' henv' => by cases henv'⟩
  | clientResponse _ => exact fun _ => ⟨h, fun env' henv' => by cases henv'⟩

/-- What the disk of a node holds are `u64`s, so it starts again with such. -/
theorem new (h : n.InRange) {id : String} {peers : HashMap String PeerInfo}
    (hnew : RaftNode.new id peers n.log.dataDir = some n') : n'.InRange := by
  have hentries := h.entries.new hnew
  obtain ⟨log, hlog, rfl⟩ := Option.map_eq_some_iff.mp hnew
  refine ⟨hentries, .new h.log.stored h.entries.log.disk hlog, Nat.zero_le _, fun p i hi => ?_⟩
  simp [withLog] at hi

/-- A node on an empty data directory. -/
theorem empty (id : String) (peers : HashMap String PeerInfo) :
    (withLog id peers (.unloaded .empty)).InRange := by
  refine ⟨⟨⟨fun i e he => ?_, fun d hd => ?_⟩, fun key value hget => ?_⟩,
    ⟨Nat.zero_le _, Nat.zero_le _, fun ps hps => ?_⟩, Nat.zero_le _, fun p i hi => ?_⟩
  · simp [withLog, RaftLog.unloaded, RaftLog.get] at he
  · simp [withLog, RaftLog.unloaded, DataDir.empty] at hd
  · simp [withLog, StateMachine.new, StateMachine.get] at hget
  · simp [withLog, RaftLog.unloaded, DataDir.empty] at hps
  · simp [withLog] at hi

end RaftNode.InRange

/-! ### Runs -/

/-- The counters of every node are `u64`s, and so are those of the messages in flight. -/
abbrev Cluster.InRange (m : Membership) (c : Cluster) : Prop :=
  c.All m (fun _ n => n.InRange) fun p => p.envelope.InRange

theorem Cluster.InRange.step {m : Membership} {c c' : Cluster} (h : c.InRange m) {a : Action}
    (hstep : m.step c a = some c') : c'.InRange m := by
  refine h.of_step hstep (fun id hid cause prog hr => ?_) fun id hid n hnew =>
    (h.nodes id hid).new hnew
  have hn := h.nodes id hid
  cases hr with
  | startElection => exact hn.startElection
  | sendHeartbeats => exact hn.sendHeartbeats
  | propose => exact hn.propose _ _
  | deliver hp => exact hn.handleMessage (h.packets _ hp)

/-- Each message in flight has counters that are `u64`s, and its JSON is short enough for the
connection it goes over, whatever happened before. -/
theorem sent_inRange_of_run {m : Membership} {ok : Cluster → Action → Prop} {tr : List Cluster}
    (hrun : m.Run ok tr) : ∀ c ∈ tr, ∀ p ∈ c.network, p.envelope.InRange ∧
      p.envelope.toVec.length ≤ Network.maxMessageSize := by
  have hinv := hrun.invariant (I := fun c => c.InRange m)
    ⟨fun id _ => .empty id _, by simp [Membership.initial]⟩ fun c a c' hc _ hstep => hc.step hstep
  intro c hc p hp
  have hrange := (hinv c hc).packets p hp
  exact ⟨hrange, MessageEnvelope.length_toVec_le hrange⟩

/-- A asks for votes. -/
theorem sent_inRange_of_run_three :
    let tr := Membership.three.trace (fun _ _ => True) [.startElection "A"]
    ∃ c ∈ tr, c.network ≠ [] ∧ ∀ p ∈ c.network, p.envelope.InRange ∧
      p.envelope.toVec.length ≤ Network.maxMessageSize := by
  intro tr
  have hrun : Membership.three.Run (fun _ _ => True) tr := Lib.run_trace (by decide +kernel)
  have hmem : tr.get ⟨0, by decide +kernel⟩ ∈ tr := List.get_mem tr _
  exact ⟨_, hmem, by decide +kernel, sent_inRange_of_run hrun _ hmem⟩

end RaftEbpf
