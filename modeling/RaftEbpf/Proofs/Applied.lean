import RaftEbpf.Proofs.CommitScan
import RaftEbpf.Proofs.WellFormed

/-!
# `RaftEbpf.Proofs.Applied`: entries are applied once, in order and without gaps

`apply_committed_entries` counts `last_applied` up to `commit_index`, whether the log has an
entry there or not, and the state machine counts for itself.

* `applied_inOrder`: in every run whose counters stay short of `u64::MAX`, the entries that
  a node passed to `StateMachine::apply` since it last started are those at `1 ..
  last_applied`, in this order. Both counters agree, and the data is the fold of the
  commands.

A ghost lists, for each node, the entries it applied since it last started. The invariant
that carries the result is `commit_index ≤ last_applied` between handlers: a handler that
raises `commit_index` does so to an index of its log, and applies up to it before it ends.
-/

set_option autoImplicit false

namespace RaftEbpf

open RaftEbpf.Lib (HashMap Prog)
open RaftNode

/-! ### What a node has applied -/

/-- The entries that node `id` passed to `StateMachine::apply` by these outputs. -/
def appliedBy (id : String) (emissions : List Emission) : List LogEntry :=
  emissions.filterMap fun em =>
    match em.output with
    | .applied _ entry => if em.after.nodeId = id then some entry else none
    | _ => none

/-- What a step adds to the entries that each node applied since it last started. -/
def Cluster.sinceStart (c : Cluster) (a : Action) (c' : Cluster)
    (applied : String → List LogEntry) : String → List LogEntry := fun id =>
  if a.restarts id then [] else applied id ++ appliedBy id (c'.history.drop c.history.length)

/-- The runs of the cluster, with what each node applied since it last started. -/
abbrev Membership.AppliedRun (m : Membership) (ok : Cluster → Action → Prop)
    (tr : List (Cluster × (String → List LogEntry))) : Prop :=
  Lib.Run (Lib.withGhost m.step Cluster.sinceStart) (m.initial, fun _ => [])
    (fun s a => ok s.1 a) tr

/-- Every run of the cluster is one of these, without what they record. -/
theorem Membership.Run.applied {m : Membership} {ok : Cluster → Action → Prop}
    {tr : List Cluster} (hrun : m.Run ok tr) :
    ∃ tr', m.AppliedRun ok tr' ∧ tr'.map Prod.fst = tr :=
  hrun.addGhost

/-- The states that a list of actions goes through, with what each node applied. -/
abbrev Membership.appliedTrace (m : Membership) (ok : Cluster → Action → Prop)
    [∀ c a, Decidable (ok c a)] (as : List Action) : List (Cluster × (String → List LogEntry)) :=
  Lib.trace (Lib.withGhost m.step Cluster.sinceStart) (m.initial, fun _ => [])
    (fun s a => ok s.1 a) as

/-- What a command does to the data. -/
def Command.effect (data : HashMap String (List UInt8)) : Command → HashMap String (List UInt8)
  | .put key value => data.insert key.asStr value.toVec
  | .delete key => data.erase key.asStr
  | .noop => data

/-- The node applied the entries at `1 .. last_applied`, in this order and each once; both
counters agree, and the data is what the commands make of no data. -/
structure AppliedInOrder (n : RaftNode) (applied : List LogEntry) : Prop where
  indices : applied.map (·.index) = List.range' 1 n.lastApplied
  counters : n.lastApplied = n.stateMachine.lastApplied
  data : n.stateMachine.data = (applied.map (·.command)).foldl Command.effect ∅

/-- Entries at the indices that follow the state machine's counter. None is skipped. -/
theorem StateMachine.foldl_apply {es : List LogEntry} : ∀ {sm : StateMachine},
    es.map (·.index) = List.range' (sm.lastApplied + 1) es.length →
    es.foldl StateMachine.apply sm
      = ⟨(es.map (·.command)).foldl Command.effect sm.data, sm.lastApplied + es.length⟩ := by
  induction es with
  | nil => exact fun _ => rfl
  | cons e es ih =>
      intro sm h
      rw [List.map_cons, List.length_cons, List.range'_succ] at h
      obtain ⟨he, hes⟩ := List.cons.inj h
      have hnext : sm.apply e = ⟨e.command.effect sm.data, sm.lastApplied + 1⟩ := by
        rw [StateMachine.apply, if_neg (by omega), he]
        cases e.command <;> rfl
      rw [List.foldl_cons, hnext, ih hes]
      simp only [List.map_cons, List.foldl_cons, List.length_cons]
      congr 1
      omega

/-- Entries joined in order. -/
theorem AppliedInOrder.append {n n' : RaftNode} {applied es : List LogEntry}
    (h : AppliedInOrder n applied)
    (hidx : es.map (·.index) = List.range' (n.lastApplied + 1) es.length)
    (hlast : n'.lastApplied = n.lastApplied + es.length)
    (hsm : n'.stateMachine = es.foldl StateMachine.apply n.stateMachine) :
    AppliedInOrder n' (applied ++ es) := by
  have hlen : applied.length = n.lastApplied := by
    have := congrArg List.length h.indices
    simpa using this
  rw [StateMachine.foldl_apply (h.counters ▸ hidx)] at hsm
  constructor
  · rw [List.map_append, h.indices, hidx, hlast, Nat.add_comm n.lastApplied 1, List.range'_append_1]
  · rw [hsm, hlast, h.counters]
  · rw [hsm, List.map_append, List.foldl_append, h.data]

/-! ### Applying what is committed -/

/-- The loop finds an entry at each index, so it applies them all. -/
theorem run_applyEntries_all (cs : List WriteResult) {es : List LogEntry} : ∀ {n : RaftNode},
    NumberedFrom n.lastApplied es → (∀ e ∈ es, n.log.get e.index = some e) →
    (applyEntries es.length).run cs n
      = ⟨some (), { n with
          lastApplied := n.lastApplied + es.length
          stateMachine := es.foldl StateMachine.apply n.stateMachine },
        es.map fun e => .applied e.index e, cs⟩ := by
  induction es with
  | nil => exact fun _ _ => rfl
  | cons e es ih =>
      intro n hnum hget
      have he : n.log.get (n.lastApplied + 1) = some e := by
        rw [← hnum.head]
        exact hget e List.mem_cons_self
      have hrest := @ih { n with
          lastApplied := n.lastApplied + 1
          stateMachine := n.stateMachine.apply e } hnum.tail
        fun d hd => hget d (List.mem_cons_of_mem _ hd)
      have hidx := hnum.head
      simp [applyEntries, Prog.run_bind, he, hrest, hidx]
      omega

/-- `apply_committed_entries` on a log that reaches `commit_index`. -/
theorem run_applyCommittedEntries_all (cs : List WriteResult) {n : RaftNode} {l : List LogEntry}
    (hl : n.log.Holds l) (hc : n.commitIndex ≤ n.lastApplied ∨ n.commitIndex ≤ l.length) :
    ∃ es, NumberedFrom n.lastApplied es ∧ es.length = n.commitIndex - n.lastApplied ∧
      applyCommittedEntries.run cs n
        = ⟨some (), { n with
            lastApplied := n.lastApplied + es.length
            stateMachine := es.foldl StateMachine.apply n.stateMachine },
          es.map fun e => .applied e.index e, cs⟩ := by
  have hlen : ((l.drop n.lastApplied).take (n.commitIndex - n.lastApplied)).length
      = n.commitIndex - n.lastApplied := by
    rw [List.length_take, List.length_drop]
    omega
  have hnum := hl.numbered.numberedFrom
    (List.take_prefix (n.commitIndex - n.lastApplied) (l.drop n.lastApplied))
  have hget : ∀ e ∈ (l.drop n.lastApplied).take (n.commitIndex - n.lastApplied),
      n.log.get e.index = some e := by
    intro e he
    obtain ⟨i, hi⟩ := List.mem_iff_getElem?.mp (List.mem_of_mem_take he)
    rw [List.getElem?_drop] at hi
    rw [hl.numbered _ _ hi, hl.get_succ, hi]
  refine ⟨_, hnum, hlen, ?_⟩
  have hrun := run_applyEntries_all cs hnum hget
  rw [hlen] at hrun
  simp [applyCommittedEntries, Prog.run_bind, hrun, hlen]

/-! ### The handlers -/

/-- The entries that these outputs say were applied. -/
def appliedIn (out : List Output) : List LogEntry :=
  out.filterMap fun o =>
    match o with
    | .applied _ entry => some entry
    | _ => none

@[simp] theorem appliedIn_append (out out' : List Output) :
    appliedIn (out ++ out') = appliedIn out ++ appliedIn out' := List.filterMap_append

@[simp] theorem appliedIn_map_applied (es : List LogEntry) :
    appliedIn (es.map fun e => .applied e.index e) = es := by
  induction es with
  | nil => rfl
  | cons e es ih => exact congrArg (e :: ·) ih

/-- Outputs none of which is an application. -/
theorem appliedIn_eq_nil {out : List Output} (h : ∀ i e, .applied i e ∉ out) :
    appliedIn out = [] := by
  refine List.filterMap_eq_nil_iff.mpr fun o ho => ?_
  cases o with
  | applied i e => exact absurd ho (h i e)
  | _ => rfl

/-- What one handler does to the counters and the state machine: it applies the entries that
follow `last_applied`, and ends with `commit_index` applied. -/
structure AppliesNext (n : RaftNode) (r : Prog.Result RaftNode Output WriteResult Unit) : Prop
    where
  nodeId : r.state.nodeId = n.nodeId
  commit : r.state.commitIndex ≤ r.state.lastApplied
  numbered : NumberedFrom n.lastApplied (appliedIn r.out)
  last : r.state.lastApplied = n.lastApplied + (appliedIn r.out).length
  machine : r.state.stateMachine = (appliedIn r.out).foldl StateMachine.apply n.stateMachine

section Handlers
variable {n : RaftNode}

/-- A handler that applies nothing. -/
theorem AppliesNext.idle {r : Prog.Result RaftNode Output WriteResult Unit}
    (hc : n.commitIndex ≤ n.lastApplied) (hid : r.state.nodeId = n.nodeId)
    (hcommit : r.state.commitIndex = n.commitIndex) (hlast : r.state.lastApplied = n.lastApplied)
    (hsm : r.state.stateMachine = n.stateMachine) (hout : ∀ i e, .applied i e ∉ r.out) :
    AppliesNext n r := by
  have hnil := appliedIn_eq_nil hout
  refine ⟨hid, ?_, ?_, ?_, ?_⟩
  · rw [hcommit, hlast]
    exact hc
  · rw [hnil]
    intro j e he
    simp at he
  · rw [hnil, hlast]
    rfl
  · rw [hnil, hsm]
    rfl

theorem appliesNext_sendHeartbeats (hc : n.commitIndex ≤ n.lastApplied) :
    AppliesNext n (sendHeartbeats.run [] n) := by
  rw [run_sendHeartbeats]
  exact .idle hc rfl rfl rfl rfl (applied_notMem_heartbeats n)

theorem appliesNext_startElection (hc : n.commitIndex ≤ n.lastApplied) :
    AppliesNext n (startElection.run [] n) := by
  rw [run_startElection]
  split
  · refine .idle hc rfl rfl rfl rfl fun i e h => ?_
    rcases List.mem_cons.mp h with h | h
    · cases h
    · exact applied_notMem_heartbeats _ i e h
  · refine .idle hc rfl rfl rfl rfl fun i e h => ?_
    obtain ⟨p, -, hp⟩ := List.mem_map.mp h
    cases hp

theorem appliesNext_propose (hc : n.commitIndex ≤ n.lastApplied) (command : Command)
    (tx : Sender) : AppliesNext n ((propose command tx).run [] n) := by
  rw [run_propose]
  split
  · refine .idle hc rfl rfl rfl rfl fun i e h => ?_
    rcases List.mem_cons.mp h with h | h
    · cases h
    · exact applied_notMem_heartbeats _ i e h
  · exact .idle hc rfl rfl rfl rfl (by simp)

/-- A request whose term check raises no commit index. -/
theorem appliesNext_raiseTerm (hc : n.commitIndex ≤ n.lastApplied) (term : Nat)
    (out : List Output) (hout : ∀ i e, .applied i e ∉ out) :
    AppliesNext n ⟨some (), raiseTerm n term, out, []⟩ := by
  refine .idle hc ?_ (raiseTerm_commitIndex n term) ?_ ?_ hout <;>
  · show _ = _
    unfold raiseTerm
    split <;> rfl

theorem appliesNext_handleAppendEntries (h : n.Regular) (hc : n.commitIndex ≤ n.lastApplied)
    {sender : String} {req : AppendEntriesRequest} (hreq : req.Regular) :
    AppliesNext n ((handleAppendEntries sender req).run [] n) := by
  by_cases hstale : req.term < n.log.currentTerm
  · rw [run_handleAppendEntries_stale n sender req hstale]
    exact .idle hc rfl rfl rfl rfl (by simp)
  · by_cases hm : Mismatch n req
    · rw [run_handleAppendEntries_mismatch n sender req hstale hm]
      have hr := appliesNext_raiseTerm hc req.term [] (by simp)
      exact .idle hc hr.nodeId (raiseTerm_commitIndex n _) hr.last hr.machine (by simp)
    · obtain ⟨l, hl, -⟩ := (h.accepted hreq (by omega) hm).log
      have hr := appliesNext_raiseTerm hc req.term [] (by simp)
      have hlast : (accepted n req).lastApplied = n.lastApplied := hr.last
      -- A commit index that the request raises is at most the last index of the log.
      have hreach : (accepted n req).commitIndex ≤ (accepted n req).lastApplied ∨
          (accepted n req).commitIndex ≤ l.length := by
        rw [hlast, ← hl.lastIndex]
        simp only [accepted]
        split
        · exact Or.inr (Nat.min_le_right _ _)
        · exact Or.inl hc
      obtain ⟨es, hnum, hlen, hrun⟩ := run_applyCommittedEntries_all [] hl hreach
      rw [run_handleAppendEntries_apply sender hstale hm hrun]
      have happ : ∀ env, appliedIn ((es.map fun e => Output.applied e.index e) ++ [.send env])
          = es := by
        intro env
        rw [appliedIn_append, appliedIn_map_applied]
        exact List.append_nil es
      constructor
      · exact hr.nodeId
      · show (accepted n req).commitIndex ≤ (accepted n req).lastApplied + es.length
        omega
      · rw [happ, ← hlast]
        exact hnum
      · rw [happ, ← hlast]
      · rw [happ]
        show es.foldl StateMachine.apply (raiseTerm n req.term).stateMachine = _
        rw [hr.machine]
        rfl

theorem appliesNext_tryAdvanceCommitIndex (h : n.Regular) (hc : n.commitIndex ≤ n.lastApplied) :
    AppliesNext n (tryAdvanceCommitIndex.run [] n) := by
  by_cases hrole : n.role = .leader
  · cases hk : findCommit n n.commitIndex with
    | none =>
        rw [run_tryAdvanceCommitIndex_none [] fun _ => hk]
        exact .idle hc rfl rfl rfl rfl (by simp)
    | some k =>
        obtain ⟨l, hl, -⟩ := h.log
        have hle := (findCommit_eq_some_iff.mp hk).1.le_lastIndex
        rw [hl.lastIndex] at hle
        obtain ⟨es, hnum, hlen, hrun⟩ :=
          run_applyCommittedEntries_all [] (n := { n with commitIndex := k }) hl (Or.inr hle)
        obtain ⟨n2, out2, hrun2, hn⟩ := run_tryAdvanceCommitIndex_some hrole hk hrun
        have hnil : appliedIn out2 = [] := by
          refine appliedIn_eq_nil fun i e he => ?_
          obtain ⟨idx, tx, ho, -⟩ := hn.outputs _ he
          cases ho
        have happ : appliedIn ((es.map fun e => Output.applied e.index e) ++ out2) = es := by
          rw [appliedIn_append, appliedIn_map_applied, hnil, List.append_nil]
        rw [hrun2]
        constructor
        · show n2.nodeId = _
          rw [hn.state]
        · show n2.commitIndex ≤ n2.lastApplied
          rw [hn.state]
          simp only at hlen ⊢
          omega
        · rw [happ]
          exact hnum
        · rw [happ]
          show n2.lastApplied = _
          rw [hn.state]
        · rw [happ]
          show n2.stateMachine = _
          rw [hn.state]
  · rw [run_tryAdvanceCommitIndex_none [] fun hr => absurd hr hrole]
    exact .idle hc rfl rfl rfl rfl (by simp)

theorem appliesNext_handleAppendEntriesResponse (h : n.Regular)
    (hc : n.commitIndex ≤ n.lastApplied) {sender : String} {resp : AppendEntriesResponse}
    (hresp : resp.lastLogIndex < u64Max) :
    AppliesNext n ((handleAppendEntriesResponse sender resp).run [] n) := by
  rw [run_handleAppendEntriesResponse]
  split
  · exact .idle hc rfl rfl rfl rfl (by simp)
  · split
    · exact appliesNext_raiseTerm hc _ _ (by simp)
    · split
      · obtain ⟨h1, h2, h3, h4, h5⟩ :=
          appliesNext_tryAdvanceCommitIndex (h.acknowledged sender hresp) hc
        exact ⟨h1, h2, h3, h4, h5⟩
      · have hb : backedOff n sender = { n with nextIndex := (backedOff n sender).nextIndex } := by
          unfold backedOff
          split <;> rfl
        rw [hb]
        exact .idle hc rfl rfl rfl rfl (by simp)

theorem appliesNext_handleRequestVote (hc : n.commitIndex ≤ n.lastApplied) (sender : String)
    (req : RequestVoteRequest) : AppliesNext n ((handleRequestVote sender req).run [] n) := by
  rw [run_handleRequestVote]
  have hr := appliesNext_raiseTerm hc req.term [] (by simp)
  split
  · exact .idle hc rfl rfl rfl rfl (by simp)
  · split
    · exact .idle hc hr.nodeId (raiseTerm_commitIndex n _) hr.last hr.machine (by simp)
    · exact appliesNext_raiseTerm hc _ _ (by simp)

theorem appliesNext_handleRequestVoteResponse (hc : n.commitIndex ≤ n.lastApplied)
    (sender : String) (resp : RequestVoteResponse) :
    AppliesNext n ((handleRequestVoteResponse sender resp).run [] n) := by
  have hcount : counted n sender = { n with
      votesReceived := (counted n sender).votesReceived } := by
    unfold counted
    split <;> rfl
  rw [run_handleRequestVoteResponse]
  split
  · exact .idle hc rfl rfl rfl rfl (by simp)
  · split
    · exact appliesNext_raiseTerm hc _ _ (by simp)
    · split
      · rw [hcount]
        split
        · refine .idle hc rfl rfl rfl rfl fun i e he => ?_
          rcases List.mem_cons.mp he with he | he
          · cases he
          · exact applied_notMem_heartbeats _ i e he
        · exact .idle hc rfl rfl rfl rfl (by simp)
      · exact .idle hc rfl rfl rfl rfl (by simp)

end Handlers

/-- Each handler applies the entries that follow. -/
theorem appliesNext_handler {n : RaftNode} {id : String} {cause : Option RaftMessage}
    {prog : NodeProg Unit} (hh : Handler (fun p => p.envelope.message.Regular) id cause prog)
    (hn : n.Regular) (hc : n.commitIndex ≤ n.lastApplied) : AppliesNext n (prog.run [] n) := by
  cases hh with
  | startElection => exact appliesNext_startElection hc
  | sendHeartbeats => exact appliesNext_sendHeartbeats hc
  | propose command tx => exact appliesNext_propose hc command tx
  | receive p hp _ =>
      unfold handleMessage
      cases hmsg : p.envelope.message with
      | appendEntries req =>
          rw [hmsg] at hp
          exact appliesNext_handleAppendEntries hn hc hp
      | appendEntriesResponse resp =>
          rw [hmsg] at hp
          exact appliesNext_handleAppendEntriesResponse hn hc hp
      | requestVote req => exact appliesNext_handleRequestVote hc _ req
      | requestVoteResponse resp => exact appliesNext_handleRequestVoteResponse hc _ resp
      | clientRequest req => exact .idle hc rfl rfl rfl rfl (by simp)
      | clientResponse resp => exact .idle hc rfl rfl rfl rfl (by simp)

/-! ### Runs -/

/-- The outputs of one handler, as they enter the history. -/
theorem appliedBy_emissions (id : String) (cause : Option RaftMessage) (n : RaftNode)
    (out : List Output) : appliedBy id (out.map fun o => ⟨cause, o, n⟩)
      = if n.nodeId = id then appliedIn out else [] := by
  induction out with
  | nil => simp [appliedBy, appliedIn]
  | cons o out ih =>
      unfold appliedBy appliedIn at ih ⊢
      rw [List.map_cons, List.filterMap_cons, List.filterMap_cons, ih]
      cases o <;> by_cases hid : n.nodeId = id <;> simp [hid]

/-- What the ghost says of a node. -/
structure AppliedState (id : String) (n : RaftNode) (applied : List LogEntry) : Prop where
  nodeId : n.nodeId = id
  commit : n.commitIndex ≤ n.lastApplied
  inOrder : AppliedInOrder n applied

/-- One handler of one member. The others apply nothing. -/
theorem AppliedState.runAt {m : Membership} {c : Cluster} {g : String → List LogEntry}
    (h : ∀ v ∈ m.ids, AppliedState v (c.nodes v) (g v)) {id : String} (hid : id ∈ m.ids)
    {cause : Option RaftMessage} {prog : NodeProg Unit}
    (hh : Handler (fun p => p.envelope.message.Regular) id cause prog)
    (hreg : (c.nodes id).Regular) : ∀ v ∈ m.ids, AppliedState v ((c.runAt id cause prog).nodes v)
      (g v ++ appliedBy v ((c.runAt id cause prog).history.drop c.history.length)) := by
  have hself := h id hid
  have hr := appliesNext_handler hh hreg hself.commit
  have hnew : (c.runAt id cause prog).history.drop c.history.length
      = (prog.run [] (c.nodes id)).out.map fun o =>
        ⟨cause, o, (prog.run [] (c.nodes id)).state⟩ := List.drop_left
  intro v hv
  rw [hnew, appliedBy_emissions, hr.nodeId, hself.nodeId]
  by_cases hvi : v = id
  · subst hvi
    have hstate : (c.runAt v cause prog).nodes v = (prog.run [] (c.nodes v)).state := by
      simp [Cluster.runAt]
    rw [if_pos rfl, hstate]
    exact ⟨hr.nodeId.trans hself.nodeId, hr.commit,
      hself.inOrder.append (numberedFrom_iff.mp hr.numbered) hr.last hr.machine⟩
  · have hother : (c.runAt id cause prog).nodes v = c.nodes v := by simp [Cluster.runAt, hvi]
    rw [if_neg (Ne.symm hvi), List.append_nil, hother]
    exact h v hv

/-- One step of the cluster. -/
theorem AppliedState.step {m : Membership} {c c' : Cluster} {a : Action}
    {g : String → List LogEntry} (h : ∀ v ∈ m.ids, AppliedState v (c.nodes v) (g v))
    (hall : c.All m (fun _ n => n.Regular) fun p => p.envelope.message.Regular)
    (hstep : m.step c a = some c') :
    ∀ v ∈ m.ids, AppliedState v (c'.nodes v) (c.sinceStart a c' g v) := by
  -- No output, so nothing is applied.
  have hquiet : ∀ v, g v ++ appliedBy v (c.history.drop c.history.length) = g v := by
    intro v
    rw [List.drop_length]
    exact List.append_nil _
  cases Membership.moves_of_step hstep with
  | startElection hid => exact AppliedState.runAt h hid .startElection (hall.nodes _ hid)
  | sendHeartbeats hid => exact AppliedState.runAt h hid .sendHeartbeats (hall.nodes _ hid)
  | propose hid => exact AppliedState.runAt h hid (.propose _ _) (hall.nodes _ hid)
  | @deliver k p hp hid =>
      exact AppliedState.runAt (c := { c with network := c.network.eraseIdx k }) h hid
        (.receive p (hall.packets p (List.mem_of_getElem? hp)) rfl) (hall.nodes _ hid)
  | drop k =>
      intro v hv
      show AppliedState v (c.nodes v) (g v ++ appliedBy v (c.history.drop c.history.length))
      rw [hquiet]
      exact h v hv
  | duplicate hp =>
      intro v hv
      show AppliedState v (c.nodes v) (g v ++ appliedBy v (c.history.drop c.history.length))
      rw [hquiet]
      exact h v hv
  | @restart id n hid hnew =>
      intro v hv
      by_cases hvi : v = id
      · subst hvi
        obtain ⟨log, -, rfl⟩ := Option.map_eq_some_iff.mp hnew
        have hnil : c.sinceStart (.restart v)
            { c with nodes := Function.update c.nodes v (withLog v (m.peersOf v) log) } g v
            = [] := by
          simp [Cluster.sinceStart, Action.restarts]
        rw [hnil]
        simp only [Function.update_self]
        exact ⟨rfl, le_rfl, rfl, rfl, rfl⟩
      · have hkeep : c.sinceStart (.restart id)
            { c with nodes := Function.update c.nodes id n } g v = g v := by
          simp only [Cluster.sinceStart, Action.restarts, Ne.symm hvi, decide_false]
          exact hquiet v
        rw [hkeep]
        simp only [Function.update_of_ne hvi]
        exact h v hv

/-- In every run whose counters stay short of `u64::MAX`, with any loss, duplication and
delay and any restarts, each node applied the entries at `1 .. last_applied`, in this order
and each once, since it last started. -/
theorem applied_inOrder {m : Membership} {tr : List (Cluster × (String → List LogEntry))}
    (hrun : m.AppliedRun (fun _ _ => True) tr) (hshort : ∀ s ∈ tr, s.1.CountersShort m) :
    ∀ s ∈ tr, ∀ id ∈ m.ids, AppliedInOrder (s.1.nodes id) (s.2 id) := by
  have hplain : m.Run (fun _ _ => True) (tr.map Prod.fst) := Lib.Run.dropGhost hrun
  have hall : ∀ s ∈ tr, s.1.All m (fun _ n => n.Regular) fun p => p.envelope.message.Regular := by
    intro s hs
    refine (kept_regular m).invariant hplain ?_ s.1 (List.mem_map_of_mem hs)
    intro c hc
    obtain ⟨s', hs', rfl⟩ := List.mem_map.mp hc
    exact hshort s' hs'
  have hstate : ∀ s ∈ tr, ∀ v ∈ m.ids, AppliedState v (s.1.nodes v) (s.2 v) := by
    refine (hrun.restrict hall).invariant ?_ ?_
    · exact fun v _ => ⟨rfl, le_rfl, rfl, rfl, rfl⟩
    · rintro ⟨c, g⟩ a s' h ⟨-, hc, -⟩ hstep
      obtain ⟨c', hc', rfl⟩ := Option.map_eq_some_iff.mp hstep
      exact AppliedState.step h hc hc'
  exact fun s hs id hid => (hstate s hs id hid).inOrder

/-- Three nodes: A commits and applies entry 1, B follows, A starts again, B is elected with
C's vote and applies entry 2. -/
theorem applied_inOrder_three :
    let tr := Membership.three.appliedTrace (fun _ _ => True)
      [.startElection "A", .deliver 0, .deliver 1,
        .propose "A" (.put (.pushStr 256 "k") (.collectTake 1024 [1, 2])), .deliver 4, .deliver 4,
        .sendHeartbeats "A", .deliver 5, .restart "A", .startElection "B", .deliver 6, .deliver 7,
        .propose "B" (.delete (.pushStr 256 "k")), .sendHeartbeats "B", .deliver 11, .deliver 12,
        .sendHeartbeats "B", .deliver 12, .deliver 13]
    tr.length = 20 ∧
      ∀ s ∈ tr, ∀ id ∈ Membership.three.ids, AppliedInOrder (s.1.nodes id) (s.2 id) :=
  ⟨by decide +kernel, applied_inOrder (Lib.run_trace (by decide +kernel)) (by decide +kernel)⟩

end RaftEbpf
