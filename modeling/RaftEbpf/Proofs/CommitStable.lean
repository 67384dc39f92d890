import RaftEbpf.Proofs.Invariant
import RaftEbpf.Proofs.StateMachineSafety

/-!
# `RaftEbpf.Proofs.CommitStable`: when committed entries are never undone

`truncate_from` does not look at `commit_index`, and the commit update of
`handle_append_entries` may set a lower value where the log is short. Nothing but the
soundness of all earlier commits keeps committed entries in place.

* `not_commitKept`: a follower writes over an entry that it committed as leader, in a run with
  one leader per term. The commit rested on the unsound acknowledgement of `MatchIndex`.
* `commitKept_of_sound`: where elections, acknowledgements and follower commits meet their
  conditions, no step undoes a committed entry, `commit_index` only goes down in a restart, and
  it never exceeds `last_index`.
-/

set_option autoImplicit false

namespace RaftEbpf

open RaftEbpf.Lib.Replication
open RaftNode

/-- The step undoes no committed entry of any member. -/
structure CommitKept (m : Membership) (c : Cluster) (a : Action) (c' : Cluster) : Prop where
  /-- An entry at or below the commit index keeps its term and its command. -/
  entries : ∀ id ∈ m.ids, ∀ i ≤ (c.nodes id).commitIndex, ∀ e, (c.nodes id).log.get i = some e →
    ∃ e', (c'.nodes id).log.get i = some e' ∧ e'.term = e.term ∧ e'.command = e.command
  /-- Only a restart of the node sets its commit index back. -/
  commit : ∀ id ∈ m.ids, a.restarts id = false →
    (c.nodes id).commitIndex ≤ (c'.nodes id).commitIndex
  before : ∀ id ∈ m.ids, (c.nodes id).commitIndex ≤ (c.nodes id).log.lastIndex
  after : ∀ id ∈ m.ids, (c'.nodes id).commitIndex ≤ (c'.nodes id).log.lastIndex

/-! ### The commit index of one handler -/

section Handlers
variable {n : RaftNode}

/-- A handler keeps or raises the commit index, or sets it to the last index. -/
def CommitsUpward (n n' : RaftNode) : Prop :=
  n.commitIndex ≤ n'.commitIndex ∨ n'.commitIndex = n'.log.lastIndex

theorem commitsUpward_handleAppendEntries (sender : String) (req : AppendEntriesRequest) :
    CommitsUpward n ((handleAppendEntries sender req).run [] n).state := by
  rcases run_handleAppendEntries_cases n sender req with
    ⟨hstale, hrun⟩ | ⟨hstale, hm, hrun⟩ | ⟨hstale, hm, n', out, hrun, happ⟩
  · rw [hrun]
    exact Or.inl le_rfl
  · rw [hrun]
    exact Or.inl (raiseTerm_commitIndex n req.term).ge
  · rw [hrun]
    show CommitsUpward n n'
    rw [happ.state]
    by_cases hraise : n.commitIndex < req.leaderCommit
    · have hcom : (accepted n req).commitIndex
          = min req.leaderCommit (accepted n req).log.lastIndex := if_pos hraise
      rcases Nat.le_total req.leaderCommit (accepted n req).log.lastIndex with hle | hle
      · left
        show n.commitIndex ≤ (accepted n req).commitIndex
        omega
      · right
        exact hcom.trans (Nat.min_eq_right hle)
    · have hcom : (accepted n req).commitIndex = n.commitIndex := if_neg hraise
      exact Or.inl hcom.ge

/-- The scan looks above the commit index only. -/
theorem commitsUpward_tryAdvanceCommitIndex (hshort : n.commitIndex < u64Max) :
    CommitsUpward n (tryAdvanceCommitIndex.run [] n).state := by
  rcases run_tryAdvanceCommitIndex [] n with ⟨hrun, -⟩ | ⟨k, n', out, -, hk, hrun, hc⟩
  · rw [hrun]
    exact Or.inl le_rfl
  · rw [hrun]
    left
    show n.commitIndex ≤ n'.commitIndex
    rw [hc.state]
    have hmem := List.mem_of_find?_eq_some hk
    rw [List.mem_reverse, List.mem_range'_1, addOne_of_lt hshort] at hmem
    show n.commitIndex ≤ k
    omega

theorem commitsUpward_handleMessage (hshort : n.commitIndex < u64Max) (env : MessageEnvelope) :
    CommitsUpward n ((handleMessage env).run [] n).state := by
  unfold handleMessage
  cases env.message with
  | appendEntries req => exact commitsUpward_handleAppendEntries _ req
  | appendEntriesResponse resp =>
      simp only
      rw [run_handleAppendEntriesResponse]
      split
      · exact Or.inl le_rfl
      · split
        · exact Or.inl (raiseTerm_commitIndex n _).ge
        · split
          · exact commitsUpward_tryAdvanceCommitIndex (n := acknowledged n _ _) hshort
          · left
            show n.commitIndex ≤ (backedOff n _).commitIndex
            unfold backedOff
            split <;> exact le_rfl
  | requestVote req =>
      simp only
      rw [run_handleRequestVote]
      split
      · exact Or.inl le_rfl
      · split
        · exact Or.inl (raiseTerm_commitIndex n req.term).ge
        · exact Or.inl (raiseTerm_commitIndex n req.term).ge
  | requestVoteResponse resp =>
      have hcount : (counted n env.sender.asStr).commitIndex = n.commitIndex := by
        unfold counted
        split <;> rfl
      simp only
      rw [run_handleRequestVoteResponse]
      split
      · exact Or.inl le_rfl
      · split
        · exact Or.inl (raiseTerm_commitIndex n _).ge
        · split
          · split
            · exact Or.inl hcount.ge
            · exact Or.inl hcount.ge
          · exact Or.inl le_rfl
  | clientRequest req => exact Or.inl le_rfl
  | clientResponse resp => exact Or.inl le_rfl

theorem commitsUpward_startElection : CommitsUpward n (startElection.run [] n).state := by
  rw [run_startElection]
  split <;> exact Or.inl le_rfl

theorem commitsUpward_propose (command : Command) (tx : Sender) :
    CommitsUpward n ((propose command tx).run [] n).state := by
  rw [run_propose]
  split <;> exact Or.inl le_rfl

end Handlers

/-- No step but a restart sets a commit index back, unless to the last index. -/
theorem commitsUpward_step {m : Membership} {c c' : Cluster} {a : Action} {id : String}
    (hshort : (c.nodes id).commitIndex < u64Max) (hstep : m.step c a = some c')
    (ha : a.restarts id = false) : CommitsUpward (c.nodes id) (c'.nodes id) := by
  -- A program of another member leaves the node alone.
  have hrun : ∀ v cause prog, (v = id → CommitsUpward (c.nodes id)
      (Lib.Prog.run prog [] (c.nodes id)).state) →
      CommitsUpward (c.nodes id) ((c.runAt v cause prog).nodes id) := by
    intro v cause prog hself
    by_cases hv : v = id
    · subst hv
      simpa [Cluster.runAt] using hself rfl
    · simp only [Cluster.runAt, Function.update_of_ne (Ne.symm hv)]
      exact Or.inl le_rfl
  cases Membership.moves_of_step hstep with
  | startElection hid => exact hrun _ _ _ fun _ => commitsUpward_startElection
  | sendHeartbeats hid =>
      refine hrun _ _ _ fun _ => ?_
      rw [run_sendHeartbeats]
      exact Or.inl le_rfl
  | @propose v command hid =>
      exact hrun v none (RaftNode.propose command c.proposals) fun _ => commitsUpward_propose _ _
  | @deliver k p hp hid =>
      exact hrun p.envelope.recipient.asStr (some p.envelope.message) (handleMessage p.envelope)
        fun _ => commitsUpward_handleMessage hshort _
  | drop k => exact Or.inl le_rfl
  | duplicate hp => exact Or.inl le_rfl
  | @restart v n hid hnew =>
      have hv : v ≠ id := by simpa [Action.restarts] using ha
      show CommitsUpward (c.nodes id) (Function.update c.nodes v n id)
      rw [Function.update_of_ne (Ne.symm hv)]
      exact Or.inl le_rfl

/-! ### Committed prefixes stay -/

/-- What is committed in a log is at most the log. -/
theorem CommittedIn.le_length {m : Membership} {s : Past} {t k : Nat} {l : List LogEntry}
    (h : CommittedIn m s t l k) : k ≤ l.length := by
  rcases h with rfl | ⟨u, P, -, -, hlen, hpre⟩
  · exact Nat.zero_le _
  · have := hpre.length_le
    rw [List.length_take] at this
    omega

/-- Committed prefixes of one length are the same list. -/
theorem CommittedIn.take_eq {m : Membership} {s : Past} (hinv : Inv s) (hack : AckInv s)
    (hq : Quorate m.ids s) {t t' k : Nat} {l l' : List LogEntry} (h : CommittedIn m s t l k)
    (h' : CommittedIn m s t' l' k) : l.take k = l'.take k := by
  rcases h with rfl | ⟨u, P, hP, -, hlen, hpre⟩
  · simp
  · rcases h' with rfl | ⟨u', P', hP', -, hlen', hpre'⟩
    · simp
    · have hagree : P.take k = P'.take k := by
        rcases hP.agree hinv hack hq hP' with hPP | hPP
        · rw [List.prefix_iff_eq_take.mp hPP, List.take_take, Nat.min_eq_left hlen]
        · rw [List.prefix_iff_eq_take.mp hPP, List.take_take, Nat.min_eq_left hlen']
      have hl : l.take k = P.take k := by
        rw [List.prefix_iff_eq_take.mp hpre, List.length_take, Nat.min_eq_left hlen]
      have hl' : l'.take k = P'.take k := by
        rw [List.prefix_iff_eq_take.mp hpre', List.length_take, Nat.min_eq_left hlen']
      rw [hl, hl', hagree]

/-- Protocol steps of one node keep what the relation says is committed. -/
theorem Sim.commitKept {m : Membership} {f : Tracks} {tr tr' : List Cluster} {c c' : Cluster}
    {s s' : Past} {i : String} {a : Action} (h : Sim m f tr c s) (h' : Sim m f tr' c' s')
    (hsteps : Steps i s s') (hv : f.votes) (hc : f.commits) (hshort : c.CountersShort m)
    (hstep : m.step c a = some c') : CommitKept m c a c' := by
  have hle : ∀ id ∈ m.ids, (c.nodes id).commitIndex ≤ (c.nodes id).log.lastIndex := by
    intro id hid
    have hn := h.nodes id hid
    rw [hn.log.lastIndex]
    exact (hn.commit hc).le_length
  have hle' : ∀ id ∈ m.ids, (c'.nodes id).commitIndex ≤ (c'.nodes id).log.lastIndex := by
    intro id hid
    have hn := h'.nodes id hid
    rw [hn.log.lastIndex]
    exact (hn.commit hc).le_length
  have hstays : ∀ id ∈ m.ids,
      CommittedIn m s' (s'.term id) (s'.log id) (c.nodes id).commitIndex := fun id hid =>
    Steps.committedAt hsteps h.inv h.ackInv (h'.quorate hv) ((h.nodes id hid).commit hc)
  refine ⟨fun id hid k hk e he => ?_, fun id hid ha => ?_, hle, hle'⟩
  · have hn := h.nodes id hid
    have hsame : (s.log id).take (c.nodes id).commitIndex
        = (s'.log id).take (c.nodes id).commitIndex := by
      -- Both are committed prefixes in the later state.
      have hg := Steps.grows hsteps h.inv
      exact ((hn.commit hc).grows hg).take_eq h'.inv h'.ackInv (h'.quorate hv) (hstays id hid)
    refine ⟨e, ?_, rfl, rfl⟩
    rw [← he]
    exact (get_eq_of_take hn.log (h'.nodes id hid).log hsame hk).symm
  · rcases commitsUpward_step ((hle id hid).trans_lt (hshort id hid).2) hstep ha with hup | hlast
    · exact hup
    · rw [hlast, (h'.nodes id hid).log.lastIndex]
      exact (hstays id hid).le_length

/-- In every run whose steps are `Sound` with short counters, restarts and duplicates included,
no step undoes a committed entry. -/
theorem commitKept_of_sound {m : Membership} {tr : List Cluster} {c c' : Cluster} {a : Action}
    (hrun : m.Run (fun c a => c.Sound m a ∧ c.CountersShort m) (c :: tr))
    (hok : c.Sound m a ∧ c.CountersShort m) (hstep : m.step c a = some c') :
    CommitKept m c a c' := by
  have hsound : Tracks.Sound m ⟨True, True, True⟩ fun c a => c.Sound m a ∧ c.CountersShort m :=
    ⟨fun _ _ h => h.1.1, fun _ _ _ h => h.1.2.1, fun _ _ _ h => h.1.2.2.1,
      fun _ _ _ h => h.1.2.2.2, fun _ => trivial, fun _ => trivial⟩
  obtain ⟨c₁, rest, s, heq, hsim⟩ := run_simulated hsound hrun (Or.inl trivial)
  obtain ⟨rfl, rfl⟩ := List.cons.inj heq
  obtain ⟨s', hsim', i, hsteps⟩ := hsim.step hsound hok hstep (Or.inl trivial)
  exact hsim.commitKept hsim' hsteps trivial trivial hok.2 hstep

/-- Three nodes: A starts again after it committed entry 1, and its commit index goes back to
0. B leads term 2 with entry 1 committed, and commits entry 2 on C's acknowledgement. -/
theorem commitKept_of_sound_three :
    let ok := fun c a => Cluster.Sound .three c a ∧ c.CountersShort .three
    let c := Membership.three.final ok [.startElection "A", .deliver 0, .deliver 1,
      .propose "A" .noop, .deliver 4, .deliver 4, .sendHeartbeats "A", .deliver 5, .restart "A",
      .startElection "B", .deliver 6, .deliver 7, .propose "B" (.delete (.pushStr 256 "k")),
      .sendHeartbeats "B", .deliver 11, .deliver 12, .sendHeartbeats "B", .deliver 12]
    (c.nodes "B").commitIndex = 1 ∧
      ((Membership.three.next c (.deliver 13)).nodes "B").commitIndex = 2 ∧
      CommitKept .three c (.deliver 13) (Membership.three.next c (.deliver 13)) :=
  ⟨by decide +kernel, by decide +kernel,
    commitKept_of_sound (Lib.run_final (by decide +kernel)) (by decide +kernel)
      (Lib.step_next (by decide +kernel))⟩

/-- B commits its entry of term 2 at index 1 on A's answer to an empty heartbeat. A holds an
entry of term 1 there, is elected for term 3 with C's vote, and sends it to B. -/
def undoneCommit : List Action :=
  [.startElection "A", .deliver 1, .deliver 1, .propose "A" .noop, .startElection "B",
    .deliver 5, .deliver 6, .propose "B" (.delete (.pushStr 256 "k")), .deliver 5, .deliver 6,
    .deliver 9, .startElection "A", .deliver 9, .deliver 10, .deliver 11, .deliver 11,
    .sendHeartbeats "A"]

/-- A node can replace an entry at its commit index, with no envelope duplicated, no restart
and one leader per term. -/
theorem not_commitKept : ¬ ∀ (m : Membership) (tr : List Cluster) (c c' : Cluster) (a : Action),
    m.Run (fun _ a => a.isLossy = true) (c :: tr) → a.isLossy = true → m.step c a = some c' →
    m.OneLeaderPerTerm (c' :: c :: tr) → CommitKept m c a c' := by
  intro h
  have hrun : Membership.three.Run (fun _ a => a.isLossy = true)
      (Membership.three.final (fun _ a => a.isLossy = true) undoneCommit ::
        (Membership.three.trace (fun _ a => a.isLossy = true) undoneCommit).tail) :=
    Lib.run_final (by decide +kernel)
  have hkept := h _ _ _ _ (.deliver 12) hrun rfl (Lib.step_next (by decide +kernel))
    (by decide +kernel)
  -- What B holds at index 1, its commit index, before the step and after it.
  have hold : ((Membership.three.final (fun _ a => a.isLossy = true) undoneCommit).nodes
      "B").log.get 1 = some ⟨1, 2, .delete (.pushStr 256 "k")⟩ := by decide +kernel
  have hnew : ((Membership.three.next (Membership.three.final (fun _ a => a.isLossy = true)
      undoneCommit) (.deliver 12)).nodes "B").log.get 1 = some ⟨1, 1, .noop⟩ := by
    decide +kernel
  obtain ⟨e', he', hterm, -⟩ := hkept.entries "B" (by decide) 1 (by decide +kernel) _ hold
  rw [hnew] at he'
  obtain rfl := Option.some.inj he'
  exact absurd hterm (by decide)

end RaftEbpf
