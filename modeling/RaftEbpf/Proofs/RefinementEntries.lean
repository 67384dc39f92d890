import RaftEbpf.Proofs.CommitScan
import RaftEbpf.Proofs.Refinement

/-!
# `RaftEbpf.Proofs.RefinementEntries`: replication is a number of protocol steps

`handle_append_entries` moves the node to the term of the request, adopts the sender's log
up to the last entry sent (`AcceptedLog`), and acknowledges what it shares with it.
`handle_append_entries_response` records an acknowledgement, and
`try_advance_commit_index` commits what a majority acknowledged (`NodeRel.committed`).

Two conditions enter here. The commit index a request raises must be `Vouched` for, and a
recorded success must be `Recordable`.
-/

set_option autoImplicit false

namespace RaftEbpf

open RaftEbpf.Lib (HashMap Prog Majority)
open RaftEbpf.Lib.Replication
open RaftNode

/-! ### What a request does to the log -/

section Logs
variable {m : Membership} {f : Tracks} {s : Past} {id : String} {n origin : RaftNode}
  {req : AppendEntriesRequest}

/-- Anchored logs with entries of one term at an index agree up to the index. -/
theorem take_eq_of_termAt {log log' : RaftLog} {l l' : List LogEntry} (h : log.Holds l)
    (h' : log'.Holds l') (hl : Anchored s l) (hl' : Anchored s l') {c : Nat} (hc : c ≤ l.length)
    (hsame : log.termAt c = log'.termAt c) : l.take c = l'.take c := by
  rcases Nat.eq_zero_or_pos c with h0 | hpos
  · simp [h0]
  · rw [RaftLog.termAt, RaftLog.termAt, h.get, h'.get, if_neg (Nat.pos_iff_ne_zero.mp hpos),
      if_neg (Nat.pos_iff_ne_zero.mp hpos),
      List.getElem?_eq_getElem (show c - 1 < l.length by omega)] at hsame
    cases he : l'[c - 1]? with
    | none =>
        rw [he] at hsame
        cases hsame
    | some e =>
        rw [he] at hsame
        have heq := take_eq_take hl hl' (List.getElem?_eq_getElem (by omega)) he
          (Option.some.inj hsame)
        rwa [Nat.sub_add_cancel hpos] at heq

/-- The consistency check passes exactly where both lists agree up to the previous entry. -/
theorem NodeRel.take_prev (h : NodeRel m f s id n) (hinv : Inv s) {O : List LogEntry}
    (hO : Anchored s O)
    (hprev : 0 < req.prevLogIndex →
      req.prevLogTerm = ((O[req.prevLogIndex - 1]?).map (·.term)).getD 0)
    (hm : ¬ Mismatch n req) :
    req.prevLogIndex ≤ (s.log id).length ∧
      (s.log id).take req.prevLogIndex = O.take req.prevLogIndex := by
  rcases h.log.prev_of_not_mismatch hm with h0 | ⟨k, d, hk, hd, hdt⟩
  · rw [h0]
    exact ⟨Nat.zero_le _, by simp⟩
  · have hlt := (List.getElem?_eq_some_iff.mp hd).1
    rw [hk] at hprev ⊢
    refine ⟨hlt, ?_⟩
    have hterm := hprev k.succ_pos
    rw [Nat.add_sub_cancel] at hterm
    cases hOl : O[k]? with
    | none =>
        -- A previous term of 0 is no entry's term.
        have := term_pos hinv (hinv.anchored id) hd
        rw [hdt, hterm, hOl] at this
        simp at this
    | some e =>
        have hde : d.term = e.term := by
          rw [hdt, hterm, hOl]
          rfl
        exact take_eq_take (hinv.anchored id) hO hd hOl hde

/-- The log after a request agrees with the sender's list up to the index reached, where the
log as it stood is only trusted as far as it is the sender's. -/
theorem take_overwrite {l O P : List LogEntry} (hP : P <+: O) {c : Nat}
    (hkept : P <+: l → c ≤ P.length ∨ l.take c = O.take c) : (overwrite l P).take c <+: O := by
  unfold overwrite
  split
  · rename_i hPl
    rcases hkept hPl with hle | heq
    · have hlen : (l.take c).length ≤ P.length := (List.length_take_le c l).trans hle
      exact (List.prefix_of_prefix_length_le (List.take_prefix c l) hPl hlen).trans hP
    · rw [heq]
      exact List.take_prefix c O
  · exact (List.take_prefix c P).trans hP

/-- Where the log already has all entries of a request, none of them conflicts. -/
theorem not_conflicts_of_kept {log : RaftLog} {l O es : List LogEntry} {prev : Nat}
    (hl : log.Holds l) (hO : Numbered O) (hes : es <+: O.drop prev)
    (hpre : O.take (prev + es.length) <+: l) : ¬ Cluster.Conflicts log es := by
  rintro ⟨e, he, -, hne⟩
  obtain ⟨j, hj, rfl⟩ := List.getElem_of_mem he
  have hidx := hO.numberedFrom hes j _ (List.getElem?_eq_getElem hj)
  have hOj : O[prev + j]? = some es[j] := by
    rw [← List.getElem?_drop]
    exact List.prefix_iff_getElem?.mp hes j hj
  have htake : (O.take (prev + es.length))[prev + j]? = some es[j] := by
    rw [List.getElem?_take_of_lt (by omega), hOj]
  obtain ⟨hlt, hget⟩ := List.getElem?_eq_some_iff.mp htake
  have hlj := List.prefix_iff_getElem?.mp hpre (prev + j) hlt
  rw [hget] at hlj
  exact hne (by rw [RaftLog.termAt, hidx, hl.get_succ, hlj]; rfl)

/-- The part of the sender's list `O` that a request brings a node to. -/
abbrev reach (req : AppendEntriesRequest) (O : List LogEntry) : List LogEntry :=
  O.take (req.prevLogIndex + req.entries.toVec.length)

/-- The entries of a request in flight continue the sender's list `O` from the previous
entry, and an accepting node's log takes over that list up to the last of them. -/
structure AcceptedLog (s : Past) (id : String) (n origin : RaftNode)
    (req : AppendEntriesRequest) (O : List LogEntry) : Prop where
  origin : origin.log.Holds O
  anchored : Anchored s O
  llog : O <+: s.llog req.term
  entries : req.entries.toVec <+: O.drop req.prevLogIndex
  covered : (reach req O).length = req.prevLogIndex + req.entries.toVec.length
  log : (accepted n req).log.Holds (overwrite (s.log id) (reach req O))

theorem NodeRel.acceptedLog (h : NodeRel m f s id n) (hinv : Inv s) {sender : String}
    (hreq : AppendRel m f s sender origin req) (hm : ¬ Mismatch n req) :
    ∃ O, AcceptedLog s id n origin req O ∧
      (f.commits → CommittedIn m s req.term O req.leaderCommit) := by
  obtain ⟨O, hO, -, hOpre, hes, hprev, hOc⟩ := hreq
  have hOanch : Anchored s O := (hinv.llogAnchored _).shorten hOpre
  obtain ⟨hple, htake⟩ := h.take_prev hinv hOanch hprev hm
  have hespre : req.entries.toVec <+: O.drop req.prevLogIndex := by
    rw [hes]
    exact List.take_prefix _ _
  have hfol : (followed n req).log.Holds (s.log id) := by
    show (RaftNode.raiseTerm n req.term).log.Holds _
    unfold RaftNode.raiseTerm
    split
    · exact h.log.setCurrentTerm _
    · exact h.log
  refine ⟨O, ⟨hO, hOanch, hOpre, hespre, ?_, ?_⟩, hOc⟩
  · have h1 := hespre.length_le
    have h2 := congrArg List.length htake
    rw [List.length_drop] at h1
    rw [List.length_take, List.length_take] at h2
    rw [List.length_take]
    omega
  · exact storeEntries_holds hfol hO.numbered hespre hple htake
      (fun j d e hd he hde => take_eq_take (hinv.anchored id) hOanch hd he hde)

/-- The index a request commits is covered by the request, or the request cuts the log, or
the node has there what the sender has. -/
def Vouched (n origin : RaftNode) (req : AppendEntriesRequest) : Prop :=
  min req.leaderCommit n.log.lastIndex ≤ req.prevLogIndex + req.entries.toVec.length ∨
  Cluster.Conflicts n.log req.entries.toVec ∨
  n.log.termAt (min req.leaderCommit n.log.lastIndex)
    = origin.log.termAt (min req.leaderCommit n.log.lastIndex)

/-- Where an accepted request raises the commit index, and the index reached is vouched
for, the log up to it is the sender's. -/
theorem AcceptedLog.commit {O : List LogEntry} (ha : AcceptedLog s id n origin req O)
    (h : NodeRel m f s id n) (hinv : Inv s) (hraise : n.commitIndex < req.leaderCommit)
    (hsound : Vouched n origin req) :
    (accepted n req).commitIndex
        = min req.leaderCommit (overwrite (s.log id) (reach req O)).length ∧
      (overwrite (s.log id) (reach req O)).take (accepted n req).commitIndex <+: O := by
  have hcom : (accepted n req).commitIndex
      = min req.leaderCommit (overwrite (s.log id) (reach req O)).length := by
    rw [← ha.log.lastIndex]
    exact if_pos hraise
  refine ⟨hcom, ?_⟩
  rw [hcom]
  -- A log that was overwritten is the sender's; one that was kept is the node's own.
  refine take_overwrite (List.take_prefix _ _) fun hkept => ?_
  rw [overwrite, if_pos hkept, ha.covered]
  rw [Vouched, h.log.lastIndex] at hsound
  rcases hsound with hcov | hconf | hsame
  · exact Or.inl hcov
  · exact absurd hconf (not_conflicts_of_kept h.log ha.origin.numbered ha.entries hkept)
  · right
    exact take_eq_of_termAt h.log ha.origin (hinv.anchored id) ha.anchored
      (Nat.min_le_right _ _) hsame

end Logs

/-! ### A request is accepted -/

section Accept
variable {m : Membership} {f : Tracks} {s s' : Past} {id : String} {n origin : RaftNode}
  {req : AppendEntriesRequest} {O : List LogEntry}

/-- What the node knows to be committed after it accepted a request: what it knew before, or
what the sender knew of a list that both now share. -/
theorem AcceptedLog.committedIn (ha : AcceptedLog s id n origin req O) (h : NodeRel m f s id n)
    (hs : Setting m f s id) (hs' : Setting m f s' id) (hsteps : Steps id s s')
    (hterm : s'.term id = req.term) (hlog : s'.log id = overwrite (s.log id) (reach req O))
    (hOc : f.commits → CommittedIn m s req.term O req.leaderCommit)
    (hsound : f.commits → n.commitIndex < req.leaderCommit → Vouched n origin req)
    (hc : f.commits) :
    CommittedIn m s' (s'.term id) (s'.log id) (accepted n req).commitIndex := by
  have hg := Steps.grows hsteps hs.inv
  by_cases hraise : n.commitIndex < req.leaderCommit
  · obtain ⟨hceq, hcpre⟩ := ha.commit h hs.inv hraise (hsound hc hraise)
    rw [← hlog] at hceq hcpre
    rcases hOc hc with h0 | ⟨u, P, hP, hu, hlen, hpre⟩
    · omega
    · refine Or.inr ⟨u, P, hP.grows hg, by omega, by omega, ?_⟩
      -- Both are prefixes of the sender's list.
      have hPO : P.take (accepted n req).commitIndex <+: O :=
        (List.take_prefix_take_left (by omega)).trans hpre
      refine (List.prefix_of_prefix_length_le hPO hcpre ?_).trans (List.take_prefix _ _)
      rw [List.length_take, List.length_take]
      omega
  · have hceq : (accepted n req).commitIndex = n.commitIndex := if_neg hraise
    rw [hceq]
    exact Steps.committedAt hsteps hs.inv hs.ackInv (hs'.quorate (hs.commits_votes hc))
      (h.commit hc)

/-- A node that got as far as the term of a request and then adopted a prefix `P` is the
node that accepted the request. -/
theorem NodeRel.accepted {P : List LogEntry} (h : NodeRel m f s id (RaftNode.raiseTerm n req.term))
    (ha : Adopted id P s s') (hother : s.leader (s.term id) ≠ some id)
    (hlog : (RaftNode.accepted n req).log.Holds (s'.log id))
    (hcommit : f.commits →
      CommittedIn m s' (s'.term id) (s'.log id) (RaftNode.accepted n req).commitIndex) :
    NodeRel m f s' id (RaftNode.accepted n req) := by
  have hps : (RaftNode.accepted n req).log.persistentState
      = (RaftNode.raiseTerm n req.term).log.persistentState := storeEntries_persistentState _ _
  have hrole : (RaftNode.accepted n req).role ≠ .leader := fun hr => hother (h.leader hr)
  exact {
    nodeId := h.nodeId
    peers := h.peers
    log := hlog
    term := by
      show (RaftNode.accepted n req).log.persistentState.currentTerm = s'.term id
      rw [hps, ha.term]
      exact h.term
    vote := by
      show (RaftNode.accepted n req).log.persistentState.votedFor.map (·.asStr)
        = s'.vote id (s'.term id)
      rw [hps, ha.term, ha.vote]
      exact h.vote
    leader := fun hr => absurd hr hrole
    candidate := fun hr => by
      rw [ha.term, ha.cand, ha.leader]
      exact h.candidate hr
    matchKeys := h.matchKeys
    matched := fun _ hr => absurd hr hrole
    commit := hcommit }

/-- The success a node sends acknowledges what its log shares with the leader's. -/
theorem ackRel_of_adopted {P : List LogEntry} {cause : Option RaftMessage} (ha : Adopted id P s s')
    (hinv : Inv s') (hterm : s.term id = req.term) (hcause : cause = some (.appendEntries req))
    (hled : s.leader req.term ≠ none) (hlog : n.log.Holds (s'.log id)) {term : Nat} :
    AckRel s' id cause n
      ⟨term, true, n.log.lastIndex, .pushStr 64 n.nodeId⟩ := by
  intro _
  refine ⟨req, s'.log id, hcause, hlog, hlog.lastIndex, hinv.anchored id, ?_, ?_⟩
  · rw [ha.leader]
    exact hled
  · intro k hk hpre
    rw [ha.llog] at hpre
    have hlen : ((s'.log id).take k).length = k := by
      rw [List.length_take]
      omega
    have hkt : (s.llog req.term).take k = (s'.log id).take k := by
      have := List.prefix_iff_eq_take.mp hpre
      rw [hlen] at this
      exact this.symm
    rw [← hterm] at hpre hkt ⊢
    refine ha.acked k ?_ ?_
    · have := hpre.length_le
      omega
    · rw [hkt]
      exact List.take_prefix k _

/-- Entries that a node applies after it accepted a request are committed. -/
theorem NodeRel.applies {n' : RaftNode} {out : List Output}
    (h : NodeRel m f s id n) (happ : Applies n n' out) (hc : f.commits) {i : Nat} {e : LogEntry}
    (he : .applied i e ∈ out) : AppliedRel m s i e := by
  obtain ⟨j, d, heq, hget, -, hle⟩ := happ.outputs _ he
  obtain ⟨rfl, rfl⟩ := Output.applied.inj heq
  rw [h.log.get] at hget
  split at hget
  · cases hget
  · exact (h.commit hc).applied (by omega) hle hget

end Accept

/-! ### The handlers -/

section Handlers
variable {m : Membership} {f : Tracks} {s : Past} {id : String} {n origin : RaftNode}
  {cause : Option RaftMessage} {sender : String}

/-- `handle_append_entries` of a request that passes both checks. -/
theorem NodeRel.acceptEntries (h : NodeRel m f s id n) (hs : Setting m f s id)
    {req : AppendEntriesRequest} (hmem : sender ∈ m.ids) (hne : sender ≠ id)
    (hreq : AppendRel m f s sender origin req) (hcause : cause = some (.appendEntries req))
    (hold : ¬ req.term < n.log.currentTerm) (hm : ¬ Mismatch n req)
    (hsound : f.commits → n.commitIndex < req.leaderCommit → Vouched n origin req) :
    ∃ s', Refines m f s s' id cause ((handleAppendEntries sender req).run [] n) := by
  obtain ⟨n', out, hrun, happ⟩ := run_handleAppendEntries_accept n sender req hold hm
  rw [hrun]
  have hled : s.leader req.term = some sender := by
    obtain ⟨-, -, hled, -⟩ := hreq
    exact hled
  obtain ⟨O, ha, hOc⟩ := h.acceptedLog hs.inv hreq hm
  -- The node moves to the term of the request.
  obtain ⟨s₁, hreach, h₁⟩ := h.raiseTerm hs hold
  have hled₁ : s₁.leader (s₁.term id) = some sender := by rw [hreach.term, hreach.leader, hled]
  -- It takes over the prefix and acknowledges.
  have hP : reach req O <+: s₁.llog (s₁.term id) := by
    rw [hreach.term, hreach.llog]
    exact (List.take_prefix _ _).trans ha.llog
  obtain ⟨s₂, hadopt⟩ : ∃ s₂, Adopted id (reach req O) s₁ s₂ := ⟨_, .of_led hled₁ hne hP⟩
  have hsteps : Steps id s s₂ := hreach.steps.trans hadopt.steps
  have hlead : s₂.leader = s.leader := hadopt.leader.trans hreach.leader
  have hs₂ := hs.steps hsteps hlead (hadopt.voters.trans hreach.voters)
  have hterm : s₂.term id = req.term := hadopt.term.trans hreach.term
  have hlog : s₂.log id = overwrite (s.log id) (reach req O) := by
    rw [hadopt.log, hreach.log]
  have hother : s₁.leader (s₁.term id) ≠ some id := by
    rw [hled₁]
    exact fun he => hne (Option.some.inj he)
  have hacc : NodeRel m f s₂ id (RaftNode.accepted n req) :=
    h₁.accepted hadopt hother (hlog ▸ ha.log)
      (ha.committedIn h hs hs₂ hsteps hterm hlog hOc hsound)
  have hnode : NodeRel m f s₂ id n' := by
    rw [happ.state]
    exact hacc.same rfl rfl rfl rfl rfl rfl
  refine ⟨s₂, ?_⟩
  exact {
    steps := hsteps
    node := hnode
    sent := fun env henv => by
      rcases List.mem_append.mp henv with henv | henv
      · obtain ⟨i, e, he, -⟩ := happ.outputs _ henv
        cases he
      · obtain rfl : env = _ := by simpa using henv
        refine MessageRel.packet ?_ hnode.nodeId hs.member hmem hne
        refine ackRel_of_adopted hadopt hs₂.inv hreach.term hcause ?_ hnode.log
        rw [hreach.leader, hled]
        exact Option.some_ne_none _
    applied := fun hc i e he => by
      rcases List.mem_append.mp he with he | he
      · exact hacc.applies happ hc he
      · simp at he
    won := fun t w hw => by
      rw [hlead] at hw
      exact Or.inl hw
    quorate := hs₂.quorate }

/-- `handle_append_entries`: a request is refused as old or as not matching the log, or it
is accepted. -/
theorem NodeRel.handleAppendEntries (h : NodeRel m f s id n) (hs : Setting m f s id)
    {req : AppendEntriesRequest} (hmem : sender ∈ m.ids) (hne : sender ≠ id)
    (hreq : AppendRel m f s sender origin req) (hcause : cause = some (.appendEntries req))
    (hsound : f.commits → n.log.currentTerm ≤ req.term → ¬ Mismatch n req →
      n.commitIndex < req.leaderCommit → Vouched n origin req) :
    ∃ s', Refines m f s s' id cause ((handleAppendEntries sender req).run [] n) := by
  by_cases hold : req.term < n.log.currentTerm
  · rw [run_handleAppendEntries_stale n sender req hold]
    exact ⟨s, h.answers hs .refl rfl (fun hsucc => by cases hsucc) hmem hne⟩
  · by_cases hm : Mismatch n req
    · rw [run_handleAppendEntries_mismatch n sender req hold hm]
      obtain ⟨s', hreach, h'⟩ := h.raiseTerm hs hold
      have hfol : NodeRel m f s' id (followed n req) := h'.same rfl rfl rfl rfl rfl rfl
      exact ⟨s', hfol.answers (hs.reached hreach) hreach.steps hreach.leader
        (fun hsucc => by cases hsucc) hmem hne⟩
    · exact h.acceptEntries hs hmem hne hreq hcause hold hm
        (fun hc => hsound hc (Nat.le_of_not_lt hold) hm)

/-- The index a leader commits is committed: the leader and the peers it counts
acknowledged it, and the entry there is of its own term. -/
theorem NodeRel.committed (h : NodeRel m f s id n) (hs : Setting m f s id)
    (hr : n.role = .leader) (ha : f.acks) {k : Nat} (hk : n.Committable k) :
    Committed m.ids (s.ack id) (s.term id) ((s.log id).take k) ∧ k ≤ (s.log id).length := by
  obtain ⟨-, -, hterm, hcount⟩ := hk
  have hled := h.leader hr
  have hllog := h.leads_log hs.inv hr
  rw [RaftLog.termAt, h.log.get] at hterm
  have hpos : 0 < k := by
    by_contra h0
    rw [if_pos (by omega)] at hterm
    cases hterm
  rw [if_neg (by omega)] at hterm
  obtain ⟨e, he, het⟩ : ∃ e, (s.log id)[k - 1]? = some e ∧ e.term = n.log.currentTerm := by
    simpa using hterm
  obtain ⟨hlt, hget⟩ := List.getElem?_eq_some_iff.mp he
  have hkl : k ≤ (s.log id).length := by omega
  -- The leader holds its own log.
  have hself : (s.ack id).acked (s.term id) id k := by
    refine Or.inr ⟨rfl, rfl, ?_, ?_⟩
    · rw [← hllog]
      exact hkl
    · rw [← hllog]
      exact List.take_prefix _ _
  refine ⟨?_, hkl⟩
  exact {
    led := by
      show s.leader (s.term id) ≠ none
      rw [hled]
      exact Option.some_ne_none _
    pre := by
      show (s.log id).take k <+: s.llog (s.term id)
      rw [← hllog]
      exact List.take_prefix _ _
    last := by
      refine ⟨(s.log id).take (k - 1), e, ?_, het.trans h.term⟩
      rw [← hget, ← List.take_succ_eq_append_getElem hlt, Nat.sub_add_cancel hpos]
    acked := by
      rw [List.length_take, Nat.min_eq_left hkl]
      -- The majority: the leader and the peers whose match index reaches `k`.
      refine ⟨id :: HashMap.keysWith (fun idx => decide (k ≤ idx)) n.matchIndex, ?_, ?_, ?_⟩
      · refine List.nodup_cons.mpr ⟨?_, HashMap.nodup_keysWith _ _⟩
        intro hmem
        obtain ⟨v, hv, -⟩ := (HashMap.mem_keysWith _ _ _).mp hmem
        exact (h.matchKeys id v hv).2 rfl
      · intro v hv
        rcases List.mem_cons.mp hv with rfl | hv
        · exact ⟨hs.member, hself⟩
        · obtain ⟨j, hj, hkj⟩ := (HashMap.mem_keysWith _ _ _).mp hv
          refine ⟨(h.matchKeys v j hj).1, Or.inl ?_⟩
          rcases h.matched ha hr v j hj with h0 | hacked
          · have : k ≤ j := by simpa using hkj
            omega
          · exact hs.ackInv.down _ _ _ _ hacked (by simpa using hkj)
      · rw [List.length_cons, ← HashMap.countValues_eq_length]
        rw [h.peers, majority_peersOf hs.member] at hcount
        omega }

/-- `try_advance_commit_index`, of any related node. -/
theorem NodeRel.tryAdvanceCommitIndex (h : NodeRel m f s id n) (hs : Setting m f s id) :
    ∃ s', Refines m f s s' id cause (tryAdvanceCommitIndex.run [] n) := by
  rcases run_tryAdvanceCommitIndex [] n with ⟨hrun, -⟩ | ⟨k, n', out, hr, hk, hrun, hc⟩
  · rw [hrun]
    exact ⟨s, h.idle hs (by simp) (by simp)⟩
  · rw [hrun]
    have hled := h.leader hr
    have hstep : Step id s (s.ack id) := by
      refine .ack ?_
      rw [hled]
      exact Option.some_ne_none _
    have hcom : f.commits → CommittedIn m (s.ack id) (s.term id) (s.log id) k := by
      intro hfc
      obtain ⟨hP, hkl⟩ := h.committed hs hr (hs.commits_acks hfc) (findCommit_eq_some_iff.mp hk).1
      refine Or.inr ⟨_, _, hP, le_rfl, ?_, ?_⟩
      · rw [List.length_take]
        omega
      · exact (List.take_prefix _ _).trans (List.take_prefix _ _)
    refine ⟨s.ack id, ?_⟩
    exact {
      steps := .single hstep
      node := by
        rw [hc.state]
        exact { h with
          matched := fun ha hr p j hj =>
            (h.matched ha hr p j hj).imp_right ((hstep.grows hs.inv).acked _ _ _)
          commit := hcom }
      sent := fun env henv => by
        rcases hc.outputs _ henv with ⟨i, e, he, -⟩ | ⟨idx, tx, he, -⟩
        · cases he
        · cases he
      applied := fun hfc i e he => by
        rcases hc.outputs _ he with ⟨j, d, heq, hget, hle⟩ | ⟨idx, tx, heq, -⟩
        · obtain ⟨rfl, rfl⟩ := Output.applied.inj heq
          rw [h.log.get] at hget
          split at hget
          · cases hget
          · exact (hcom hfc).applied (by omega) hle hget
        · cases heq
      won := fun _ _ hw => Or.inl hw
      quorate := hs.quorate }

/-- A success that may be recorded answers a request of the leader's term, and names an index
where the leader has the sender's last entry. -/
def Recordable (cause : Option RaftMessage) (n origin : RaftNode) (resp : AppendEntriesResponse) :
    Prop :=
  Cluster.Answers cause n.log.currentTerm ∧
  n.log.termAt resp.lastLogIndex = origin.log.termAt resp.lastLogIndex

/-- What a recordable success says is what the sender acknowledged to this leader. -/
theorem NodeRel.acked_of_recordable (h : NodeRel m f s id n) (hinv : Inv s)
    (hr : n.role = .leader) {resp : AppendEntriesResponse} {c₀ : Option RaftMessage}
    (hrel : AckRel s sender c₀ origin resp) (hsucc : resp.success = true)
    (hrec : Recordable c₀ n origin resp) : s.acked (s.term id) sender resp.lastLogIndex := by
  obtain ⟨req, O, hcause, hO, hlast, hanch, -, hall⟩ := hrel hsucc
  obtain ⟨hterm, hat⟩ := hrec
  rw [hcause] at hterm
  have hreq : req.term = s.term id := by
    rw [← h.term]
    exact hterm
  have htake : O.take resp.lastLogIndex = (s.log id).take resp.lastLogIndex :=
    take_eq_of_termAt hO h.log hanch (hinv.anchored id) hlast.le hat.symm
  rw [← hreq]
  refine hall _ hlast.le ?_
  rw [htake, hreq, ← h.leads_log hinv hr]
  exact List.take_prefix _ _

/-- The leader after it recorded a success. -/
theorem NodeRel.acknowledged (h : NodeRel m f s id n) {resp : AppendEntriesResponse}
    (hmem : sender ∈ m.ids) (hne : sender ≠ id)
    (hacked : f.acks → s.acked (s.term id) sender resp.lastLogIndex) :
    NodeRel m f s id (acknowledged n sender resp.lastLogIndex) :=
  { h with
    matchKeys := fun p k hk => by
      by_cases hp : p = sender
      · rw [hp]
        exact ⟨hmem, hne⟩
      · rw [RaftNode.acknowledged, AList.lookup_insert_ne hp] at hk
        exact h.matchKeys p k hk
    matched := fun ha hr p k hk => by
      by_cases hp : p = sender
      · subst hp
        simp only [RaftNode.acknowledged, AList.lookup_insert, Option.some.injEq] at hk
        rw [← hk]
        exact Or.inr (hacked ha)
      · rw [RaftNode.acknowledged, AList.lookup_insert_ne hp] at hk
        exact h.matched ha hr p k hk }

/-- The next indexes are no part of the relation. -/
theorem NodeRel.backedOff (h : NodeRel m f s id n) (sender : String) :
    NodeRel m f s id (backedOff n sender) := by
  unfold RaftNode.backedOff
  split
  · exact h.same rfl rfl rfl rfl rfl rfl
  · exact h

/-- `handle_append_entries_response`. Where acknowledgements are tracked, a success must be
recordable. -/
theorem NodeRel.handleAppendEntriesResponse (h : NodeRel m f s id n) (hs : Setting m f s id)
    {resp : AppendEntriesResponse} {c₀ : Option RaftMessage} (hmem : sender ∈ m.ids)
    (hne : sender ≠ id) (hrel : AckRel s sender c₀ origin resp)
    (hsound : f.acks → n.role = .leader → resp.term ≤ n.log.currentTerm → resp.success = true →
      Recordable c₀ n origin resp) :
    ∃ s', Refines m f s s' id cause ((handleAppendEntriesResponse sender resp).run [] n) := by
  rw [run_handleAppendEntriesResponse]
  by_cases hr : n.role = .leader
  · rw [if_neg (not_not.mpr hr)]
    by_cases ht : resp.term > n.log.currentTerm
    · rw [if_pos ht]
      exact h.stepDown hs ht
    · rw [if_neg ht]
      by_cases hsucc : resp.success = true
      · rw [if_pos hsucc]
        have hnode := h.acknowledged hmem hne fun ha =>
          h.acked_of_recordable hs.inv hr hrel hsucc (hsound ha hr (Nat.le_of_not_lt ht) hsucc)
        exact hnode.tryAdvanceCommitIndex hs
      · rw [if_neg hsucc]
        exact ⟨s, (h.backedOff sender).idle hs (by simp) (by simp)⟩
  · rw [if_pos hr]
    exact ⟨s, h.idle hs (by simp) (by simp)⟩

end Handlers

end RaftEbpf
