import RaftEbpf.Proofs.MatchIndex

/-!
# `RaftEbpf.Proofs.FollowerCommit`: when a follower commits only what the leader has

A follower bounds `leader_commit` by the last index of its own log, not by the last entry
the request covered.

* `not_followerCommitSound`: a follower with an entry left over from an older leader commits
  that entry on an empty heartbeat.
* `followerCommitSound_of_commitSound`: where the index reached is covered by the request,
  or the request cuts the log, or the node's entry there is the sender's, the commit is one
  of the sender's entries.
-/

set_option autoImplicit false

namespace RaftEbpf

open RaftEbpf.Lib.Replication
open RaftNode

/-- Where the step hands an AppendEntries request to a node that raises its commit index,
each entry up to the new commit index is the one that the sender's log held when it sent
the request. -/
def FollowerCommitSound (c : Cluster) (a : Action) (c' : Cluster) : Prop :=
  match c.arriving a with
  | some p =>
      match p.envelope.message with
      | .appendEntries _ =>
          let n := c.nodes p.envelope.recipient.asStr
          let n' := c'.nodes p.envelope.recipient.asStr
          n.commitIndex < n'.commitIndex → ∀ i ≤ n'.commitIndex, 1 ≤ i →
            n'.log.get i ≠ none ∧ n'.log.get i = p.origin.log.get i
      | _ => True
  | none => True

instance (c : Cluster) (a : Action) (c' : Cluster) : Decidable (FollowerCommitSound c a c') := by
  unfold FollowerCommitSound
  exact match c.arriving a with
    | some ⟨⟨_, _, message⟩, _, _⟩ =>
        match message with
        | .appendEntries _ | .appendEntriesResponse _ | .requestVote _ | .requestVoteResponse _
        | .clientRequest _ | .clientResponse _ => inferInstance
    | none => inferInstance

/-- A node that raises its commit index on a request has accepted it. -/
theorem commitIndex_handleAppendEntries {n : RaftNode} {sender : String}
    {req : AppendEntriesRequest} (h : n.commitIndex
      < ((handleAppendEntries sender req).run [] n).state.commitIndex) :
    ¬ req.term < n.log.currentTerm ∧ ¬ Mismatch n req ∧ n.commitIndex < req.leaderCommit ∧
      ((handleAppendEntries sender req).run [] n).state.log = (accepted n req).log ∧
      ((handleAppendEntries sender req).run [] n).state.commitIndex
        = (accepted n req).commitIndex := by
  rcases run_handleAppendEntries_cases n sender req with
    ⟨hold, hrun⟩ | ⟨hold, hm, hrun⟩ | ⟨hold, hm, n', out, hrun, happ⟩
  · rw [hrun] at h
    exact absurd h (lt_irrefl _)
  · rw [hrun] at h
    have hcom : (followed n req).commitIndex = n.commitIndex := raiseTerm_commitIndex n req.term
    exact absurd h (by simp [hcom])
  · rw [hrun] at h ⊢
    have hcom : n'.commitIndex = (accepted n req).commitIndex := by rw [happ.state]
    refine ⟨hold, hm, ?_, by rw [happ.state], hcom⟩
    by_contra hle
    have hsame : (accepted n req).commitIndex = n.commitIndex := if_neg hle
    rw [hcom, hsame] at h
    exact lt_irrefl _ h

/-- The relation to the protocol makes a vouched commit one of the sender's entries. -/
theorem Sim.followerCommitSound {m : Membership} {f : Tracks} {tr : List Cluster}
    {c c' : Cluster} {s : Past} {a : Action} (h : Sim m f tr c s) (hok : c.CommitSound a)
    (hstep : m.step c a = some c') : FollowerCommitSound c a c' := by
  rw [FollowerCommitSound]
  cases Membership.moves_of_step hstep with
  | @deliver k p hp hid =>
      simp only [Cluster.CommitSound, Cluster.arriving, hp] at hok ⊢
      split
      · rename_i req hmsg
        intro hraise i hic hi
        have hpr := h.packets p (List.mem_of_getElem? hp)
        have hn := h.nodes _ hid
        simp only [hmsg] at hok
        simp only [Cluster.runAt, Function.update_self, handleMessage, hmsg] at hraise hic ⊢
        -- The request was accepted, so the log is the sender's up to the commit index.
        obtain ⟨hold, hm, hlt, hlog, hcom⟩ := commitIndex_handleAppendEntries hraise
        obtain ⟨O, ha, -⟩ := hn.acceptedLog h.inv (hpr.append req hmsg) hm
        obtain ⟨hceq, hcpre⟩ := ha.commit hn h.inv hlt (hok (Nat.le_of_not_lt hold) hm hlt)
        rw [hcom] at hic
        rw [hlog]
        obtain ⟨e, he, he'⟩ := exists_get_of_prefix ha.log ha.origin (by omega) hcpre hi hic
        exact ⟨by rw [he]; exact Option.some_ne_none e, he.trans he'.symm⟩
      · trivial
  | _ => trivial

/-- In every run of short counters without two leaders of one term, a follower whose step is
`CommitSound` commits only entries of the leader that sent the request. -/
theorem followerCommitSound_of_commitSound {m : Membership} {tr : List Cluster}
    {c c' : Cluster} {a : Action} (hrun : m.Run Cluster.Short (c :: tr))
    (hok : c.CommitSound a) (hstep : m.step c a = some c')
    (hone : m.OneLeaderPerTerm (c' :: c :: tr)) : FollowerCommitSound c a c' := by
  have hone' : m.OneLeaderPerTerm (c :: tr) :=
    hone.of_subset fun _ h => List.mem_cons_of_mem _ h
  obtain ⟨c₁, rest, s, heq, hsim⟩ :=
    run_simulated (sound_of_short fun _ _ h => h) hrun (Or.inr hone')
  obtain ⟨rfl, rfl⟩ := List.cons.inj heq
  exact hsim.followerCommitSound hok hstep

/-- Three nodes: B acknowledged entry 1, A committed it, and B commits it on the next
heartbeat. -/
theorem followerCommitSound_of_commitSound_three :
    let as : List Action := [.startElection "A", .deliver 0, .deliver 1, .propose "A" .noop,
      .deliver 4, .deliver 4, .sendHeartbeats "A"]
    let c := Membership.three.final Cluster.Short as
    (c.nodes "B").commitIndex < ((Membership.three.next c (.deliver 5)).nodes "B").commitIndex ∧
      FollowerCommitSound c (.deliver 5) (Membership.three.next c (.deliver 5)) :=
  ⟨by decide +kernel,
    followerCommitSound_of_commitSound (Lib.run_final (by decide +kernel))
      (by decide +kernel) (Lib.step_next (by decide +kernel)) (by decide +kernel)⟩

/-- A has three entries of term 1 that no one else has. B leads term 2, takes A's answer for
an acknowledgement, and commits three entries that A does not have. C leads term 3 and
writes over the last two. B leads term 4 and tells C its commit index. -/
def unvouchedCommit : List Action :=
  [.startElection "A", .deliver 0, .deliver 1, .propose "A" .noop, .propose "A" .noop,
    .propose "A" .noop, .startElection "B", .startElection "B", .deliver 11, .deliver 12,
    .deliver 13, .propose "B" (.delete (.pushStr 256 "k")), .deliver 14,
    .propose "B" (.delete (.pushStr 256 "k")), .propose "B" (.delete (.pushStr 256 "k")),
    .deliver 13, .startElection "C", .deliver 20, .deliver 20, .propose "C" .noop, .deliver 22,
    .propose "C" .noop, .startElection "B", .deliver 27, .deliver 27]

/-- A follower can commit an entry that the leader's log does not have, with no envelope
duplicated, no restart and one leader per term. -/
theorem not_followerCommitSound : ¬ ∀ (m : Membership) (tr : List Cluster) (c c' : Cluster)
    (a : Action), m.Run (fun _ a => a.isLossy = true) (c :: tr) → a.isLossy = true →
    m.step c a = some c' → m.OneLeaderPerTerm (c' :: c :: tr) → FollowerCommitSound c a c' := by
  intro h
  have hrun : Membership.three.Run (fun _ a => a.isLossy = true)
      (Membership.three.final (fun _ a => a.isLossy = true) unvouchedCommit ::
        (Membership.three.trace (fun _ a => a.isLossy = true) unvouchedCommit).tail) :=
    Lib.run_final (by decide +kernel)
  have hsound := h _ _ _ _ (.deliver 27) hrun rfl (Lib.step_next (by decide +kernel))
    (by decide +kernel)
  exact absurd hsound (by decide +kernel)

end RaftEbpf
