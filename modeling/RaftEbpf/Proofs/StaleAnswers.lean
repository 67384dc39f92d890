import RaftEbpf.Conditions
import RaftEbpf.Proofs.CommitScan

/-!
# `RaftEbpf.Proofs.StaleAnswers`: answers to requests of an earlier term

The request handlers refuse a term below the current one. The response handlers compare the
term of a response from above only, and a response does not name its request. So an answer to
a request of an earlier term counts for the term the node is in.

* `staleIgnored_iff`: in every run, each such answer leaves the node as it is exactly if each
  of them finds the node where it has no effect (`Harmless`).
* `not_staleIgnored`: the vote of an earlier term makes a leader.
-/

set_option autoImplicit false

namespace RaftEbpf

open RaftEbpf.Lib (HashMap)
open RaftNode

/-- What a candidate or a leader knows of its term is as before. -/
structure RaftNode.Unaffected (n n' : RaftNode) : Prop where
  role : n'.role = n.role
  votesReceived : n'.votesReceived = n.votesReceived
  nextIndex : ∀ id, n'.nextIndex.lookup id = n.nextIndex.lookup id
  matchIndex : ∀ id, n'.matchIndex.lookup id = n.matchIndex.lookup id
  commitIndex : n'.commitIndex = n.commitIndex

/-- A response has no effect on the node. A grant is one that is counted already, with too few
votes for the threshold of the code. A success names the index that is recorded already, and
there is nothing else to commit. A refusal finds `next_index` at 1, or none. -/
def RaftNode.Harmless (n : RaftNode) (sender : String) : RaftMessage → Prop
  | .requestVoteResponse resp => n.role = .candidate → resp.voteGranted = true →
      sender ∈ n.votesReceived ∧ ¬ ReachesThreshold n
  | .appendEntriesResponse resp => n.role = .leader →
      if resp.success then
        n.matchIndex.lookup sender = some resp.lastLogIndex ∧
          n.nextIndex.lookup sender = some (addOne resp.lastLogIndex) ∧
          ∀ k, IsGreatest {k | n.Committable k} k → k = n.commitIndex
      else n.nextIndex.lookup sender = none ∨ n.nextIndex.lookup sender = some 1
  | _ => True

/-- An answer arrives to a request that the recipient sent in an earlier term. The term of the
answer is not above the current one. -/
def Cluster.StaleAnswer (c : Cluster) (a : Action) : Prop :=
  match c.arriving a with
  | some p =>
      let term := (c.nodes p.envelope.recipient.asStr).log.currentTerm
      match p.envelope.message, p.cause with
      | .requestVoteResponse resp, some (.requestVote req) => req.term < term ∧ resp.term ≤ term
      | .appendEntriesResponse resp, some (.appendEntries req) =>
          req.term < term ∧ resp.term ≤ term
      | _, _ => False
  | none => False

instance (c : Cluster) (a : Action) : Decidable (c.StaleAnswer a) := by
  unfold Cluster.StaleAnswer
  exact match c.arriving a with
    | some ⟨⟨_, _, message⟩, cause, _⟩ =>
        match message with
        | .appendEntriesResponse _ =>
            match cause with
            | some (.appendEntries _) => inferInstance
            | some (.appendEntriesResponse _) | some (.requestVote _)
            | some (.requestVoteResponse _) | some (.clientRequest _)
            | some (.clientResponse _) | none => inferInstance
        | .requestVoteResponse _ =>
            match cause with
            | some (.requestVote _) => inferInstance
            | some (.appendEntries _) | some (.appendEntriesResponse _)
            | some (.requestVoteResponse _) | some (.clientRequest _)
            | some (.clientResponse _) | none => inferInstance
        | .appendEntries _ | .requestVote _ | .clientRequest _ | .clientResponse _ => inferInstance
    | none => inferInstance

/-- The step leaves the node that a stale answer arrives at as it is. -/
def Cluster.IgnoresStale (c : Cluster) (a : Action) (c' : Cluster) : Prop :=
  c.StaleAnswer a → ∀ p, c.arriving a = some p →
    (c.nodes p.envelope.recipient.asStr).Unaffected (c'.nodes p.envelope.recipient.asStr)

/-- A stale answer finds the node where it has no effect. -/
def Cluster.StaleHarmless (c : Cluster) (a : Action) : Prop :=
  c.StaleAnswer a → ∀ p, c.arriving a = some p →
    (c.nodes p.envelope.recipient.asStr).Harmless p.envelope.sender.asStr p.envelope.message

section Handlers
variable {n : RaftNode} {sender : String}

theorem Unaffected.refl (n : RaftNode) : n.Unaffected n :=
  ⟨rfl, rfl, fun _ => rfl, fun _ => rfl, rfl⟩

/-- A value that is written again changes nothing, and only such a value. -/
theorem lookup_insert_eq_iff {m : HashMap String Nat} {v : Nat} :
    (∀ id, (m.insert sender v).lookup id = m.lookup id) ↔ m.lookup sender = some v := by
  constructor
  · intro h
    rw [← h sender, AList.lookup_insert]
  · intro h id
    by_cases hid : id = sender
    · rw [hid, AList.lookup_insert, h]
    · rw [AList.lookup_insert_ne hid]

theorem unaffected_handleRequestVoteResponse_iff {resp : RequestVoteResponse}
    (hterm : resp.term ≤ n.log.currentTerm) :
    n.Unaffected ((handleRequestVoteResponse sender resp).run [] n).state ↔
      n.Harmless sender (.requestVoteResponse resp) := by
  rw [run_handleRequestVoteResponse]
  split
  · rename_i hrole
    exact iff_of_true (Unaffected.refl n) fun hr => absurd hr hrole
  · rename_i hrole
    have hr : n.role = .candidate := not_not.mp hrole
    rw [if_neg (Nat.not_lt.mpr hterm)]
    split
    · rename_i hgrant
      by_cases hold : sender ∈ n.votesReceived
      · have hsame : counted n sender = n := if_pos hold
        rw [hsame]
        split
        · rename_i hreach
          refine iff_of_false (fun h => ?_) fun h => (h hr hgrant).2 hreach
          have := h.role
          rw [hr] at this
          cases this
        · rename_i hreach
          exact iff_of_true (Unaffected.refl n) fun _ _ => ⟨hold, hreach⟩
      · refine iff_of_false (fun h => ?_) fun h => hold (h hr hgrant).1
        have hvotes := h.votesReceived
        -- The sender is a new vote, whether it completes the threshold or not.
        have hnew : (counted n sender).votesReceived = n.votesReceived ++ [sender] := by
          rw [counted, if_neg hold]
        split at hvotes
        · rw [show (leaderOf (counted n sender)).votesReceived = _ from hnew] at hvotes
          simpa using congrArg List.length hvotes
        · rw [hnew] at hvotes
          simpa using congrArg List.length hvotes
    · rename_i hgrant
      exact iff_of_true (Unaffected.refl n) fun _ h => absurd h hgrant

/-- Recording a success and committing leaves the node as it is exactly if the success is
recorded already and nothing else can be committed. -/
theorem unaffected_acknowledged_iff {last : Nat} (hrole : n.role = .leader) :
    n.Unaffected (tryAdvanceCommitIndex.run [] (acknowledged n sender last)).state ↔
      n.matchIndex.lookup sender = some last ∧ n.nextIndex.lookup sender = some (addOne last) ∧
        ∀ k, IsGreatest {k | n.Committable k} k → k = n.commitIndex := by
  rw [← lookup_insert_eq_iff, ← lookup_insert_eq_iff]
  -- With the success recorded already, the scan is the one of the state before.
  have hscan : (∀ id, (n.matchIndex.insert sender last).lookup id = n.matchIndex.lookup id) →
      {k | (acknowledged n sender last).Committable k} = {k | n.Committable k} := by
    intro hmatch
    ext k
    exact committable_congr rfl rfl rfl hmatch
  rcases run_tryAdvanceCommitIndex_leader (n := acknowledged n sender last) hrole with
    ⟨k, n', out, hk, hrun, hc⟩ | ⟨hnone, hrun⟩
  · rw [hrun]
    show n.Unaffected n' ↔ _
    rw [hc.state]
    constructor
    · intro h
      refine ⟨h.matchIndex, h.nextIndex, fun k' hk' => ?_⟩
      rw [hscan h.matchIndex] at hk
      rw [le_antisymm (hk.2 hk'.1) (hk'.2 hk.1)]
      exact h.commitIndex
    · rintro ⟨hmatch, hnext, hgreatest⟩
      rw [hscan hmatch] at hk
      exact ⟨rfl, rfl, hnext, hmatch, hgreatest k hk⟩
  · rw [hrun]
    constructor
    · intro h
      refine ⟨h.matchIndex, h.nextIndex, fun k hk => ?_⟩
      have hmem : k ∈ {k | (acknowledged n sender last).Committable k} := by
        rw [hscan h.matchIndex]
        exact hk.1
      exact absurd hmem (hnone k)
    · rintro ⟨hmatch, hnext, -⟩
      exact ⟨rfl, rfl, hnext, hmatch, rfl⟩

/-- A refusal leaves the node as it is exactly where `next_index` is at 1, or absent. -/
theorem unaffected_backedOff_iff : n.Unaffected (backedOff n sender) ↔
    n.nextIndex.lookup sender = none ∨ n.nextIndex.lookup sender = some 1 := by
  unfold backedOff
  cases hidx : n.nextIndex.lookup sender with
  | none => exact iff_of_true (Unaffected.refl n) (Or.inl rfl)
  | some idx =>
      simp only [reduceCtorEq, Option.some.injEq, false_or]
      constructor
      · intro h
        have := lookup_insert_eq_iff.mp h.nextIndex
        rw [hidx] at this
        have := Option.some.inj this
        omega
      · rintro rfl
        exact ⟨rfl, rfl, lookup_insert_eq_iff.mpr hidx, fun _ => rfl, rfl⟩

theorem unaffected_handleAppendEntriesResponse_iff {resp : AppendEntriesResponse}
    (hterm : resp.term ≤ n.log.currentTerm) :
    n.Unaffected ((handleAppendEntriesResponse sender resp).run [] n).state ↔
      n.Harmless sender (.appendEntriesResponse resp) := by
  rw [run_handleAppendEntriesResponse]
  split
  · rename_i hrole
    exact iff_of_true (Unaffected.refl n) fun hr => absurd hr hrole
  · rename_i hrole
    have hr : n.role = .leader := not_not.mp hrole
    rw [if_neg (Nat.not_lt.mpr hterm), Harmless, forall_prop_of_true hr]
    split
    · exact unaffected_acknowledged_iff hr
    · exact unaffected_backedOff_iff

end Handlers

/-- A stale answer is one of the two responses, and its term is not above the current one. -/
theorem Cluster.StaleAnswer.response {c : Cluster} {a : Action} {p : Packet}
    (h : c.StaleAnswer a) (hp : c.arriving a = some p) :
    (∃ resp, p.envelope.message = .requestVoteResponse resp ∧
        resp.term ≤ (c.nodes p.envelope.recipient.asStr).log.currentTerm) ∨
      ∃ resp, p.envelope.message = .appendEntriesResponse resp ∧
        resp.term ≤ (c.nodes p.envelope.recipient.asStr).log.currentTerm := by
  rw [StaleAnswer, hp] at h
  dsimp only at h
  split at h
  · rename_i resp _ hmsg _
    exact Or.inl ⟨resp, hmsg, h.2⟩
  · rename_i resp _ hmsg _
    exact Or.inr ⟨resp, hmsg, h.2⟩
  · exact h.elim

/-- One stale answer. -/
theorem ignoresStale_iff {m : Membership} {c c' : Cluster} {a : Action}
    (hstep : m.step c a = some c') : c.IgnoresStale a c' ↔ c.StaleHarmless a := by
  refine imp_congr_right fun hstale => forall₂_congr fun p hp => ?_
  cases Membership.moves_of_step hstep with
  | @deliver k q hq hid =>
      obtain rfl : q = p := Option.some.inj (hq.symm.trans hp)
      simp only [Cluster.runAt, Function.update_self, handleMessage]
      rcases hstale.response hp with ⟨resp, hmsg, hterm⟩ | ⟨resp, hmsg, hterm⟩
      · rw [hmsg]
        exact unaffected_handleRequestVoteResponse_iff hterm
      · rw [hmsg]
        exact unaffected_handleAppendEntriesResponse_iff hterm
  | _ => cases hp

/-- In every run, with any loss, duplication and delay and any restarts, the stale answers all
leave their node as it is exactly if each of them finds it where it has no effect. -/
theorem staleIgnored_iff {m : Membership} {ok : Cluster → Action → Prop}
    {tr : List (Cluster × List (Cluster × Action × Cluster))}
    (hrun : Lib.Run (Lib.recorded m.step) (m.initial, []) (fun s a => ok s.1 a) tr) :
    ∀ s ∈ tr, (∀ x ∈ s.2, x.1.IgnoresStale x.2.1 x.2.2) ↔ ∀ x ∈ s.2, x.1.StaleHarmless x.2.1 :=
  fun s hs => forall₂_congr fun x hx => ignoresStale_iff (hrun.recorded s hs x hx).2

/-- A asks for votes in term 1 and again in term 2, and then the vote of term 1 arrives. -/
def lateVote : List Action :=
  [.startElection "A", .deliver 0, .startElection "A", .deliver 1]

/-- The state that these actions end in, with a record of the steps. -/
def lateVoteFinal : Cluster × List (Cluster × Action × Cluster) :=
  Lib.final (Lib.recorded Membership.three.step) (Membership.three.initial, [])
    (fun _ a => a.isLossy = true) lateVote

theorem run_lateVote : ∃ tr, Lib.Run (Lib.recorded Membership.three.step)
    (Membership.three.initial, []) (fun _ a => a.isLossy = true) (lateVoteFinal :: tr) :=
  ⟨_, Lib.run_final (by decide +kernel)⟩

theorem staleIgnored_iff_lateVote :
    (∀ x ∈ lateVoteFinal.2, x.1.IgnoresStale x.2.1 x.2.2) ↔
      ∀ x ∈ lateVoteFinal.2, x.1.StaleHarmless x.2.1 :=
  run_lateVote.elim fun _ hrun =>
    @staleIgnored_iff _ (fun _ a => a.isLossy = true) _ hrun _ List.mem_cons_self

/-- The vote that B gave A for term 1 makes A the leader of term 2. Nothing is duplicated and
no node restarts. -/
theorem not_staleIgnored : ¬ ∀ (m : Membership)
    (tr : List (Cluster × List (Cluster × Action × Cluster))),
    Lib.Run (Lib.recorded m.step) (m.initial, []) (fun _ a => a.isLossy = true) tr →
      ∀ s ∈ tr, ∀ x ∈ s.2, x.1.IgnoresStale x.2.1 x.2.2 := by
  intro h
  obtain ⟨tr, hrun⟩ := run_lateVote
  have hlast := h .three _ hrun _ List.mem_cons_self _
    (List.head_mem (l := lateVoteFinal.2) (by decide +kernel))
  have hrole := (hlast (by decide +kernel) _ rfl).role
  revert hrole
  decide +kernel

end RaftEbpf
