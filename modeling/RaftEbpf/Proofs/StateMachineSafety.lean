import RaftEbpf.Proofs.FollowerCommit

/-!
# `RaftEbpf.Proofs.StateMachineSafety`: when all nodes apply the same entries

* `not_appliedAgree`: two nodes apply different entries at index 1, in a run with one
  leader per term. A leader commits its entry on the unsound acknowledgement of
  `MatchIndex`, and the acknowledging node, elected next, commits its own.
* `appliedAgree_of_sound`: where elections, acknowledgements and follower commits meet their
  conditions, all nodes apply the same entry at an index, across restarts.
-/

set_option autoImplicit false

namespace RaftEbpf

open RaftEbpf.Lib.Replication

/-- Entries applied at one index, on any nodes and at any moments, have the same term and
the same command. -/
def AppliedAgree (c : Cluster) : Prop :=
  ∀ em ∈ c.history, ∀ em' ∈ c.history, ∀ i e e', em.output = .applied i e →
    em'.output = .applied i e' → e.term = e'.term ∧ e.command = e'.command

/-- Where commits are tracked, the entries applied at an index agree: they are entries of
committed prefixes, and of two of these one is a prefix of the other. -/
theorem Sim.appliedAgree {m : Membership} {f : Tracks} {tr : List Cluster} {c : Cluster}
    {s : Past} (h : Sim m f tr c s) (hv : f.votes) (hc : f.commits) : AppliedAgree c := by
  intro em hem em' hem' i e e' he he'
  obtain ⟨-, t, P, hP, hPe⟩ := h.applied hc em hem i e he
  obtain ⟨-, t', P', hP', hPe'⟩ := h.applied hc em' hem' i e' he'
  have hget : ∀ {Q R : List LogEntry} {d : LogEntry}, Q <+: R → Q[i - 1]? = some d →
      R[i - 1]? = some d := by
    intro Q R d hQR hd
    obtain ⟨hlt, rfl⟩ := List.getElem?_eq_some_iff.mp hd
    exact List.prefix_iff_getElem?.mp hQR (i - 1) hlt
  have heq : e = e' := by
    rcases hP.agree h.inv h.ackInv (h.quorate hv) hP' with hpre | hpre
    · rw [hget hpre hPe] at hPe'
      exact Option.some.inj hPe'
    · rw [hget hpre hPe'] at hPe
      exact (Option.some.inj hPe).symm
  exact ⟨by rw [heq], by rw [heq]⟩

/-- The conditions on elections, acknowledgements and follower commits. -/
def Cluster.Sound (m : Membership) (c : Cluster) (a : Action) : Prop :=
  c.Short a ∧ c.ElectionSound m a ∧ c.AckSound a ∧ c.CommitSound a

instance (m : Membership) (c : Cluster) (a : Action) : Decidable (c.Sound m a) :=
  inferInstanceAs (Decidable (_ ∧ _ ∧ _ ∧ _))

/-- In every run whose steps are `Sound`, restarts and duplicates included, all nodes apply
the same entry at an index. -/
theorem appliedAgree_of_sound {m : Membership} {tr : List Cluster}
    (hrun : m.Run (Cluster.Sound m) tr) : ∀ c ∈ tr, AppliedAgree c := by
  intro c hc
  obtain ⟨rest, hrest, -⟩ := hrun.suffix hc
  have hsound : Tracks.Sound m ⟨True, True, True⟩ (Cluster.Sound m) :=
    ⟨fun _ _ h => h.1, fun _ _ _ h => h.2.1, fun _ _ _ h => h.2.2.1, fun _ _ _ h => h.2.2.2,
      fun _ => trivial, fun _ => trivial⟩
  obtain ⟨c', rest', s, heq, hsim⟩ := run_simulated hsound hrest (Or.inl trivial)
  obtain ⟨rfl, rfl⟩ := List.cons.inj heq
  exact hsim.appliedAgree trivial trivial

/-- Three nodes: A commits and applies entry 1, B follows, A restarts, B is elected with C's
vote and commits entry 2 above it. -/
theorem appliedAgree_of_sound_three : AppliedAgree (Membership.three.final (Cluster.Sound .three)
    [.startElection "A", .deliver 0, .deliver 1, .propose "A" .noop, .deliver 4, .deliver 4,
      .sendHeartbeats "A", .deliver 5, .restart "A", .startElection "B", .deliver 6, .deliver 7,
      .propose "B" (.delete (.pushStr 256 "k")), .sendHeartbeats "B", .deliver 11, .deliver 12,
      .sendHeartbeats "B", .deliver 12, .deliver 13]) :=
  appliedAgree_of_sound (Lib.run_final (by decide +kernel)) _ List.mem_cons_self

/-- B commits its entry of term 2 at index 1 on A's answer to a heartbeat. A holds an entry of
term 1 there. A is elected for term 3 with C's vote and commits what it holds. -/
def appliedApart : List Action :=
  [.startElection "A", .deliver 0, .deliver 1, .propose "A" .noop, .startElection "B",
    .startElection "B", .deliver 7, .deliver 8, .deliver 9,
    .propose "B" (.delete (.pushStr 256 "k")), .deliver 9, .startElection "A", .deliver 11,
    .deliver 12, .propose "A" .noop, .deliver 14, .deliver 15, .sendHeartbeats "A",
    .deliver 15, .deliver 16]

/-- Two nodes can apply different entries at one index, with one leader per term, no restart
and no envelope duplicated. -/
theorem not_appliedAgree : ¬ ∀ (m : Membership) (tr : List Cluster),
    m.Run (fun _ a => a.isLossyOrRestart = true) tr → m.OneLeaderPerTerm tr →
    ∀ c ∈ tr, AppliedAgree c := by
  intro h
  have hrun : Membership.three.Run (fun _ a => a.isLossyOrRestart = true)
      (Membership.three.final (fun _ a => a.isLossyOrRestart = true) appliedApart ::
        (Membership.three.trace (fun _ a => a.isLossyOrRestart = true) appliedApart).tail) :=
    Lib.run_final (by decide +kernel)
  have hagree := h _ _ hrun (by decide +kernel) _ List.mem_cons_self
  -- The entries that the two nodes applied at index 1.
  have hB : Output.applied 1 ⟨1, 2, .delete (.pushStr 256 "k")⟩ ∈ (Membership.three.final
      (fun _ a => a.isLossyOrRestart = true) appliedApart).history.map (·.output) := by
    decide +kernel
  have hA : Output.applied 1 ⟨1, 1, .noop⟩ ∈ (Membership.three.final
      (fun _ a => a.isLossyOrRestart = true) appliedApart).history.map (·.output) := by
    decide +kernel
  obtain ⟨em, hem, he⟩ := List.mem_map.mp hB
  obtain ⟨em', hem', he'⟩ := List.mem_map.mp hA
  exact absurd (hagree em hem em' hem' 1 _ _ he he').1 (by decide)

end RaftEbpf
