import RaftEbpf.Proofs.ClusterRun

/-!
# `RaftEbpf.Proofs.ElectionSafety`: when a term has one leader

`handle_request_vote_response` compares `votes.len() + 1` with the majority, but the list
of votes already holds the candidate itself, and it counts grants of older terms.

* `not_electionSafety`: in a cluster of four, two candidates of one term win with two votes
  each.
* `oneLeaderPerTerm_of_electionSound`: where each candidate that passes the threshold has
  by then the votes of more than half of the members, no term has two leaders.
-/

set_option autoImplicit false

namespace RaftEbpf

open RaftEbpf.Lib.Replication

/-- In every run whose steps are `ElectionSound`, no two nodes lead the same term. -/
theorem oneLeaderPerTerm_of_electionSound {m : Membership} {tr : List Cluster}
    (hrun : m.Run (fun c a => c.Short a ∧ c.ElectionSound m a) tr) : m.OneLeaderPerTerm tr := by
  have hsound : Tracks.Sound m ⟨True, False, False⟩
      (fun c a => c.Short a ∧ c.ElectionSound m a) :=
    ⟨fun _ _ h => h.1, fun _ _ _ h => h.2, False.elim, False.elim, False.elim, False.elim⟩
  obtain ⟨c, rest, s, rfl, hsim⟩ := run_simulated hsound hrun (Or.inl trivial)
  intro c₁ h₁ c₂ h₂ a ha b hb term hl₁ hl₂
  have hla := hsim.leads c₁ h₁ a ha term hl₁
  have hlb := hsim.leads c₂ h₂ b hb term hl₂
  exact Option.some.inj (hla.symm.trans hlb)

/-- Four nodes: the grants of B and C are both sent before A counts the first of them, so A
wins with three votes; C then wins the next term in the same way. -/
theorem oneLeaderPerTerm_of_electionSound_four :
    Membership.four.OneLeaderPerTerm (Membership.four.trace
      (fun c a => c.Short a ∧ c.ElectionSound .four a)
      [.startElection "A", .deliver 2, .deliver 1, .deliver 1, .startElection "C", .deliver 6,
        .deliver 5, .deliver 6, .deliver 6]) :=
  oneLeaderPerTerm_of_electionSound (Lib.run_trace (by decide +kernel))

/-- A run of four nodes with only loss and delay: A wins term 1 with the grant of one peer,
and C wins term 1 with the grant of another. -/
def twoLeaders : List Action :=
  [.startElection "A", .deliver 0, .deliver 2, .startElection "C", .deliver 6, .deliver 7]

/-- Two nodes can lead the same term, with no envelope duplicated and no restart. -/
theorem not_electionSafety : ¬ ∀ (m : Membership) (tr : List Cluster),
    m.Run (fun _ a => a.isLossy = true) tr → m.OneLeaderPerTerm tr := by
  intro h
  have hrun : Membership.four.Run (fun _ a => a.isLossy = true)
      (Membership.four.trace (fun _ a => a.isLossy = true) twoLeaders) :=
    Lib.run_trace (by decide +kernel)
  exact absurd (h _ _ hrun) (by decide +kernel)

end RaftEbpf
