import RaftEbpf.Lib.Scan
import RaftEbpf.Proofs.NodeRun

/-!
# `RaftEbpf.Proofs.CommitScan`: what `try_advance_commit_index` looks for

The scan goes over the indices above `commit_index` from the last one down. `Committable` is
its test, and it finds the greatest index that passes (`findCommit_eq_some_iff`). The test
counts all of `match_index`, whoever it is about.
-/

set_option autoImplicit false

namespace RaftEbpf.RaftNode

open RaftEbpf.Lib (HashMap)

/-- The scan of a node would commit index `k`. -/
structure Committable (n : RaftNode) (k : Nat) : Prop where
  above : addOne n.commitIndex ≤ k
  le_lastIndex : k ≤ n.log.lastIndex
  termAt : n.log.termAt k = some n.log.currentTerm
  counted : majority n.peers ≤ 1 + HashMap.countValues (fun idx => decide (k ≤ idx)) n.matchIndex

variable {n : RaftNode} {k : Nat}

theorem committable_iff : n.Committable k ↔
    addOne n.commitIndex ≤ k ∧
      k < addOne n.commitIndex + (n.log.lastIndex + 1 - addOne n.commitIndex) ∧
      (decide (n.log.termAt k = some n.log.currentTerm) &&
        decide (majority n.peers ≤
          1 + HashMap.countValues (fun idx => decide (k ≤ idx)) n.matchIndex)) = true := by
  rw [Bool.and_eq_true, decide_eq_true_eq, decide_eq_true_eq]
  constructor
  · rintro ⟨h1, h2, h3, h4⟩
    exact ⟨h1, by omega, h3, h4⟩
  · rintro ⟨h1, h2, h3, h4⟩
    exact ⟨h1, by omega, h3, h4⟩

/-- The scan finds the greatest index that can be committed. -/
theorem findCommit_eq_some_iff :
    findCommit n n.commitIndex = some k ↔ IsGreatest {k | n.Committable k} k := by
  rw [findCommit, Lib.find?_reverse_range'_eq_some]
  simp only [committable_iff]

/-- The scan finds nothing where no index can be committed. -/
theorem findCommit_eq_none_iff :
    findCommit n n.commitIndex = none ↔ ∀ k, ¬ n.Committable k := by
  rw [findCommit, Lib.find?_reverse_range'_eq_none]
  refine forall_congr' fun k => ?_
  rw [committable_iff]
  constructor
  · rintro h ⟨h1, h2, h3⟩
    rw [h h1 h2] at h3
    cases h3
  · intro h h1 h2
    exact Bool.eq_false_iff.mpr fun h3 => h ⟨h1, h2, h3⟩

/-- The scan reads of the maps what they look up. -/
theorem committable_congr {n' : RaftNode} (hlog : n'.log = n.log) (hpeers : n'.peers = n.peers)
    (hcommit : n'.commitIndex = n.commitIndex)
    (hmatch : ∀ id, n'.matchIndex.lookup id = n.matchIndex.lookup id) :
    n'.Committable k ↔ n.Committable k := by
  have hcount := HashMap.countValues_congr (p := fun idx => decide (k ≤ idx)) hmatch
  constructor
  · rintro ⟨h1, h2, h3, h4⟩
    rw [hcommit] at h1
    rw [hlog] at h2 h3
    rw [hpeers, hcount] at h4
    exact ⟨h1, h2, h3, h4⟩
  · rintro ⟨h1, h2, h3, h4⟩
    rw [← hcommit] at h1
    rw [← hlog] at h2 h3
    rw [← hpeers, ← hcount] at h4
    exact ⟨h1, h2, h3, h4⟩

/-- `try_advance_commit_index` of a Leader commits the greatest index that can be committed, and
does nothing where there is none. -/
theorem run_tryAdvanceCommitIndex_leader (hrole : n.role = .leader) :
    (∃ k n' out, IsGreatest {k | n.Committable k} k ∧
        tryAdvanceCommitIndex.run [] n = ⟨some (), n', out, []⟩ ∧ Commits k n n' out) ∨
      ((∀ k, ¬ n.Committable k) ∧ tryAdvanceCommitIndex.run [] n = ⟨some (), n, [], []⟩) := by
  rcases run_tryAdvanceCommitIndex [] n with ⟨hrun, hnone⟩ | ⟨k, n', out, -, hk, hrun, hc⟩
  · exact Or.inr ⟨findCommit_eq_none_iff.mp (hnone hrole), hrun⟩
  · exact Or.inl ⟨k, n', out, findCommit_eq_some_iff.mp hk, hrun, hc⟩

end RaftEbpf.RaftNode
