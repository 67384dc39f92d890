import Mathlib.Data.Nat.Lattice
import RaftEbpf.Proofs.CommitScan

/-!
# `RaftEbpf.Proofs.Carried`: what the current members carry

`Carried` is the commit rule for the membership of the moment: an entry of the current term
above `commit_index` that the node and its current peers hold by a majority. The scan of
`try_advance_commit_index` counts every key of `match_index` instead, so it commits what is
carried and more (`Carried.committable`).

* `commitsByRule_iff`: the scan follows the rule exactly if all it could commit is covered by
  an entry that is carried.
* `closed_tryAdvanceCommitIndex`: after it nothing that is carried is left.
-/

set_option autoImplicit false

namespace RaftEbpf.RaftNode

open RaftEbpf.Lib (HashMap)

/-- The current peers whose `match_index` reaches `k`. -/
def holders (n : RaftNode) (k : Nat) : List String :=
  n.peers.keys.filter fun p => (n.matchIndex.lookup p).any fun idx => decide (k ≤ idx)

/-- The node and its current peers hold an entry of the current term at `k` by a majority, and
it is not committed. -/
structure Carried (n : RaftNode) (k : Nat) : Prop where
  above : n.commitIndex < k
  le_lastIndex : k ≤ n.log.lastIndex
  termAt : n.log.termAt k = some n.log.currentTerm
  held : majority n.peers ≤ 1 + (n.holders k).length

theorem carried_iff {n : RaftNode} {k : Nat} : n.Carried k ↔
    n.commitIndex < k ∧ k ≤ n.log.lastIndex ∧ n.log.termAt k = some n.log.currentTerm ∧
      majority n.peers ≤ 1 + (n.holders k).length :=
  ⟨fun h => ⟨h.above, h.le_lastIndex, h.termAt, h.held⟩, fun h => ⟨h.1, h.2.1, h.2.2.1, h.2.2.2⟩⟩

instance (n : RaftNode) (k : Nat) : Decidable (n.Carried k) := decidable_of_iff' _ carried_iff

/-- A run of `try_advance_commit_index` commits the greatest index that is carried, and
nothing where there is none. -/
def CommitsByRule (n : RaftNode) : Prop :=
  (∀ k, IsGreatest {k | n.Carried k} k → (tryAdvanceCommitIndex.run [] n).state.commitIndex = k) ∧
    ((∀ k, ¬ n.Carried k) → (tryAdvanceCommitIndex.run [] n).state.commitIndex = n.commitIndex)

/-- A Leader does not sit on an entry that is carried. -/
def Closed (n : RaftNode) : Prop := n.role = .leader → ∀ k, ¬ n.Carried k

/-- What `match_index` is about are current peers. -/
def MatchesPeers (n : RaftNode) : Prop := ∀ id ∈ n.matchIndex, id ∈ n.peers

variable {n : RaftNode} {k : Nat}

theorem mem_holders {p : String} : p ∈ n.holders k ↔
    p ∈ n.peers ∧ ∃ idx, n.matchIndex.lookup p = some idx ∧ k ≤ idx := by
  rw [holders, HashMap.mem_filter_lookup, AList.mem_keys]
  simp only [decide_eq_true_eq]

theorem nodup_holders (n : RaftNode) (k : Nat) : (n.holders k).Nodup :=
  n.peers.nodupKeys.filter _

/-- The scan counts the current peers and more. -/
theorem length_holders_le (n : RaftNode) (k : Nat) :
    (n.holders k).length ≤ HashMap.countValues (fun idx => decide (k ≤ idx)) n.matchIndex :=
  HashMap.length_filter_lookup_le n.peers.nodupKeys

/-- It counts no one else where `match_index` is about current peers. -/
theorem MatchesPeers.length_holders (h : n.MatchesPeers) (k : Nat) :
    (n.holders k).length = HashMap.countValues (fun idx => decide (k ≤ idx)) n.matchIndex :=
  HashMap.length_filter_lookup_eq n.peers.nodupKeys fun id hid => AList.mem_keys.mp (h id hid)

/-- The scan would commit what is carried. -/
theorem Carried.committable (h : n.Carried k) : n.Committable k where
  above := (Nat.mod_le _ _).trans h.above
  le_lastIndex := h.le_lastIndex
  termAt := h.termAt
  counted := h.held.trans (Nat.add_le_add_left (length_holders_le n k) 1)

/-- What the scan would commit is carried where `match_index` is about current peers. -/
theorem MatchesPeers.carried (h : n.MatchesPeers) (hshort : n.commitIndex < u64Max)
    (hk : n.Committable k) : n.Carried k where
  above := by
    have := hk.above
    rwa [addOne_of_lt hshort] at this
  le_lastIndex := hk.le_lastIndex
  termAt := hk.termAt
  held := by
    rw [h.length_holders]
    exact hk.counted

/-- Where anything is carried, there is a greatest index. -/
theorem Carried.exists_isGreatest (h : n.Carried k) : ∃ j, IsGreatest {k | n.Carried k} j := by
  have hbound : BddAbove {k | n.Carried k} := ⟨n.log.lastIndex, fun j hj => hj.le_lastIndex⟩
  exact ⟨_, Nat.sSup_mem ⟨k, h⟩ hbound, fun j hj => le_csSup hbound hj⟩

/-- The scan follows the rule exactly if all it could commit is at or below an index that is
carried. -/
theorem commitsByRule_iff (hrole : n.role = .leader) (hshort : n.commitIndex < u64Max) :
    n.CommitsByRule ↔ ∀ i, n.Committable i → ∃ j, i ≤ j ∧ n.Carried j := by
  unfold CommitsByRule
  rcases run_tryAdvanceCommitIndex_leader hrole with ⟨k, n', out, hk, hrun, hc⟩ | ⟨hnone, hrun⟩
  · have hcommit : n'.commitIndex = k := by rw [hc.state]
    rw [hrun, hcommit]
    constructor
    · rintro ⟨hgreatest, hnothing⟩ i hi
      -- The scan moved `commit_index`, so the rule names an index.
      have hmoved : k ≠ n.commitIndex := by
        have := hk.1.above
        rw [addOne_of_lt hshort] at this
        omega
      obtain ⟨j, hj⟩ : ∃ j, n.Carried j := by
        by_contra hno
        exact hmoved (hnothing (not_exists.mp hno))
      obtain ⟨g, hg⟩ := hj.exists_isGreatest
      exact ⟨g, (hk.2 hi).trans (hgreatest g hg).le, hg.1⟩
    · intro hcovered
      obtain ⟨j, hle, hj⟩ := hcovered k hk.1
      obtain rfl : j = k := le_antisymm (hk.2 hj.committable) hle
      exact ⟨fun g hg => le_antisymm (hg.2 hj) (hk.2 hg.1.committable),
        fun hno => absurd hj (hno j)⟩
  · rw [hrun]
    constructor
    · exact fun _ i hi => absurd hi (hnone i)
    · exact fun _ => ⟨fun g hg => absurd hg.1.committable (hnone g), fun _ => rfl⟩

/-- With `match_index` about current peers the scan follows the rule. -/
theorem MatchesPeers.commitsByRule (h : n.MatchesPeers) (hrole : n.role = .leader)
    (hshort : n.commitIndex < u64Max) : n.CommitsByRule :=
  (commitsByRule_iff hrole hshort).mpr fun i hi => ⟨i, le_rfl, h.carried hshort hi⟩

/-- After `try_advance_commit_index` nothing that is carried is left. -/
theorem closed_tryAdvanceCommitIndex (n : RaftNode) :
    (tryAdvanceCommitIndex.run [] n).state.Closed := by
  by_cases hrole : n.role = .leader
  · rcases run_tryAdvanceCommitIndex_leader hrole with ⟨k, n', out, hk, hrun, hc⟩ | ⟨hnone, hrun⟩
    · rw [hrun]
      intro _ j hj
      change n'.Carried j at hj
      rw [hc.state] at hj
      -- An index above the new `commit_index` was there for the scan.
      have hbefore : n.Committable j :=
        ⟨hk.1.above.trans hj.above.le, hj.le_lastIndex, hj.termAt, hj.committable.counted⟩
      exact absurd (hk.2 hbefore) (Nat.not_le.mpr hj.above)
    · rw [hrun]
      exact fun _ j hj => hnone j hj.committable
  · rw [run_tryAdvanceCommitIndex_none [] fun h => absurd h hrole]
    exact fun h => absurd h hrole

end RaftEbpf.RaftNode
