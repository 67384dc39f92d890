import RaftEbpf.Lib.Replication.State

/-!
# `RaftEbpf.Lib.Replication.Repair`: one leader repairs one log

A leader with log `M` offers a follower batches of it. A batch starts at `next`, and the follower
takes it where all before it is common to both logs. Then `next` jumps to the end of the
follower's log, which may be far behind the place where the logs part. Otherwise `next` goes back
by one.

* `common`: the length of the longest common prefix, with `le_common_iff`.
* `common_le_step`: no offer shortens the common prefix.
* `exists_repaired`: after some offers the follower has the whole log of the leader. Above the
  common prefix `next` only goes back, until an offer starts right at its end and lengthens it
  (`step_progress`).
-/

set_option autoImplicit false

namespace RaftEbpf.Lib.Replication

variable {ε : Type} [DecidableEq ε]

/-- The length of the longest common prefix. -/
def common : List ε → List ε → Nat
  | a :: l, b :: m => if a = b then common l m + 1 else 0
  | _, _ => 0

theorem le_common_iff {l m : List ε} {k : Nat} :
    k ≤ common l m ↔ k ≤ l.length ∧ k ≤ m.length ∧ l.take k = m.take k := by
  induction k generalizing l m with
  | zero => simp
  | succ k ih =>
      cases l with
      | nil => simp [common]
      | cons a l =>
          cases m with
          | nil => simp [common]
          | cons b m =>
              by_cases hab : a = b
              · subst hab
                simp [common, ih]
              · simp [common, hab]

theorem common_le_left (l m : List ε) : common l m ≤ l.length :=
  (le_common_iff.mp (Nat.le_refl _)).1

theorem common_le_right (l m : List ε) : common l m ≤ m.length :=
  (le_common_iff.mp (Nat.le_refl _)).2.1

theorem take_common (l m : List ε) : l.take (common l m) = m.take (common l m) :=
  (le_common_iff.mp (Nat.le_refl _)).2.2

/-- A prefix of the second list is one of the first up to the common length. -/
theorem take_prefix_iff {l m : List ε} {k : Nat} :
    m.take k <+: l ↔ min k m.length ≤ common l m := by
  rw [le_common_iff]
  constructor
  · intro h
    have hlen : (m.take k).length = min k m.length := List.length_take
    refine ⟨hlen ▸ h.length_le, Nat.min_le_right _ _, ?_⟩
    rw [← hlen, ← List.prefix_iff_eq_take.mp h, hlen, List.take_eq_take_min]
  · rintro ⟨-, -, htake⟩
    rw [List.take_eq_take_min, ← htake]
    exact List.take_prefix _ _

theorem prefix_iff_common {l m : List ε} : m <+: l ↔ m.length ≤ common l m := by
  have h := take_prefix_iff (l := l) (m := m) (k := m.length)
  rwa [List.take_length, Nat.min_self] at h

/-- What taking over a prefix makes of the common length. -/
theorem common_overwrite (l M : List ε) (k : Nat) :
    common (overwrite l (M.take k)) M = max (common l M) (min k M.length) := by
  by_cases hpre : M.take k <+: l
  · rw [overwrite_eq_left hpre, Nat.max_eq_left (take_prefix_iff.mp hpre)]
  · have hlt : common l M < min k M.length := Nat.not_le.mp (mt take_prefix_iff.mpr hpre)
    rw [overwrite_eq_right hpre, Nat.max_eq_right (Nat.le_of_lt hlt)]
    apply le_antisymm
    · exact (common_le_left _ _).trans (Nat.le_of_eq List.length_take)
    · refine le_common_iff.mpr ⟨Nat.le_of_eq List.length_take.symm, Nat.min_le_right _ _, ?_⟩
      rw [List.take_take, Nat.min_eq_left (Nat.min_le_left _ _)]

/-- The follower's log, and where the next offer starts. -/
structure Repair (ε : Type) where
  log : List ε
  next : Nat

namespace Repair

variable {M : List ε} {batch : Nat}

/-- One offer of a batch, and its answer. -/
noncomputable def step (M : List ε) (batch : Nat) (s : Repair ε) : Repair ε :=
  if s.next - 1 ≤ common s.log M then
    let log := overwrite s.log (M.take (s.next - 1 + batch))
    ⟨log, log.length + 1⟩
  else ⟨s.log, max (s.next - 1) 1⟩

/-- How far `next` is from an offer at the end of the common prefix. Below it, one jump to the end
of the follower's log comes first. -/
def rank (M : List ε) (s : Repair ε) : Nat :=
  if common s.log M ≤ s.next - 1 then s.next - 1 - common s.log M
  else s.log.length - common s.log M + 1

/-- No offer shortens the common prefix. -/
theorem common_le_step (M : List ε) (batch : Nat) (s : Repair ε) :
    common s.log M ≤ common (s.step M batch).log M := by
  unfold step
  split
  · rw [common_overwrite]
    exact Nat.le_max_left _ _
  · exact Nat.le_refl _

/-- Where the leader has more than is common, an offer lengthens the common prefix, or it leaves
the log and comes closer to one that does. -/
theorem step_progress (hbatch : 0 < batch) {s : Repair ε} (h : ¬ M <+: s.log) :
    common s.log M < common (s.step M batch).log M ∨
      (s.step M batch).log = s.log ∧ (s.step M batch).rank M < s.rank M := by
  have hmore : common s.log M < M.length := Nat.not_le.mp (mt prefix_iff_common.mpr h)
  unfold step
  split
  · rename_i hle
    by_cases hpre : M.take (s.next - 1 + batch) <+: s.log
    · -- Nothing new: the offer was below the end of the common prefix.
      have hmin := take_prefix_iff.mp hpre
      have hlen := common_le_left s.log M
      rw [overwrite_eq_left hpre]
      refine Or.inr ⟨rfl, ?_⟩
      unfold rank
      simp only [Nat.add_sub_cancel]
      rw [if_pos hlen, if_neg (by omega)]
      omega
    · left
      rw [common_overwrite]
      have hmin := Nat.not_le.mp (mt take_prefix_iff.mpr hpre)
      omega
  · rename_i hgt
    refine Or.inr ⟨rfl, ?_⟩
    unfold rank
    simp only
    rw [if_pos (by omega), if_pos (by omega)]
    omega

/-- After some offers the follower has the whole log of the leader. -/
theorem exists_repaired (hbatch : 0 < batch) (s : Repair ε) :
    ∃ n, M <+: ((step M batch)^[n] s).log := by
  by_cases hdone : M <+: s.log
  · exact ⟨0, hdone⟩
  · have hprogress := step_progress hbatch hdone
    have hmore : common s.log M < M.length := Nat.not_le.mp (mt prefix_iff_common.mpr hdone)
    obtain ⟨n, hn⟩ := exists_repaired hbatch (s.step M batch)
    exact ⟨n + 1, hn⟩
termination_by (M.length - common s.log M, s.rank M)
decreasing_by
  rw [Prod.lex_def]
  rcases hprogress with hlonger | ⟨hsame, hrank⟩
  · exact Or.inl (Nat.sub_lt_sub_left hmore hlonger)
  · refine Or.inr ⟨?_, hrank⟩
    show M.length - common (s.step M batch).log M = M.length - common s.log M
    rw [hsame]

end Repair

end RaftEbpf.Lib.Replication
