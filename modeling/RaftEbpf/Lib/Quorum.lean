import Mathlib.Data.Finset.Card
import Mathlib.Data.Set.Basic

/-!
# `RaftEbpf.Lib.Quorum`: majorities of a fixed list of members

A set of nodes is a majority when it holds distinct members that are more than half of the
list. `Majority.inter` is the pigeonhole step behind every agreement argument: two
majorities share a member.
-/

set_option autoImplicit false

namespace RaftEbpf.Lib

variable {ν : Type}

/-- The set holds distinct members that are more than half of the list. -/
def Majority (members : List ν) (S : Set ν) : Prop :=
  ∃ Q : List ν, Q.Nodup ∧ (∀ v ∈ Q, v ∈ members ∧ v ∈ S) ∧ members.length < 2 * Q.length

/-- A larger set is a majority too. -/
theorem Majority.mono {members : List ν} {S T : Set ν} (h : Majority members S)
    (hST : ∀ v ∈ S, v ∈ T) : Majority members T := by
  obtain ⟨Q, hnd, hmem, hlen⟩ := h
  exact ⟨Q, hnd, fun v hv => ⟨(hmem v hv).1, hST v (hmem v hv).2⟩, hlen⟩

/-- Two majorities share a member. -/
theorem Majority.inter {members : List ν} {S T : Set ν} (hS : Majority members S)
    (hT : Majority members T) : ∃ v, v ∈ S ∧ v ∈ T := by
  classical
  obtain ⟨Q, hQnd, hQ, hQlen⟩ := hS
  obtain ⟨R, hRnd, hR, hRlen⟩ := hT
  have hQsub : Q.toFinset ⊆ members.toFinset := fun v hv => by
    rw [List.mem_toFinset] at hv ⊢
    exact (hQ v hv).1
  have hRsub : R.toFinset ⊆ members.toFinset := fun v hv => by
    rw [List.mem_toFinset] at hv ⊢
    exact (hR v hv).1
  have hcard : members.toFinset.card < Q.toFinset.card + R.toFinset.card := by
    rw [List.toFinset_card_of_nodup hQnd, List.toFinset_card_of_nodup hRnd]
    have hle : members.toFinset.card ≤ members.length := List.toFinset_card_le members
    omega
  obtain ⟨v, hv⟩ := Finset.inter_nonempty_of_card_lt_card_add_card hQsub hRsub hcard
  rw [Finset.mem_inter, List.mem_toFinset, List.mem_toFinset] at hv
  exact ⟨v, (hQ v hv.1).2, (hR v hv.2).2⟩

end RaftEbpf.Lib
