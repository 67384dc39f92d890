import Mathlib.Data.List.Count
import Mathlib.Order.Lattice

/-!
# `RaftEbpf.Lib.Ranking`: the values with the greatest keys

A list of pairs is sorted by descending key, stably, and the values of the first `n` are taken
(`top`). Where two values share a key, the order of the list decides which comes first.

* `top_perm`: where there is room, all values are taken.
* `exists_shown`: what is taken, and what is left out, over the keys.
* `top_eq_of_perm`: the order of the list plays no part where values with one key are equal, as far
  as they can be among the first `n`.
* `getElem?_top_cons`: the first pair of the list comes first among those with its key.
-/

set_option autoImplicit false

namespace RaftEbpf.Lib

variable {κ ν : Type} [LinearOrder κ]

/-- The pairs by descending key. The sort is stable. -/
def ranked (l : List (κ × ν)) : List (κ × ν) := l.mergeSort fun a b => decide (b.1 ≤ a.1)

/-- The values of the first `n`. -/
def top (n : Nat) (l : List (κ × ν)) : List ν := ((ranked l).take n).map Prod.snd

/-- How many pairs have a greater key. -/
def above (k : κ) (l : List (κ × ν)) : Nat := l.countP fun a => decide (k < a.1)

theorem descending_trans (a b c : κ × ν) (hab : decide (b.1 ≤ a.1) = true)
    (hbc : decide (c.1 ≤ b.1) = true) : decide (c.1 ≤ a.1) = true := by
  rw [decide_eq_true_eq] at hab hbc ⊢
  exact le_trans hbc hab

theorem descending_total (a b : κ × ν) : (decide (b.1 ≤ a.1) || decide (a.1 ≤ b.1)) = true := by
  rw [Bool.or_eq_true, decide_eq_true_eq, decide_eq_true_eq]
  exact le_total b.1 a.1

theorem ranked_perm (l : List (κ × ν)) : (ranked l).Perm l := List.mergeSort_perm l _

theorem pairwise_ranked (l : List (κ × ν)) : (ranked l).Pairwise fun a b => b.1 ≤ a.1 := by
  exact (List.pairwise_mergeSort descending_trans descending_total l).imp of_decide_eq_true

theorem length_top (n : Nat) (l : List (κ × ν)) : (top n l).length = min n l.length := by
  rw [top, List.length_map, List.length_take, (ranked_perm l).length_eq]

/-- With room for all pairs, all values are taken. -/
theorem top_perm {n : Nat} {l : List (κ × ν)} (h : l.length ≤ n) :
    (top n l).Perm (l.map Prod.snd) := by
  rw [top, List.take_of_length_le (by rwa [(ranked_perm l).length_eq])]
  exact (ranked_perm l).map _

/-- The values are those of `n` pairs in descending order, and no other pair has a greater key than
one of them. -/
theorem exists_shown (n : Nat) (l : List (κ × ν)) : ∃ shown omitted : List (κ × ν),
    top n l = shown.map Prod.snd ∧ (shown ++ omitted).Perm l ∧
      shown.Pairwise (fun a b => b.1 ≤ a.1) ∧ ∀ b ∈ omitted, ∀ a ∈ shown, b.1 ≤ a.1 := by
  have hpairs := pairwise_ranked l
  rw [← List.take_append_drop n (ranked l), List.pairwise_append] at hpairs
  refine ⟨(ranked l).take n, (ranked l).drop n, rfl, ?_, hpairs.1, ?_⟩
  · rw [List.take_append_drop]
    exact ranked_perm l
  · exact fun b hb a ha => hpairs.2.2 a ha b hb

/-- In a descending list nothing behind a place is above it. -/
theorem above_cons_eq_zero {a : κ × ν} {l : List (κ × ν)}
    (h : (a :: l).Pairwise fun a b => b.1 ≤ a.1) : above a.1 (a :: l) = 0 := by
  rw [above, List.countP_eq_zero]
  intro b hb
  rw [decide_eq_true_eq, not_lt]
  rcases List.mem_cons.mp hb with rfl | hb
  · exact le_refl _
  · exact List.rel_of_pairwise_cons h hb

/-- In a descending list no more pairs are above a place than stand before it. -/
theorem above_le_of_getElem? {l : List (κ × ν)} (h : l.Pairwise fun a b => b.1 ≤ a.1) {i : Nat}
    {a : κ × ν} (ha : l[i]? = some a) : above a.1 l ≤ i := by
  obtain ⟨hi, hget⟩ := List.getElem?_eq_some_iff.mp ha
  have hsplit : l = l.take i ++ a :: l.drop (i + 1) := by
    rw [← hget, List.getElem_cons_drop, List.take_append_drop]
  rw [hsplit, List.pairwise_append] at h
  have hbehind := above_cons_eq_zero h.2.1
  rw [hsplit, above, List.countP_append]
  rw [above] at hbehind
  rw [hbehind, Nat.add_zero]
  exact Nat.le_trans List.countP_le_length (List.length_take_le i l)

theorem above_perm {l l' : List (κ × ν)} (h : l.Perm l') (k : κ) : above k l = above k l' :=
  h.countP_eq _

/-- Two orders of one list have the same keys at the same places. -/
theorem map_fst_ranked {l l' : List (κ × ν)} (h : l.Perm l') :
    (ranked l).map Prod.fst = (ranked l').map Prod.fst := by
  have hperm : ((ranked l).map Prod.fst).Perm ((ranked l').map Prod.fst) :=
    ((ranked_perm l).trans (h.trans (ranked_perm l').symm)).map _
  have hsorted : ∀ l : List (κ × ν), ((ranked l).map Prod.fst).Pairwise fun a b => b ≤ a :=
    fun l => List.pairwise_map.mpr (pairwise_ranked l)
  exact hperm.eq_of_pairwise (fun a b _ _ hab hba => le_antisymm hba hab) (hsorted l) (hsorted l')

/-- Where values with one key are equal as far as they can be among the first `n`, every order of
the list gives the same. -/
theorem top_eq_of_perm {n : Nat} {l l' : List (κ × ν)} (h : l.Perm l')
    (hsame : ∀ a ∈ l, ∀ b ∈ l, a.1 = b.1 → above a.1 l < n → a.2 = b.2) : top n l = top n l' := by
  have hkeys := map_fst_ranked h
  have hlength : (ranked l).length = (ranked l').length := by
    rw [(ranked_perm l).length_eq, (ranked_perm l').length_eq, h.length_eq]
  rw [top, top]
  refine List.ext_getElem? fun i => ?_
  rw [List.getElem?_map, List.getElem?_map, List.getElem?_take, List.getElem?_take]
  split
  · rename_i hi
    have hkey := congrArg (fun ks => ks[i]?) hkeys
    simp only [List.getElem?_map] at hkey
    cases ha : (ranked l)[i]? with
    | none =>
        rw [ha, Option.map_none, eq_comm, Option.map_eq_none_iff] at hkey
        rw [hkey]
    | some a =>
        rw [ha, Option.map_some, eq_comm, Option.map_eq_some_iff] at hkey
        obtain ⟨b, hb, hfst⟩ := hkey
        rw [hb, Option.map_some, Option.map_some]
        have hmem : a ∈ l := (ranked_perm l).subset (List.mem_of_getElem? ha)
        have hmem' : b ∈ l := h.symm.subset ((ranked_perm l').subset (List.mem_of_getElem? hb))
        have habove : above a.1 l ≤ i := by
          rw [← above_perm (ranked_perm l)]
          exact above_le_of_getElem? (pairwise_ranked l) ha
        rw [hsame a hmem b hmem' hfst.symm (Nat.lt_of_le_of_lt habove hi)]
  · rfl

/-- The first pair of the list stands behind the pairs above it, and before the others with its
key. -/
theorem getElem?_top_cons (a : κ × ν) (l : List (κ × ν)) {n : Nat} (h : above a.1 (a :: l) < n) :
    (top n (a :: l))[above a.1 (a :: l)]? = some a.2 := by
  obtain ⟨l₁, l₂, hcons, -, hbefore⟩ :=
    List.mergeSort_cons descending_trans descending_total a l
  have hranked : ranked (a :: l) = l₁ ++ a :: l₂ := hcons
  have hpairs := pairwise_ranked (a :: l)
  rw [hranked, List.pairwise_append] at hpairs
  have hplace : above a.1 (a :: l) = l₁.length := by
    rw [← above_perm (ranked_perm (a :: l)), hranked, above, List.countP_append]
    have hall : l₁.countP (fun b => decide (a.1 < b.1)) = l₁.length := by
      rw [List.countP_eq_length]
      intro b hb
      have hb := hbefore b hb
      rw [Bool.not_eq_true', decide_eq_false_iff_not, not_le] at hb
      exact decide_eq_true hb
    have hnone := above_cons_eq_zero hpairs.2.1
    rw [above] at hnone
    rw [hall, hnone, Nat.add_zero]
  rw [hplace] at h ⊢
  rw [top, List.getElem?_map, List.getElem?_take, if_pos h, hranked, List.getElem?_append_right
    (Nat.le_refl _), Nat.sub_self]
  rfl

end RaftEbpf.Lib
