import Mathlib.Data.List.Basic

/-!
# `RaftEbpf.Lib.Redelivery`: deliveries in order, with repetitions

Positions are delivered in order, and any position delivered before may come again at any time
(`Redelivered`). A receiver that ignores what it has already taken in ends in the state that one
delivery of each position leads to (`Redelivered.invariant`).
-/

set_option autoImplicit false

namespace RaftEbpf.Lib

/-- Deliveries up to position `n`, where `highest` is the highest position so far: the positions
`next .. n` come in order, and between them positions at or below the highest so far. -/
inductive Redelivered (n : Nat) : (next highest : Nat) → List Nat → Prop where
  | done {highest : Nat} : Redelivered n (n + 1) highest []
  | fresh {next highest : Nat} {ds : List Nat} :
      next ≤ n → Redelivered n (next + 1) (max highest next) ds →
        Redelivered n next highest (next :: ds)
  | again {next highest i : Nat} {ds : List Nat} :
      1 ≤ i → i ≤ highest → Redelivered n next highest ds → Redelivered n next highest (i :: ds)

/-- What the next position leads to, and a repeated one leaves alone, holds at the end. -/
theorem Redelivered.invariant {σ : Type} (deliver : σ → Nat → σ) {I : Nat → σ → Prop}
    {n next highest : Nat} {ds : List Nat} (h : Redelivered n next highest ds)
    (hfresh : ∀ i s, i < n → I i s → I (i + 1) (deliver s (i + 1)))
    (hagain : ∀ highest i s, 1 ≤ i → i ≤ highest → highest ≤ n → I highest s →
      I highest (deliver s i))
    {s : σ} (hnext : 1 ≤ next) (hgap : next ≤ highest + 1) (hn : highest ≤ n)
    (hs : I highest s) : I n (ds.foldl deliver s) := by
  induction h generalizing s with
  | @done highest =>
      have hall : highest = n := by omega
      subst hall
      exact hs
  | @fresh next highest ds hle hds ih =>
      rw [List.foldl_cons]
      rcases Nat.lt_or_ge highest next with hnew | hold
      · -- The next position is the one behind the highest.
        have hpos : next = highest + 1 := by omega
        subst hpos
        rw [Nat.max_eq_right (Nat.le_succ highest)] at ih
        exact ih (by omega) (by omega) hle (hfresh highest s (by omega) hs)
      · -- It comes in order, but an earlier start has had it already.
        rw [Nat.max_eq_left hold] at ih
        exact ih (by omega) (by omega) hn (hagain highest next s hnext hold hn hs)
  | @again next highest i ds hi hle hds ih =>
      rw [List.foldl_cons]
      exact ih hnext hgap hn (hagain highest i s hi hle hn hs)

end RaftEbpf.Lib
