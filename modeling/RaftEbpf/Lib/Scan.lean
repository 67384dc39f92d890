import Mathlib.Data.List.Basic
import Mathlib.Order.Bounds.Defs

/-!
# `RaftEbpf.Lib.Scan`: the search of a range from its top

A loop `for k in (start..=last).rev()` that stops at the first `k` with a property finds the
greatest one of the range.
-/

set_option autoImplicit false

namespace RaftEbpf.Lib

variable {p : Nat → Bool} {start len : Nat}

/-- The search finds the greatest index of the range with the property. -/
theorem find?_reverse_range'_eq_some {k : Nat} :
    (List.range' start len).reverse.find? p = some k ↔
      IsGreatest {k | start ≤ k ∧ k < start + len ∧ p k = true} k := by
  induction len with
  | zero =>
      refine ⟨fun h => by simp at h, fun h => ?_⟩
      have := h.1.1
      have := h.1.2.1
      omega
  | succ len ih =>
      rw [List.range'_concat, Nat.one_mul, List.reverse_append, List.reverse_singleton,
        List.singleton_append, List.find?_cons]
      cases htop : p (start + len) with
      | true =>
          constructor
          · intro h
            obtain rfl := Option.some.inj h
            exact ⟨⟨Nat.le_add_right _ _, by omega, htop⟩, fun j hj => by
              have := hj.2.1
              omega⟩
          · intro h
            have hle : start + len ≤ k := h.2 ⟨Nat.le_add_right _ _, by omega, htop⟩
            have := h.1.2.1
            exact congrArg some (by omega)
      | false =>
          -- The top has not the property, so both ranges have it at the same indices.
          have hset : {k | start ≤ k ∧ k < start + (len + 1) ∧ p k = true}
              = {k | start ≤ k ∧ k < start + len ∧ p k = true} := by
            ext j
            constructor
            · rintro ⟨h1, h2, h3⟩
              refine ⟨h1, ?_, h3⟩
              rcases Nat.lt_or_ge j (start + len) with hj | hj
              · exact hj
              · obtain rfl : j = start + len := by omega
                rw [htop] at h3
                cases h3
            · rintro ⟨h1, h2, h3⟩
              exact ⟨h1, by omega, h3⟩
          rw [hset]
          exact ih

/-- The search finds nothing where no index of the range has the property. -/
theorem find?_reverse_range'_eq_none : (List.range' start len).reverse.find? p = none ↔
    ∀ k, start ≤ k → k < start + len → p k = false := by
  simp only [List.find?_eq_none, List.mem_reverse, List.mem_range'_1, Bool.not_eq_true, and_imp]

end RaftEbpf.Lib
