import RaftEbpf.Lib.Replication.Safety

/-!
# `RaftEbpf.Lib.Replication.Later`: two moments of one history

`Grows i` compares two states across the steps of one node. `Later` keeps of it what does not
depend on the node, so that it composes over a whole run: whoever led a term led it still, leaders'
logs grew by entries of their own term, and what a majority acknowledged stays acknowledged.
-/

set_option autoImplicit false

namespace RaftEbpf.Lib.Replication

variable {ν ε : Type} [Termed ε]

/-- `s'` is `s` or comes after it in one history. -/
structure Later (s s' : State ν ε) : Prop where
  leader : ∀ t w, s.leader t = some w → s'.leader t = some w
  llog : ∀ t, s.leader t ≠ none → ∃ es, s'.llog t = s.llog t ++ es ∧ ∀ e ∈ es, termOf e = t
  acked : ∀ t v k, s.acked t v k → s'.acked t v k

namespace Later

variable {s s' s'' : State ν ε}

theorem refl (s : State ν ε) : Later s s where
  leader _ _ h := h
  llog _ _ := ⟨[], (List.append_nil _).symm, by simp⟩
  acked _ _ _ h := h

/-- Led terms stay led. -/
theorem led (h : Later s s') {t : Nat} (ht : s.leader t ≠ none) : s'.leader t ≠ none := by
  obtain ⟨w, hw⟩ := Option.ne_none_iff_exists'.mp ht
  rw [h.leader t w hw]
  exact Option.some_ne_none w

theorem trans (h : Later s s') (h' : Later s' s'') : Later s s'' where
  leader t w hw := h'.leader t w (h.leader t w hw)
  llog t ht := by
    obtain ⟨es, he, het⟩ := h.llog t ht
    obtain ⟨es', he', het'⟩ := h'.llog t (h.led ht)
    refine ⟨es ++ es', by rw [he', he, List.append_assoc], fun e hmem => ?_⟩
    exact (List.mem_append.mp hmem).elim (het e) (het' e)
  acked t v k hk := h'.acked t v k (h.acked t v k hk)

/-- A leader's log is a prefix of what it is later. -/
theorem prefix_llog (h : Later s s') {t : Nat} (ht : s.leader t ≠ none) :
    s.llog t <+: s'.llog t := by
  obtain ⟨es, hes, -⟩ := h.llog t ht
  exact ⟨es, hes.symm⟩

end Later

/-- The steps of one node lead to a later moment. -/
theorem Grows.later {i : ν} {s s' : State ν ε} (h : Grows i s s') : Later s s' :=
  ⟨h.leader, h.llog, h.acked⟩

/-- What is committed stays committed. -/
theorem Committed.later {members : List ν} {s s' : State ν ε} (hs : Later s s') {t : Nat}
    {P : List ε} (h : Committed members s t P) : Committed members s' t P where
  led := hs.led h.led
  pre := h.pre.trans (hs.prefix_llog h.led)
  last := h.last
  acked := h.acked.mono fun v hv => hs.acked t v P.length hv

end RaftEbpf.Lib.Replication
