import RaftEbpf.Lib.Replication.Later

/-!
# `RaftEbpf.Lib.Replication.Order`: the order of committed entries

Committed prefixes are prefixes of each other, so that there is one order of all committed entries.

* `Committed.getElem?_eq`: two committed prefixes have the same entry at an index.
* `Committed.ne_next`: what a leader appends next is no entry of a prefix committed before. So it
  gets an index behind that prefix, or never is committed.
* `exists_upper`: finitely many committed prefixes are prefixes of one list.
-/

set_option autoImplicit false

namespace RaftEbpf.Lib.Replication

variable {ν ε : Type} [Termed ε] {members : List ν} {s : State ν ε}

omit [Termed ε] in
/-- An entry of a prefix, at its index. -/
theorem getElem?_of_prefix {P L : List ε} (h : P <+: L) {k : Nat} {e : ε} (hk : P[k]? = some e) :
    L[k]? = some e := by
  obtain ⟨hlt, rfl⟩ := List.getElem?_eq_some_iff.mp hk
  exact List.prefix_iff_getElem?.mp h k hlt

/-- Two committed prefixes that reach an index have the same entry there. -/
theorem Committed.getElem?_eq (hinv : Inv s) (hack : AckInv s) (hq : Quorate members s)
    {t t' : Nat} {P P' : List ε} (h : Committed members s t P) (h' : Committed members s t' P')
    {k : Nat} {e : ε} (hk : k < P.length) (hk' : P'[k]? = some e) : P[k]? = some e := by
  rcases h.agree hinv hack hq h' with hpre | hpre
  · -- What the shorter one has at the index, the longer one has too.
    have hget := getElem?_of_prefix hpre (List.getElem?_eq_getElem hk)
    rw [List.getElem?_eq_getElem hk, ← hget, hk']
  · exact getElem?_of_prefix hpre hk'

/-- The entry that the leader of a term appends next is not in a prefix that is committed by
then. The prefix is in the log of some leader, and an entry of this term there is one that the
leader of this term has already. -/
theorem Committed.ne_next (hinv : Inv s) {t : Nat} {P : List ε} (h : Committed members s t P)
    (e : ε) : P[(s.llog (termOf e)).length]? ≠ some e := by
  intro hget
  obtain ⟨hlt, heq⟩ := List.getElem?_eq_some_iff.mp hget
  have hpre : P.take (s.llog (termOf e)).length ++ [e] <+: s.llog t := by
    have htake := List.take_append_getElem hlt
    rw [heq] at htake
    rw [htake]
    exact (List.take_prefix _ P).trans h.pre
  have hlen := (hinv.llogAnchored t _ e hpre).2.length_le
  rw [List.length_append, List.length_take, List.length_singleton] at hlen
  omega

/-- The empty list, or a committed prefix. -/
def Settled (members : List ν) (s : State ν ε) (P : List ε) : Prop :=
  P = [] ∨ ∃ t, Committed members s t P

theorem Settled.agree (hinv : Inv s) (hack : AckInv s) (hq : Quorate members s) {P P' : List ε}
    (h : Settled members s P) (h' : Settled members s P') : P <+: P' ∨ P' <+: P := by
  rcases h with rfl | ⟨t, h⟩
  · exact Or.inl (List.nil_prefix)
  · rcases h' with rfl | ⟨t', h'⟩
    · exact Or.inr (List.nil_prefix)
    · exact h.agree hinv hack hq h'

/-- One list has all these committed prefixes. Induction on how many there are. -/
theorem exists_upper {α : Type} (hinv : Inv s) (hack : AckInv s) (hq : Quorate members s)
    (family : α → List ε → Prop) (xs : List α)
    (h : ∀ x ∈ xs, ∃ P, Settled members s P ∧ family x P) :
    ∃ L, Settled members s L ∧ ∀ x ∈ xs, ∃ P, family x P ∧ P <+: L := by
  induction xs with
  | nil => exact ⟨[], Or.inl rfl, List.forall_mem_nil _⟩
  | cons x xs ih =>
      obtain ⟨L, hL, hall⟩ := ih fun y hy => h y (List.mem_cons_of_mem _ hy)
      obtain ⟨P, hP, hfam⟩ := h x List.mem_cons_self
      rcases hP.agree hinv hack hq hL with hpre | hpre
      · exact ⟨L, hL, List.forall_mem_cons.mpr ⟨⟨P, hfam, hpre⟩, hall⟩⟩
      · refine ⟨P, hP, List.forall_mem_cons.mpr ⟨⟨P, hfam, List.prefix_refl P⟩, fun y hy => ?_⟩⟩
        obtain ⟨Q, hfamQ, hQ⟩ := hall y hy
        exact ⟨Q, hfamQ, hQ.trans hpre⟩

end RaftEbpf.Lib.Replication
