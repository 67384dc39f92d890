import Mathlib.Data.List.Flatten
import Mathlib.Data.List.Perm.Basic

/-!
# `RaftEbpf.Lib.Pool`: what is held at several places

`pool` gathers what is held at some places. A step of a system changes what one place holds, and
`exists_pool_perm` sets that place apart, so that the step is one on the pool, the order aside.

`exists_getElem?_of_perm_cons` finds an element of a pool in another list of the same elements, and
takes it out of both.
-/

set_option autoImplicit false

namespace RaftEbpf.Lib

variable {ι α β : Type}

/-- What is held at these places, together. -/
def pool (places : List ι) (held : ι → List α) : List α := places.flatMap held

/-- One place apart from the others, whatever it holds. -/
theorem exists_pool_perm {places : List ι} (hnd : places.Nodup) {i : ι} (hi : i ∈ places)
    (held : ι → List α) :
    ∃ others, ∀ held' : ι → List α, (∀ j ∈ places, j ≠ i → held' j = held j) →
      (pool places held').Perm (held' i ++ others) := by
  classical
  refine ⟨(places.erase i).flatMap held, fun held' hothers => ?_⟩
  have hrest : (places.erase i).flatMap held' = (places.erase i).flatMap held := by
    refine List.flatMap_congr fun j hj => ?_
    have hmem := (hnd.mem_erase_iff).mp hj
    exact hothers j hmem.2 hmem.1
  have hperm := (List.perm_cons_erase hi).flatMap_right held'
  rw [List.flatMap_cons, hrest] at hperm
  exact hperm

/-- Where each place holds less, so does the pool. -/
theorem pool_sublist {places : List ι} {held held' : ι → List α}
    (h : ∀ i ∈ places, (held' i).Sublist (held i)) :
    (pool places held').Sublist (pool places held) :=
  List.Sublist.flatMap_right places h

/-- An element of one list is somewhere in the other, and the rest of the two agrees. -/
theorem exists_getElem?_of_perm_cons {g : β → α} {l : List β} {a : α} {rest : List α}
    (h : (l.map g).Perm (a :: rest)) :
    ∃ k b, l[k]? = some b ∧ g b = a ∧ ((l.eraseIdx k).map g).Perm rest := by
  obtain ⟨b, hb, hga⟩ := List.mem_map.mp (h.mem_iff.mpr List.mem_cons_self)
  obtain ⟨k, hk, rfl⟩ := List.getElem_of_mem hb
  refine ⟨k, l[k], List.getElem?_eq_getElem hk, hga, ?_⟩
  have herased := ((List.getElem_cons_eraseIdx_perm hk).map g).trans h
  rw [List.map_cons, hga] at herased
  exact List.Perm.cons_inv herased

end RaftEbpf.Lib
