import RaftEbpf.Lib.HashMap

/-!
# `RaftEbpf.Lib.BoundedMap`: maps with a fixed number of entries

A map that holds at most `cap` entries, as those of a kernel do. A new key is turned away once
the map is full, and a key that is there can always be changed. The bound is a field.

* `upsert`: change the value of a key, or insert a first value where there is none.
* `lookup_upsert`: what it looks up afterwards, at that key and at the others.
* `mem_of_mem_upsert`: no other key comes in.
-/

set_option autoImplicit false

namespace RaftEbpf.Lib

/-- A map with at most `cap` entries. -/
structure BoundedMap (cap : Nat) (κ ν : Type) where
  entries : HashMap κ ν
  fits : entries.keys.length ≤ cap

namespace BoundedMap

variable {cap : Nat} {κ ν : Type} [DecidableEq κ]

/-- No entries. -/
def empty : BoundedMap cap κ ν := ⟨∅, Nat.zero_le cap⟩

/-- The value of a key. -/
def lookup (m : BoundedMap cap κ ν) (k : κ) : Option ν := AList.lookup k m.entries

theorem lookup_eq_none {m : BoundedMap cap κ ν} {k : κ} :
    m.lookup k = none ↔ k ∉ m.entries.keys :=
  AList.lookup_eq_none

/-- A key that is there takes no more room. -/
theorem length_keys_insert_mem {m : HashMap κ ν} {k : κ} (h : k ∈ m.keys) (v : ν) :
    (m.insert k v).keys.length = m.keys.length := by
  have hpos := List.length_pos_of_mem h
  rw [AList.keys_insert, List.length_cons, List.length_erase_of_mem h]
  omega

theorem length_keys_insert_le (m : HashMap κ ν) (k : κ) (v : ν) :
    (m.insert k v).keys.length ≤ m.keys.length + 1 := by
  rw [AList.keys_insert, List.length_cons]
  exact Nat.succ_le_succ List.length_erase_le

/-- Change the value of a key, or insert a first one where there is none. A new key of a full map
is turned away. -/
def upsert (m : BoundedMap cap κ ν) (k : κ) (change : ν → ν) (first : ν) : BoundedMap cap κ ν :=
  if h : k ∈ m.entries.keys then
    ⟨m.entries.insert k (((m.lookup k).map change).getD first), by
      rw [length_keys_insert_mem h]
      exact m.fits⟩
  else if hroom : m.entries.keys.length < cap then
    ⟨m.entries.insert k first, by
      have hle := length_keys_insert_le m.entries k first
      omega⟩
  else m

/-- What is found afterwards. -/
theorem lookup_upsert (m : BoundedMap cap κ ν) (k : κ) (change : ν → ν) (first : ν) (k' : κ) :
    (m.upsert k change first).lookup k' =
      if k' = k then
        match m.lookup k with
        | some v => some (change v)
        | none => if m.entries.keys.length < cap then some first else none
      else m.lookup k' := by
  by_cases hk : k' = k
  · subst hk
    rw [if_pos rfl, upsert]
    split
    · rename_i hmem
      cases hv : m.lookup k' with
      | none => exact absurd hmem (lookup_eq_none.mp hv)
      | some v => exact AList.lookup_insert _
    · rename_i hmem
      rw [lookup_eq_none.mpr hmem]
      by_cases hroom : m.entries.keys.length < cap
      · simp only [hroom, dif_pos, if_true]
        exact AList.lookup_insert _
      · simp only [hroom, dif_neg, if_false, not_false_eq_true]
        exact lookup_eq_none.mpr hmem
  · rw [if_neg hk, upsert]
    split
    · exact AList.lookup_insert_ne hk
    · split
      · exact AList.lookup_insert_ne hk
      · rfl

theorem mem_of_mem_upsert {m : BoundedMap cap κ ν} {k k' : κ} {change : ν → ν} {first : ν}
    (h : k' ∈ (m.upsert k change first).entries.keys) : k' = k ∨ k' ∈ m.entries.keys := by
  by_cases hk : k' = k
  · exact Or.inl hk
  · refine Or.inr ?_
    by_contra hmem
    have hsame := lookup_upsert m k change first k'
    rw [if_neg hk, lookup_eq_none.mpr hmem] at hsame
    exact lookup_eq_none.mp hsame h

end BoundedMap

end RaftEbpf.Lib
