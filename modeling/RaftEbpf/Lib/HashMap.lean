import Mathlib.Data.List.AList

/-!
# `RaftEbpf.Lib.HashMap`: finite maps with unique keys

`HashMap κ ν` is Mathlib's `AList` at a constant family. The list order stands for the
iteration order of the map, which no client may rely on. `retain` filters by key, and
`countValues` counts the values that pass a test, as a loop over `iter()` does.

* `lookup_retain`: a filtered map looks up the keys that pass, and no others.
* `countValues_eq_length`: the count over the entries is the number of keys that
  `keysWith` lists, each once (`nodup_keysWith`).
* `mem_keysWith`: a key is listed exactly when its value passes.
* `countValues_congr`: maps that look up the same have the same count.
* `lookup_foldl_insert`: what a loop of insertions looks up.
* `perm_filterMap_insert`: what a filter makes of the entries after an insertion.
* `length_filter_lookup_le`: counting at some of the keys counts no more, and the same where
  no other key is in the map (`length_filter_lookup_eq`).
-/

set_option autoImplicit false

namespace RaftEbpf.Lib

/-- A finite map with unique keys. -/
abbrev HashMap (κ ν : Type) : Type := AList (fun _ : κ => ν)

namespace HashMap

variable {κ ν : Type}

/-- Keep the entries whose key passes the test. -/
def retain (p : κ → Bool) (m : HashMap κ ν) : HashMap κ ν :=
  ⟨m.entries.filter (fun e => p e.1), by
    have hsub : (m.entries.filter (fun e => p e.1)).Sublist m.entries :=
      List.filter_sublist
    exact m.nodupKeys.sublist hsub⟩

/-- A filtered map looks up the keys that pass the test, and no others. -/
theorem lookup_retain [DecidableEq κ] (p : κ → Bool) (m : HashMap κ ν) (k : κ) :
    AList.lookup k (retain p m) = if p k then AList.lookup k m else none := by
  have hmem : ∀ v, AList.lookup k (retain p m) = some v
      ↔ AList.lookup k m = some v ∧ p k = true := by
    intro v
    rw [← Option.mem_def, ← Option.mem_def, AList.mem_lookup_iff, AList.mem_lookup_iff]
    exact List.mem_filter
  ext v
  rw [hmem]
  by_cases hk : p k <;> simp [hk]

/-- The number of entries whose value passes the test. -/
def countValues (p : ν → Bool) (m : HashMap κ ν) : Nat :=
  m.entries.countP (fun e => p e.2)

/-- The keys whose value passes the test. -/
def keysWith (p : ν → Bool) (m : HashMap κ ν) : List κ :=
  (m.entries.filter (fun e => p e.2)).map Sigma.fst

/-- The count over the entries is the number of keys with a passing value. -/
theorem countValues_eq_length (p : ν → Bool) (m : HashMap κ ν) :
    countValues p m = (keysWith p m).length := by
  rw [countValues, keysWith, List.length_map, List.countP_eq_length_filter]

/-- No key is counted twice. -/
theorem nodup_keysWith (p : ν → Bool) (m : HashMap κ ν) : (keysWith p m).Nodup :=
  (List.filter_sublist.map Sigma.fst).nodup m.nodupKeys

/-- A key is counted exactly when its value passes the test. -/
theorem mem_keysWith [DecidableEq κ] (p : ν → Bool) (m : HashMap κ ν) (k : κ) :
    k ∈ keysWith p m ↔ ∃ v, AList.lookup k m = some v ∧ p v := by
  rw [keysWith, List.mem_map]
  constructor
  · rintro ⟨⟨k', v⟩, hmem, rfl⟩
    rw [List.mem_filter] at hmem
    exact ⟨v, AList.mem_lookup_iff.mpr hmem.1, hmem.2⟩
  · rintro ⟨v, hv, hp⟩
    exact ⟨⟨k, v⟩, List.mem_filter.mpr ⟨AList.mem_lookup_iff.mp hv, hp⟩, rfl⟩

/-- The count depends on what the map looks up only. -/
theorem countValues_congr [DecidableEq κ] {p : ν → Bool} {m m' : HashMap κ ν}
    (h : ∀ k, AList.lookup k m = AList.lookup k m') : countValues p m = countValues p m' := by
  rw [countValues_eq_length, countValues_eq_length]
  refine List.Perm.length_eq ((List.perm_ext_iff_of_nodup (nodup_keysWith p m)
    (nodup_keysWith p m')).mpr fun k => ?_)
  rw [mem_keysWith, mem_keysWith, h]

/-- An insertion adds one value at most. -/
theorem countValues_insert_le [DecidableEq κ] (p : ν → Bool) (m : HashMap κ ν) (k : κ) (v : ν) :
    countValues p (m.insert k v) ≤ countValues p m + (p v).toNat := by
  have hrest : (m.entries.kerase k).countP (fun e => p e.2) ≤ countValues p m :=
    (List.kerase_sublist k m.entries).countP_le
  rw [countValues, AList.entries_insert, List.countP_cons]
  show _ + (if p v = true then 1 else 0) ≤ _
  cases p v with
  | false => simpa using hrest
  | true => simpa using hrest

/-- A removal takes one value out, the one that was there. -/
theorem countValues_erase [DecidableEq κ] (p : ν → Bool) {m : HashMap κ ν} {k : κ} {v : ν}
    (h : AList.lookup k m = some v) :
    countValues p (m.erase k) + (p v).toNat = countValues p m := by
  have hmem := AList.mem_lookup_iff.mp h
  have hkey : k ∈ m.entries.keys := List.mem_map_of_mem hmem
  obtain ⟨old, l₁, l₂, -, hsplit, herase⟩ := List.exists_of_kerase hkey
  have hold : AList.lookup k m = some old := by
    refine AList.mem_lookup_iff.mpr ?_
    rw [hsplit]
    exact List.mem_append_right _ List.mem_cons_self
  obtain rfl := Option.some.inj (h.symm.trans hold)
  show (m.entries.kerase k).countP (fun e => p e.2) + _ = m.entries.countP (fun e => p e.2)
  rw [herase, hsplit, List.countP_append, List.countP_append, List.countP_cons]
  show _ = _ + (_ + if p v = true then 1 else 0)
  cases p v with
  | false => simp
  | true =>
      simp only [Bool.toNat_true, if_pos]
      omega

/-- A loop that inserts one value at the keys of a list. Induction on the list: a key that comes
again finds the value it put there. -/
theorem lookup_foldl_insert [DecidableEq κ] {v : ν} {ks : List κ} {m : HashMap κ ν} {k : κ} :
    AList.lookup k (ks.foldl (fun m k => m.insert k v) m)
      = if k ∈ ks then some v else AList.lookup k m := by
  induction ks generalizing m with
  | nil => simp
  | cons k' ks ih =>
      rw [List.foldl_cons, ih]
      by_cases hk : k = k'
      · subst hk
        simp [AList.lookup_insert]
      · simp [hk, AList.lookup_insert_ne hk]

/-- What a filter makes of a map after an insertion: the new entry comes in, and the old one under
its key goes out. -/
theorem perm_filterMap_insert [DecidableEq κ] {β : Type} (f : κ → ν → Option β) (m : HashMap κ ν)
    (k : κ) (v : ν) :
    ((f k v).toList ++ m.entries.filterMap fun e => f e.1 e.2).Perm
      (((AList.lookup k m).bind (f k)).toList ++
        (m.insert k v).entries.filterMap fun e => f e.1 e.2) := by
  rw [AList.entries_insert]
  have hinsert : ∀ l : List ((_ : κ) × ν), (⟨k, v⟩ :: l).filterMap (fun e => f e.1 e.2) =
      (f k v).toList ++ l.filterMap fun e => f e.1 e.2 := by
    intro l
    rw [List.filterMap_cons]
    cases f k v with
    | none => rfl
    | some b => rfl
  rw [hinsert]
  by_cases hk : k ∈ m.entries.keys
  · obtain ⟨old, l₁, l₂, -, hsplit, herase⟩ := List.exists_of_kerase hk
    have hold : AList.lookup k m = some old := by
      refine AList.mem_lookup_iff.mpr ?_
      rw [hsplit]
      exact List.mem_append_right _ List.mem_cons_self
    rw [herase, hold, hsplit, List.filterMap_append, List.filterMap_append, List.filterMap_cons,
      Option.bind_some]
    cases hf : f k old with
    | none => exact List.Perm.refl _
    | some b =>
        simp only [Option.toList_some, List.singleton_append]
        rw [← List.append_assoc, ← List.append_assoc]
        exact List.perm_middle
  · rw [List.kerase_of_notMem_keys hk, AList.lookup_eq_none.mpr hk]
    exact List.Perm.refl _

section
variable [DecidableEq κ] {p : ν → Bool} {m : HashMap κ ν} {ks : List κ}

theorem mem_filter_lookup {k : κ} : k ∈ ks.filter (fun k => (AList.lookup k m).any p) ↔
    k ∈ ks ∧ ∃ v, AList.lookup k m = some v ∧ p v := by
  rw [List.mem_filter, Option.any_eq_true]

/-- At the keys of a list no more values pass than in the whole map. -/
theorem length_filter_lookup_le (hks : ks.Nodup) :
    (ks.filter fun k => (AList.lookup k m).any p).length ≤ countValues p m := by
  rw [countValues_eq_length]
  refine (hks.filter _).length_le_of_subset fun k hk => ?_
  rw [mem_keysWith]
  exact (mem_filter_lookup.mp hk).2

/-- The same values pass where the list has all keys of the map. -/
theorem length_filter_lookup_eq (hks : ks.Nodup) (hm : ∀ k ∈ m, k ∈ ks) :
    (ks.filter fun k => (AList.lookup k m).any p).length = countValues p m := by
  refine le_antisymm (length_filter_lookup_le hks) ?_
  rw [countValues_eq_length]
  refine (nodup_keysWith p m).length_le_of_subset fun k hk => ?_
  obtain ⟨v, hv, hp⟩ := (mem_keysWith p m k).mp hk
  refine mem_filter_lookup.mpr ⟨hm k ?_, v, hv, hp⟩
  rw [← AList.lookup_isSome, hv]
  rfl

end

end HashMap

end RaftEbpf.Lib
