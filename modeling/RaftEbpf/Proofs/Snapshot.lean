import RaftEbpf.Lib.Redelivery
import RaftEbpf.Lib.Utf8
import RaftEbpf.Proofs.LogList
import RaftEbpf.StateMachine

/-!
# `RaftEbpf.Proofs.Snapshot`: a snapshot and the entries after it

A state machine that is restored from a snapshot and then receives the entries behind it, in order
and with any repetitions, ends as a machine that applied all entries once (`snapshot_replay`). The
order of the keys in the map may differ; what is under each key does not.

`bincode` below is the encoding of maps that the daemon uses, for the run at the end.
-/

set_option autoImplicit false

namespace RaftEbpf

open RaftEbpf.Lib (HashMap Redelivered Utf8.bytes)

/-- The start of a numbered list. -/
theorem Numbered.take {l : List LogEntry} (hl : Numbered l) (k : Nat) : Numbered (l.take k) := by
  intro j e hj
  rw [List.getElem?_take] at hj
  split at hj
  · exact hl j e hj
  · cases hj

namespace StateMachine

/-- The same counter, and the same value under each key. -/
structure Same (sm sm' : StateMachine) : Prop where
  lastApplied : sm.lastApplied = sm'.lastApplied
  lookup : ∀ key, sm.data.lookup key = sm'.data.lookup key

/-- A new machine after these entries. -/
def replay (l : List LogEntry) : StateMachine := l.foldl apply new

/-- One more delivery, of the entry at this position. -/
def deliver (l : List LogEntry) (sm : StateMachine) (i : Nat) : StateMachine :=
  match l[i - 1]? with
  | some e => sm.apply e
  | none => sm

/-- A map that is serialised comes back with the same contents. -/
def Bincode.RoundTrips (bincode : Bincode) (data : HashMap String (List UInt8)) : Prop :=
  ∃ bytes data', bincode.serialize data = some bytes ∧ bincode.deserialize bytes = some data' ∧
    ∀ key, data'.lookup key = data.lookup key

/-- A command does the same to maps with the same contents. -/
theorem Same.apply {sm sm' : StateMachine} (h : sm.Same sm') (e : LogEntry) :
    (sm.apply e).Same (sm'.apply e) := by
  rw [StateMachine.apply, StateMachine.apply, h.lastApplied]
  split
  · exact h
  · constructor
    · rfl
    · intro key
      cases e.command with
      | put k v =>
          show (sm.data.insert k.asStr v.toVec).lookup key = _
          by_cases hkey : key = k.asStr
          · rw [hkey, AList.lookup_insert, AList.lookup_insert]
          · rw [AList.lookup_insert_ne hkey, AList.lookup_insert_ne hkey]
            exact h.lookup key
      | delete k =>
          show (sm.data.erase k.asStr).lookup key = _
          by_cases hkey : key = k.asStr
          · rw [hkey, AList.lookup_erase, AList.lookup_erase]
          · rw [AList.lookup_erase_ne hkey, AList.lookup_erase_ne hkey]
            exact h.lookup key
      | noop => exact h.lookup key

/-- An entry that is applied already changes nothing. -/
theorem apply_old {sm : StateMachine} {e : LogEntry} (h : e.index ≤ sm.lastApplied) :
    sm.apply e = sm := by
  rw [StateMachine.apply, if_pos h]

section Replay
variable {l : List LogEntry} (hl : Numbered l)
include hl

theorem lastApplied_replay : (replay l).lastApplied = l.length := by
  induction l using List.reverseRecOn with
  | nil => rfl
  | append_singleton l e ih =>
      have hinit : Numbered l := fun i d hd => hl i d (by
        rw [List.getElem?_append_left (List.getElem?_eq_some_iff.mp hd).1]
        exact hd)
      have hindex : e.index = l.length + 1 := hl l.length e (by simp)
      rw [replay, List.foldl_append, List.foldl_cons, List.foldl_nil, List.length_append]
      show ((replay l).apply e).lastApplied = l.length + 1
      rw [StateMachine.apply, ih hinit, if_neg (by omega)]
      exact hindex

/-- The next entry takes the machine one entry further. -/
theorem Same.deliver_fresh {i : Nat} {sm : StateMachine} (hi : i < l.length)
    (h : sm.Same (replay (l.take i))) :
    (deliver l sm (i + 1)).Same (replay (l.take (i + 1))) := by
  have hget : l[i + 1 - 1]? = some l[i] := List.getElem?_eq_getElem hi
  rw [deliver, hget, List.take_succ_eq_append_getElem hi, replay, List.foldl_append]
  exact h.apply l[i]

/-- An entry at or below the counter is skipped. -/
theorem Same.deliver_again {highest i : Nat} {sm : StateMachine} (hi : 1 ≤ i) (hle : i ≤ highest)
    (hhighest : highest ≤ l.length) (h : sm.Same (replay (l.take highest))) :
    (deliver l sm i).Same (replay (l.take highest)) := by
  have hcounter : sm.lastApplied = highest := by
    rw [h.lastApplied, lastApplied_replay (hl.take highest), List.length_take]
    omega
  have hplace : i - 1 < l.length := by omega
  have hget : l[i - 1]? = some l[i - 1] := List.getElem?_eq_getElem hplace
  have hindex := hl (i - 1) _ hget
  rw [deliver, hget]
  show (sm.apply _).Same _
  rw [apply_old (by omega)]
  exact h

end Replay

/-- What a machine restored from the snapshot of another one has. -/
theorem restore_snapshot {bincode : Bincode} {sm : StateMachine}
    (hround : bincode.RoundTrips sm.data) (old : StateMachine) :
    ((old.restore bincode (sm.snapshot bincode) sm.lastApplied).1).Same sm ∧
      (old.restore bincode (sm.snapshot bincode) sm.lastApplied).2 = some () := by
  obtain ⟨bytes, data', hserialize, hdeserialize, hlookup⟩ := hround
  have hbytes : sm.snapshot bincode = bytes := by
    rw [snapshot, hserialize]
    rfl
  rw [hbytes, restore, hdeserialize]
  exact ⟨⟨rfl, hlookup⟩, rfl⟩

end StateMachine

open StateMachine

/-- Entries at the indices `1 .. n`. A machine restored from a snapshot of the first `k` receives
the entries from `j` on in order, with entries up to the highest so far again at any time. It ends
with the data and the counter of a machine that applied each entry once. A snapshot that does not
decode is an error, and changes nothing. -/
theorem snapshot_replay {bincode : Bincode} {l : List LogEntry} (hl : Numbered l) {k j : Nat}
    (hk : k ≤ l.length) (hj : 1 ≤ j) (hjk : j ≤ k + 1)
    (hround : bincode.RoundTrips (replay (l.take k)).data) {ds : List Nat}
    (hds : Redelivered l.length j k ds) (old : StateMachine) :
    let restored := old.restore bincode ((replay (l.take k)).snapshot bincode) k
    restored.2 = some () ∧ (ds.foldl (deliver l) restored.1).Same (replay l) ∧
      ∀ bytes index, bincode.deserialize bytes = none →
        old.restore bincode bytes index = (old, none) := by
  have hcounter : (replay (l.take k)).lastApplied = k := by
    rw [lastApplied_replay (hl.take k), List.length_take]
    omega
  obtain ⟨hsame, hok⟩ := restore_snapshot hround old
  rw [hcounter] at hsame hok
  refine ⟨hok, ?_, ?_⟩
  · -- `I i sm`: the machine is as after the first `i` entries.
    have hend := hds.invariant (deliver l) (I := fun i sm => sm.Same (replay (l.take i)))
      (fun i sm hi hsm => Same.deliver_fresh hl hi hsm)
      (fun highest i sm hi hle hn hsm => Same.deliver_again hl hi hle hn hsm) hj hjk hk hsame
    rwa [List.take_length] at hend
  · intro bytes index hnone
    rw [restore, hnone]

/-! ### The encoding of maps -/

namespace Bincode

/-- A `u64`: eight bytes, the lowest first. -/
def u64 (n : Nat) : List UInt8 := (List.range 8).map fun i => UInt8.ofNat (n / 256 ^ i)

def readU64 : List UInt8 → Option (Nat × List UInt8)
  | b0 :: b1 :: b2 :: b3 :: b4 :: b5 :: b6 :: b7 :: t =>
      some ([b0, b1, b2, b3, b4, b5, b6, b7].foldr (fun b n => b.toNat + 256 * n) 0, t)
  | _ => none

/-- Bytes behind their length. -/
def sized (bytes : List UInt8) : List UInt8 := u64 bytes.length ++ bytes

def readSized (t : List UInt8) : Option (List UInt8 × List UInt8) := do
  let (n, t) ← readU64 t
  guard (n ≤ t.length)
  return (t.take n, t.drop n)

/-- The keys and values that follow the number of entries. -/
def readEntries : Nat → List UInt8 → Option (HashMap String (List UInt8))
  | 0, _ => some ∅
  | n + 1, t => do
      let (key, t) ← readSized t
      let key ← String.fromUTF8? ⟨key.toArray⟩
      let (value, t) ← readSized t
      let rest ← readEntries n t
      return rest.insert key value

end Bincode

/-- `bincode::serialize` and `bincode::deserialize` on maps of strings to bytes. -/
def bincode : Bincode where
  serialize data := some (Bincode.u64 data.entries.length ++ data.entries.flatMap fun e =>
    Bincode.sized (Utf8.bytes e.1) ++ Bincode.sized e.2)
  deserialize t := do
    let (n, t) ← Bincode.readU64 t
    Bincode.readEntries n t

/-- Two values under one key, the second one under another as well, and the key deleted. -/
def fourEntries : List LogEntry :=
  [⟨1, 1, .put (.pushStr 256 "k") (.collectTake 1024 [1])⟩,
    ⟨2, 1, .put (.pushStr 256 "k") (.collectTake 1024 [2])⟩,
    ⟨3, 2, .put (.pushStr 256 "j") (.collectTake 1024 [2])⟩, ⟨4, 2, .delete (.pushStr 256 "k")⟩]

/-- A snapshot of two entries, and the second entry comes again at the end. -/
theorem snapshot_replay_four :
    let restored := StateMachine.new.restore bincode
      ((replay (fourEntries.take 2)).snapshot bincode) 2
    restored.2 = some () ∧ ([2, 3, 1, 4, 2].foldl (deliver fourEntries) restored.1).Same
        (replay fourEntries) ∧
      ∀ bytes index, bincode.deserialize bytes = none →
        StateMachine.new.restore bincode bytes index = (.new, none) := by
  have hnumbered : Numbered fourEntries := by
    intro i e he
    match i, he with
    | 0, he | 1, he | 2, he | 3, he =>
        obtain rfl := Option.some.inj he
        rfl
  have hround : bincode.RoundTrips (replay (fourEntries.take 2)).data := by
    have hread : (bincode.deserialize ((replay (fourEntries.take 2)).snapshot bincode)).map
        AList.entries = some (replay (fourEntries.take 2)).data.entries := by
      decide +kernel
    obtain ⟨data', hdeserialize, hentries⟩ := Option.map_eq_some_iff.mp hread
    exact ⟨_, data', rfl, hdeserialize, fun key => by rw [AList.ext hentries]⟩
  have hds : Redelivered fourEntries.length 2 2 [2, 3, 1, 4, 2] :=
    .fresh (by decide) (.fresh (by decide) (.again (by decide) (by decide)
      (.fresh (by decide) (.again (by decide) (by decide) .done))))
  exact snapshot_replay hnumbered (by decide) (by decide) (by decide) hround hds .new

end RaftEbpf
