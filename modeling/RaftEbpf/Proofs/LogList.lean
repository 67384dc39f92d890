import Mathlib.Data.List.Induction
import RaftEbpf.Log

/-!
# `RaftEbpf.Proofs.LogList`: the log as a list, in memory and on disk

`RaftLog` keeps its entries in a map keyed by index and mirrors them in `log.jsonl`.
`Holds log l` says that both are the list `l`: the map holds `l` at the indices
`1 .. l.length`, and a load of the file gives the same map. Each operation of the log is
then an operation on the list, and the file follows.

* `Holds.append`, `Holds.appendEntry`, `Holds.truncateFrom`: the operations on the list.
* `Holds.getEntries`, `Holds.get`, `Holds.lastIndex`: what the reading functions return.
* `Holds.reload`: a new log on the same directory holds the same list, term and vote.
-/

set_option autoImplicit false

namespace RaftEbpf

open RaftEbpf.Lib (HashMap)

/-- Entries carry their own position, counted from 1. -/
def Numbered (l : List LogEntry) : Prop := ∀ i e, l[i]? = some e → e.index = i + 1

/-- The map and the last index are the list. -/
structure Represents (entries : HashMap Nat LogEntry) (lastIndex : Nat) (l : List LogEntry) :
    Prop where
  last : lastIndex = l.length
  lookup : ∀ i, entries.lookup i = if i = 0 then none else l[i - 1]?
  numbered : Numbered l

/-- The list after an entry is stored at position `i`: the entry there is replaced, or the
entry joins the end. -/
def putAt (l : List LogEntry) (i : Nat) (e : LogEntry) : List LogEntry :=
  l.take i ++ e :: l.drop (i + 1)

theorem length_putAt {l : List LogEntry} {i : Nat} (e : LogEntry) (hi : i ≤ l.length) :
    (putAt l i e).length = max l.length (i + 1) := by
  simp only [putAt, List.length_append, List.length_take, List.length_cons, List.length_drop]
  omega

theorem getElem?_putAt {l : List LogEntry} {i : Nat} (e : LogEntry) (hi : i ≤ l.length)
    (j : Nat) : (putAt l i e)[j]? = if j = i then some e else l[j]? := by
  have hlen : (l.take i).length = i := by rw [List.length_take]; omega
  rw [putAt]
  rcases lt_trichotomy j i with hj | rfl | hj
  · rw [List.getElem?_append_left (by omega), List.getElem?_take_of_lt hj, if_neg (Nat.ne_of_lt hj)]
  · rw [List.getElem?_append_right (by omega), hlen, Nat.sub_self, if_pos rfl]
    rfl
  · rw [List.getElem?_append_right (by omega), hlen, if_neg (Nat.ne_of_gt hj)]
    obtain ⟨k, rfl⟩ : ∃ k, j = i + 1 + k := ⟨j - (i + 1), by omega⟩
    rw [show i + 1 + k - i = k + 1 by omega, List.getElem?_cons_succ, List.getElem?_drop]

namespace Represents

theorem empty : Represents ∅ 0 [] := ⟨rfl, fun i => by simp, fun i e h => by simp at h⟩

/-- One insertion at the entry's own index, at most one past the end. -/
theorem insert {m : HashMap Nat LogEntry} {n : Nat} {l : List LogEntry} {i : Nat}
    {e : LogEntry} (h : Represents m n l) (he : e.index = i + 1) (hi : i ≤ l.length) :
    Represents (m.insert e.index e) (max n e.index) (putAt l i e) where
  last := by rw [length_putAt e hi, h.last, he]
  lookup j := by
    by_cases hj : j = e.index
    · subst hj
      rw [AList.lookup_insert, he, if_neg (Nat.succ_ne_zero i), Nat.add_sub_cancel,
        getElem?_putAt e hi, if_pos rfl]
    · rw [AList.lookup_insert_ne hj, h.lookup]
      split
      · rfl
      · rw [getElem?_putAt e hi, if_neg (by omega)]
  numbered j d hd := by
    rw [getElem?_putAt e hi] at hd
    split at hd
    · obtain rfl := Option.some.inj hd
      omega
    · exact h.numbered j d hd

/-- Only the entries below `fromIndex` are kept. -/
theorem retain {m : HashMap Nat LogEntry} {n k : Nat} {l : List LogEntry}
    (h : Represents m n l) (hk : k ≤ l.length) :
    Represents (m.retain (fun idx => decide (idx < k + 1))) k (l.take k) where
  last := by rw [List.length_take]; omega
  lookup j := by
    rw [HashMap.lookup_retain, h.lookup]
    by_cases hj : j = 0
    · simp [hj]
    · by_cases hjk : j < k + 1
      · rw [if_pos (by simpa using hjk), if_neg hj, List.getElem?_take_of_lt (by omega)]
        simp [hj]
      · rw [if_neg (by simpa using hjk), if_neg hj, List.getElem?_eq_none]
        rw [List.length_take]
        omega
  numbered j d hd := h.numbered j d (by
    have hlt := (List.getElem?_eq_some_iff.mp hd).1
    rw [List.length_take] at hlt
    rwa [List.getElem?_take_of_lt (by omega)] at hd)

/-- The entries found at a range of indices. -/
theorem filterMap_range' {m : HashMap Nat LogEntry} {n : Nat} {l : List LogEntry}
    (h : Represents m n l) (k count : Nat) :
    (List.range' (k + 1) count).filterMap m.lookup = (l.drop k).take count := by
  induction count generalizing k with
  | zero => simp
  | succ count ih =>
      have hk : m.lookup (k + 1) = l[k]? := by
        rw [h.lookup, if_neg (Nat.succ_ne_zero k), Nat.add_sub_cancel]
      rw [List.range'_succ, List.filterMap_cons, hk, ih (k + 1)]
      cases hlk : l[k]? with
      | none =>
          have hle : l.length ≤ k := List.getElem?_eq_none_iff.mp hlk
          rw [List.drop_of_length_le hle, List.drop_of_length_le (by omega)]
          simp
      | some e =>
          obtain ⟨hlt, hget⟩ := List.getElem?_eq_some_iff.mp hlk
          rw [List.drop_eq_getElem_cons hlt, hget]
          rfl

end Represents

/-- A log that is a list has the entry at each place of the list. -/
theorem get_of_represents {log : RaftLog} {l : List LogEntry} {e : LogEntry} {i : Nat}
    (h : Represents log.entries log.lastIndex l) :
    log.get i = some e ↔ ∃ k, i = k + 1 ∧ l[k]? = some e := by
  rw [RaftLog.get, h.lookup]
  cases i with
  | zero => simp
  | succ k => simp

namespace RaftLog

/-! ### The lines of `log.jsonl` -/

/-- What is written for an entry reads back as the entry. -/
@[simp] theorem diskEntryToLogEntry_entryToDisk (e : LogEntry) :
    diskEntryToLogEntry (entryToDisk e) = e := by
  obtain ⟨i, t, c⟩ := e
  cases c <;> simp [diskEntryToLogEntry, entryToDisk]

/-- The load loop touches neither the directory nor the persistent state. -/
theorem foldl_loadLine_frame (lines : List DiskLogEntry) (log : RaftLog) :
    (lines.foldl loadLine log).dataDir = log.dataDir ∧
    (lines.foldl loadLine log).persistentState = log.persistentState := by
  induction lines generalizing log with
  | nil => exact ⟨rfl, rfl⟩
  | cons line lines ih => exact ih (loadLine log line)

/-- A load keeps the directory that it read. -/
theorem new_dataDir {dir : DataDir} {log : RaftLog} (h : RaftLog.new dir = some log) :
    log.dataDir = dir := by
  rw [RaftLog.new, loadFromDisk] at h
  split at h
  · obtain rfl := Option.some.inj h
    exact (foldl_loadLine_frame _ _).1
  · obtain rfl := Option.some.inj h
    exact (foldl_loadLine_frame _ _).1
  · cases h

/-- A load of the lines into an empty log gives the list. -/
def LoadsTo (lines : List DiskLogEntry) (l : List LogEntry) : Prop :=
  ∀ log : RaftLog, log.entries = ∅ → log.lastIndex = 0 →
    Represents (lines.foldl loadLine log).entries (lines.foldl loadLine log).lastIndex l

theorem LoadsTo.nil : LoadsTo [] [] := by
  intro log he hl
  show Represents log.entries log.lastIndex []
  rw [he, hl]
  exact Represents.empty

/-- One more line stores its entry. -/
theorem LoadsTo.snoc {lines : List DiskLogEntry} {l : List LogEntry} {i : Nat} {e : LogEntry}
    (h : LoadsTo lines l) (he : e.index = i + 1) (hi : i ≤ l.length) :
    LoadsTo (lines ++ [entryToDisk e]) (putAt l i e) := by
  intro log hentries hlast
  rw [List.foldl_append]
  simp only [List.foldl_cons, List.foldl_nil, loadLine, diskEntryToLogEntry_entryToDisk]
  exact (h log hentries hlast).insert he hi

/-- The lines of a numbered list load to the list. Induction from the end: each line joins
the list that the lines before it load to. -/
theorem LoadsTo.map_entryToDisk {l : List LogEntry} (h : Numbered l) :
    LoadsTo (l.map entryToDisk) l := by
  induction l using List.reverseRecOn with
  | nil => exact LoadsTo.nil
  | append_singleton l e ih =>
      have hl : Numbered l := fun i d hd => h i d (by
        rw [List.getElem?_append_left (List.getElem?_eq_some_iff.mp hd).1]
        exact hd)
      have he : e.index = l.length + 1 := h l.length e (by simp)
      have hput : putAt l l.length e = l ++ [e] := by simp [putAt]
      rw [List.map_append, List.map_singleton, ← hput]
      exact (ih hl).snoc he le_rfl

/-! ### The log as a list -/

/-- The log is the list: in memory, and in `log.jsonl`; and `state.json` holds the
persistent state, or nothing was written yet. -/
structure Holds (log : RaftLog) (l : List LogEntry) : Prop where
  mem : Represents log.entries log.lastIndex l
  disk : LoadsTo log.dataDir.logJsonl l
  stateJson : log.dataDir.stateJson = .json log.persistentState ∨
    (log.dataDir.stateJson = .absent ∧ log.persistentState = .default)

/-- A log that is the list in memory holds it, on a directory with the lines of the list. -/
theorem holds_of_represents {log : RaftLog} {l : List LogEntry}
    (h : Represents log.entries log.lastIndex l) :
    Holds { log with dataDir := ⟨.json log.persistentState, l.map entryToDisk⟩ } l :=
  ⟨h, LoadsTo.map_entryToDisk h.numbered, Or.inl rfl⟩

namespace Holds

variable {log : RaftLog} {l : List LogEntry}

/-- A log on an empty directory is empty. -/
theorem empty : Holds (unloaded .empty) [] :=
  ⟨Represents.empty, LoadsTo.nil, Or.inr ⟨rfl, rfl⟩⟩

theorem numbered (h : Holds log l) : Numbered l := h.mem.numbered

theorem lastIndex (h : Holds log l) : log.lastIndex = l.length := h.mem.last

theorem get (h : Holds log l) (i : Nat) : log.get i = if i = 0 then none else l[i - 1]? :=
  h.mem.lookup i

theorem get_succ (h : Holds log l) (i : Nat) : log.get (i + 1) = l[i]? := by
  rw [h.get, if_neg (Nat.succ_ne_zero i), Nat.add_sub_cancel]

/-- A write of `state.json` that succeeds leaves the entries alone. -/
theorem setCurrentTerm (h : Holds log l) (term : Nat) : Holds (log.setCurrentTerm term .ok) l :=
  ⟨h.mem, h.disk, Or.inl rfl⟩

theorem setVotedFor (h : Holds log l) (candidateId : Option String) :
    Holds (log.setVotedFor candidateId .ok) l :=
  ⟨h.mem, h.disk, Or.inl rfl⟩

/-- `append_entries` of one entry, at most one past the end. -/
theorem appendEntry {i : Nat} {e : LogEntry} (h : Holds log l) (he : e.index = i + 1)
    (hi : i ≤ l.length) : Holds (log.appendEntry e) (putAt l i e) :=
  ⟨h.mem.insert he hi, h.disk.snoc he hi, h.stateJson⟩

/-- `append` joins the new entry to the end. -/
theorem append (h : Holds log l) (term : Nat) (command : Command)
    (hshort : log.lastIndex < u64Max) :
    (log.append term command).2 = l.length + 1 ∧
    Holds (log.append term command).1 (l ++ [⟨l.length + 1, term, command⟩]) := by
  have hidx : addOne log.lastIndex = l.length + 1 := by rw [addOne_of_lt hshort, h.lastIndex]
  have hmem := h.mem.insert (e := ⟨l.length + 1, term, command⟩) rfl le_rfl
  have hdisk := h.disk.snoc (e := ⟨l.length + 1, term, command⟩) rfl le_rfl
  have hput : ∀ e, putAt l l.length e = l ++ [e] := fun e => by simp [putAt]
  have hmax : max log.lastIndex (l.length + 1) = l.length + 1 := by rw [h.lastIndex]; omega
  rw [hput] at hmem hdisk
  simp only [hmax] at hmem
  refine ⟨hidx, ?_, ?_, h.stateJson⟩
  · simp only [RaftLog.append, hidx]
    exact hmem
  · simp only [RaftLog.append, hidx]
    exact hdisk

/-- `truncate_from` keeps the entries below its argument. -/
theorem truncateFrom {k : Nat} (h : Holds log l) (hk : k ≤ l.length) :
    Holds (log.truncateFrom (k + 1)) (l.take k) := by
  have hmem := h.mem.retain hk
  refine ⟨hmem, ?_, h.stateJson⟩
  show LoadsTo (keptLines (log.entries.retain (fun idx => decide (idx < k + 1))) (k + 1))
    (l.take k)
  rw [keptLines, Nat.add_sub_cancel, ← List.map_filterMap]
  rw [show (1 : Nat) = 0 + 1 from rfl, hmem.filterMap_range', List.drop_zero,
    List.take_take, Nat.min_self]
  exact LoadsTo.map_entryToDisk hmem.numbered

/-- `get_entries` reads the list from `startIndex` on. A `startIndex` of 0 reads as 1. -/
theorem getEntries (h : Holds log l) (startIndex : Nat) :
    log.getEntries startIndex log.lastIndex = l.drop (startIndex - 1) := by
  have hsucc : ∀ k, log.getEntries (k + 1) log.lastIndex = l.drop k := by
    intro k
    show (List.range' (k + 1) _).filterMap log.entries.lookup = l.drop k
    rw [h.mem.filterMap_range', List.take_of_length_le]
    rw [List.length_drop, h.lastIndex]
    omega
  cases startIndex with
  | succ k => exact hsucc k
  | zero =>
      have h0 : log.get 0 = none := by rw [h.get, if_pos rfl]
      rw [RaftLog.getEntries, Nat.sub_zero, List.range'_succ, List.filterMap_cons, h0]
      exact hsucc 0

/-- A new log on the same directory holds the same list, term and vote. -/
theorem reload (h : Holds log l) : ∃ log', RaftLog.new log.dataDir = some log' ∧
    Holds log' l ∧ log'.persistentState = log.persistentState := by
  have hload : ∀ start : RaftLog, start.entries = ∅ → start.lastIndex = 0 →
      start.dataDir = log.dataDir → start.persistentState = log.persistentState →
      Holds (log.dataDir.logJsonl.foldl loadLine start) l ∧
        (log.dataDir.logJsonl.foldl loadLine start).persistentState = log.persistentState := by
    intro start he hl hd hp
    obtain ⟨hd', hp'⟩ := foldl_loadLine_frame log.dataDir.logJsonl start
    refine ⟨⟨h.disk start he hl, ?_, ?_⟩, hp'.trans hp⟩
    · rw [hd', hd]
      exact h.disk
    · rw [hd', hp', hd, hp]
      exact h.stateJson
  rcases h.stateJson with hj | ⟨hj, hdef⟩
  · refine ⟨_, by simp [RaftLog.new, loadFromDisk, unloaded, hj]; rfl, ?_⟩
    exact hload _ rfl rfl rfl rfl
  · refine ⟨_, by simp [RaftLog.new, loadFromDisk, unloaded, hj]; rfl, ?_⟩
    exact hload _ rfl rfl rfl hdef.symm

end Holds

end RaftLog

end RaftEbpf
