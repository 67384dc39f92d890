import RaftEbpf.Lib.HashMap
import RaftEbpf.Protocol
import RaftEbpf.State

/-!
# `RaftEbpf.Log`: the persistent log

`RaftLog` of `raft/src/log.rs`. The field `dataDir` holds what the data directory contains:
`state.json` and the lines of `log.jsonl`. `serde_json` is taken at its word: a line or a
file is the value that was serialised into it.

A write of `state.json` may fail, and the caller of the model says how (`WriteResult`):
the write returns `Ok`, or it returns `Err` and leaves the old content, or it returns `Err`
and leaves a file that does not parse. In memory the field is set before the file is
written, so a failed write leaves the new value in memory. The writes of `log.jsonl`
succeed at this level.
-/

set_option autoImplicit false

namespace RaftEbpf

open RaftEbpf.Lib (HashMap)

/-- Serializable log entry for disk storage: one line of `log.jsonl`. -/
structure DiskLogEntry where
  index : Nat
  term : Nat
  commandType : String
  key : Option String
  value : Option (List UInt8)
  deriving DecidableEq

/-- What `state.json` holds. -/
inductive StateFile where
  /-- The file does not exist. -/
  | absent
  /-- The file parses to this state. -/
  | json (ps : PersistentState)
  /-- The file exists and does not parse. -/
  | unparsable
  deriving DecidableEq

/-- The data directory. -/
structure DataDir where
  stateJson : StateFile
  logJsonl : List DiskLogEntry
  deriving DecidableEq

/-- An empty data directory. -/
def DataDir.empty : DataDir := ⟨.absent, []⟩

/-- The outcome of one `fs::write` of `state.json`. -/
inductive WriteResult where
  | ok
  /-- `Err`, and the file keeps its old content. -/
  | errOld
  /-- `Err`, and the file is left truncated or cut off. -/
  | errUnparsable
  deriving DecidableEq

instance : Inhabited WriteResult := ⟨.ok⟩

/-- Persistent log storage. -/
structure RaftLog where
  /-- The contents of the data directory. -/
  dataDir : DataDir
  /-- In-memory log entries (index -> entry). -/
  entries : HashMap Nat LogEntry
  /-- Persistent state. -/
  persistentState : PersistentState
  /-- Last log index. -/
  lastIndex : Nat

namespace RaftLog

/-- `disk_entry_to_log_entry`. -/
def diskEntryToLogEntry (disk : DiskLogEntry) : LogEntry where
  index := disk.index
  term := disk.term
  command :=
    if disk.commandType = "Put" then
      .put (.pushStr 256 (disk.key.getD "")) (.collectTake 1024 (disk.value.getD []))
    else if disk.commandType = "Delete" then
      .delete (.pushStr 256 (disk.key.getD ""))
    else
      .noop

/-- `entry_to_disk`. -/
def entryToDisk (entry : LogEntry) : DiskLogEntry :=
  match entry.command with
  | .put key value => ⟨entry.index, entry.term, "Put", some key.asStr, some value.toVec⟩
  | .delete key => ⟨entry.index, entry.term, "Delete", some key.asStr, none⟩
  | .noop => ⟨entry.index, entry.term, "Noop", none, none⟩

/-- One line of the load loop: the entry enters the map and `last_index` takes the
maximum. -/
def loadLine (log : RaftLog) (line : DiskLogEntry) : RaftLog :=
  let entry := diskEntryToLogEntry line
  { log with
    lastIndex := max log.lastIndex entry.index
    entries := log.entries.insert entry.index entry }

/-- The fields that `RaftLog::new` starts from, before the load. -/
def unloaded (dir : DataDir) : RaftLog := ⟨dir, ∅, .default, 0⟩

/-- `load_from_disk`. `none` is `Err`: `state.json` exists and does not parse. -/
def loadFromDisk (log : RaftLog) : Option RaftLog :=
  match log.dataDir.stateJson with
  | .absent => some (log.dataDir.logJsonl.foldl loadLine log)
  | .json ps => some (log.dataDir.logJsonl.foldl loadLine { log with persistentState := ps })
  | .unparsable => none

/-- `RaftLog::new` on a directory with these contents. -/
def new (dir : DataDir) : Option RaftLog := loadFromDisk (unloaded dir)

/-- `save_state`, with the outcome of its write. -/
def saveState (log : RaftLog) (w : WriteResult) : RaftLog :=
  match w with
  | .ok => { log with dataDir.stateJson := .json log.persistentState }
  | .errOld => log
  | .errUnparsable => { log with dataDir.stateJson := .unparsable }

/-- `current_term`. -/
def currentTerm (log : RaftLog) : Nat := log.persistentState.currentTerm

/-- `set_current_term`. -/
def setCurrentTerm (log : RaftLog) (term : Nat) (w : WriteResult) : RaftLog :=
  { log with persistentState := ⟨term, none⟩ }.saveState w

/-- `voted_for`. -/
def votedFor (log : RaftLog) : Option String := log.persistentState.votedFor.map (·.asStr)

/-- `set_voted_for`. -/
def setVotedFor (log : RaftLog) (candidateId : Option String) (w : WriteResult) : RaftLog :=
  { log with
    persistentState.votedFor := candidateId.map (HeaplessString.pushStr 64) }.saveState w

/-- `get`. -/
def get (log : RaftLog) (index : Nat) : Option LogEntry := log.entries.lookup index

/-- `last_term`. -/
def lastTerm (log : RaftLog) : Nat := ((log.get log.lastIndex).map (·.term)).getD 0

/-- `term_at`. -/
def termAt (log : RaftLog) (index : Nat) : Option Nat := (log.get index).map (·.term)

/-- `append`: the log after it, and the index it returns. -/
def append (log : RaftLog) (term : Nat) (command : Command) : RaftLog × Nat :=
  let index := addOne log.lastIndex
  let entry : LogEntry := ⟨index, term, command⟩
  ({ log with
      dataDir.logJsonl := log.dataDir.logJsonl ++ [entryToDisk entry]
      entries := log.entries.insert index entry
      lastIndex := index }, index)

/-- One turn of the loop of `append_entries`. -/
def appendEntry (log : RaftLog) (entry : LogEntry) : RaftLog :=
  { log with
    dataDir.logJsonl := log.dataDir.logJsonl ++ [entryToDisk entry]
    lastIndex := max log.lastIndex entry.index
    entries := log.entries.insert entry.index entry }

/-- `append_entries`. -/
def appendEntries (log : RaftLog) (entries : List LogEntry) : RaftLog :=
  entries.foldl appendEntry log

/-- The lines `truncate_from` writes: the entries at `1 .. from_index`, in order. -/
def keptLines (entries : HashMap Nat LogEntry) (fromIndex : Nat) : List DiskLogEntry :=
  (List.range' 1 (fromIndex - 1)).filterMap fun idx => (entries.lookup idx).map entryToDisk

/-- `truncate_from`: entries from `fromIndex` on go, and the file is rewritten. -/
def truncateFrom (log : RaftLog) (fromIndex : Nat) : RaftLog :=
  let entries := log.entries.retain (fun idx => decide (idx < fromIndex))
  { log with
    entries := entries
    lastIndex := fromIndex - 1
    dataDir.logJsonl := keptLines entries fromIndex }

/-- `get_entries`: the entries at `start_index ..= end_index`. -/
def getEntries (log : RaftLog) (startIndex endIndex : Nat) : List LogEntry :=
  (List.range' startIndex (endIndex + 1 - startIndex)).filterMap log.get

/-- `has_entry`. -/
def hasEntry (log : RaftLog) (index term : Nat) : Bool :=
  ((log.get index).map (fun e => decide (e.term = term))).getD (decide (index = 0))

end RaftLog

end RaftEbpf
