import RaftEbpf.Lib.Journal
import RaftEbpf.Lib.Run
import RaftEbpf.Log

/-!
# `RaftEbpf.LogFile`: the files of the log, byte by byte

What `RaftLog` of `raft/src/log.rs` writes to `state.json`, `log.jsonl` and
`log.jsonl.tmp`, and what it reads back. `serde_json` is a parameter (`Serde`): two
encodings with the bytes they write. Where a line is not UTF-8 or does not parse, `decode`
gives `none`; either is an `Err` of the load.

`LogOp` is one call of the log with its effect in memory (`LogOp.apply`, the functions of
`RaftEbpf.Log`) and the list of its writes (`LogOp.writes`). A crash falls between two of
these writes. Every write reaches the file at once: the log writes through `File`, which
does not buffer.

An absent `log.jsonl` reads as an empty one, and opening it for appending creates it, so the
model has no third case.
-/

set_option autoImplicit false

namespace RaftEbpf

open RaftEbpf.Lib (Bytes Format)

/-- The encodings of `serde_json` that the log uses: `to_string` and `from_str` of a line of
`log.jsonl`, `to_string_pretty` and `from_str` of `state.json`. -/
structure Serde where
  line : Format DiskLogEntry
  state : Format PersistentState

/-- The files of the data directory. -/
structure Files where
  stateJson : Option Bytes
  logJsonl : Bytes
  logJsonlTmp : Option Bytes

/-- An empty data directory. -/
def Files.empty : Files := ⟨none, [], none⟩

/-- One write to the files. -/
inductive FileWrite where
  /-- `fs::write` opens `state.json` and cuts it to nothing. -/
  | truncateState
  /-- A byte goes to `state.json`. -/
  | state (b : UInt8)
  /-- A byte is appended to `log.jsonl`. -/
  | log (b : UInt8)
  /-- `File::create` of `log.jsonl.tmp`. -/
  | createTmp
  /-- A byte goes to `log.jsonl.tmp`. -/
  | tmp (b : UInt8)
  /-- `fs::rename` of `log.jsonl.tmp` to `log.jsonl`. -/
  | rename
  deriving DecidableEq

/-- What a write does to the files. -/
def Files.write (files : Files) : FileWrite → Files
  | .truncateState => { files with stateJson := some [] }
  | .state b => { files with stateJson := files.stateJson.map (· ++ [b]) }
  | .log b => { files with logJsonl := files.logJsonl ++ [b] }
  | .createTmp => { files with logJsonlTmp := some [] }
  | .tmp b => { files with logJsonlTmp := files.logJsonlTmp.map (· ++ [b]) }
  | .rename =>
      match files.logJsonlTmp with
      | some bytes => { files with logJsonl := bytes, logJsonlTmp := none }
      | none => files

/-- `state.json` as `load_from_disk` reads it. -/
def Files.readState (serde : Serde) (files : Files) : StateFile :=
  match files.stateJson with
  | none => .absent
  | some content =>
      match serde.state.decode content with
      | some ps => .json ps
      | none => .unparsable

/-- `RaftLog::new` on these files: the state is read, then each line of the log that is not
empty. `none` is `Err`: something does not parse. -/
def Files.load (serde : Serde) (files : Files) : Option RaftLog :=
  match serde.line.read files.logJsonl with
  | some lines => RaftLog.new ⟨files.readState serde, lines⟩
  | none => none

/-- One call of the log. -/
inductive LogOp where
  | append (term : Nat) (command : Command)
  | appendEntries (entries : List LogEntry)
  | truncateFrom (fromIndex : Nat)
  | setCurrentTerm (term : Nat)
  | setVotedFor (candidateId : Option String)

namespace LogOp

/-- What a call that succeeds does to the log in memory. -/
def apply (log : RaftLog) : LogOp → RaftLog
  | .append term command => (log.append term command).1
  | .appendEntries entries => log.appendEntries entries
  | .truncateFrom fromIndex => log.truncateFrom fromIndex
  | .setCurrentTerm term => log.setCurrentTerm term .ok
  | .setVotedFor candidateId => log.setVotedFor candidateId .ok

/-- The writes of `save_state`: the file is cut to nothing, then filled. -/
def saveState (serde : Serde) (ps : PersistentState) : List FileWrite :=
  .truncateState :: (serde.state.encode ps).map .state

/-- The lines that a call appends to `log.jsonl`. -/
def appended (log : RaftLog) : LogOp → List DiskLogEntry
  | .append term command => [RaftLog.entryToDisk ⟨addOne log.lastIndex, term, command⟩]
  | .appendEntries entries => entries.map RaftLog.entryToDisk
  | _ => []

/-- The writes of a call, in order. -/
def writes (serde : Serde) (log : RaftLog) (op : LogOp) : List FileWrite :=
  match op with
  | .append _ _ => (serde.line.text (op.appended log)).map .log
  | .appendEntries _ => (serde.line.text (op.appended log)).map .log
  | .truncateFrom fromIndex =>
      -- The entries are removed from memory first, and the file gets what is left.
      let entries := log.entries.retain (fun idx => decide (idx < fromIndex))
      .createTmp :: (serde.line.text (RaftLog.keptLines entries fromIndex)).map .tmp ++ [.rename]
  | .setCurrentTerm _ => saveState serde (op.apply log).persistentState
  | .setVotedFor _ => saveState serde (op.apply log).persistentState

/-- The calls that a node makes: entries of one call are consecutive, and start at most one
behind the last index; the log is cut at an index that it has. -/
def Shaped (log : RaftLog) : LogOp → Prop
  | .append _ _ => log.lastIndex < u64Max
  | .appendEntries [] => True
  | .appendEntries (e :: es) =>
      1 ≤ e.index ∧ e.index ≤ log.lastIndex + 1 ∧
        (e :: es).map (·.index) = List.range' e.index (es.length + 1)
  | .truncateFrom fromIndex => 1 ≤ fromIndex ∧ fromIndex ≤ log.lastIndex
  | .setCurrentTerm _ => True
  | .setVotedFor _ => True

instance (log : RaftLog) (op : LogOp) : Decidable (op.Shaped log) := by
  unfold Shaped
  exact match op with
    | .append _ _ | .appendEntries [] | .appendEntries (_ :: _) | .truncateFrom _
    | .setCurrentTerm _ | .setVotedFor _ => inferInstance

end LogOp

/-- A log with its files. -/
structure Stored where
  files : Files
  log : RaftLog

namespace Stored

/-- A new log on an empty data directory. -/
def empty : Stored := ⟨.empty, .unloaded .empty⟩

/-- One call that succeeds. -/
def perform (serde : Serde) (s : Stored) (op : LogOp) : Stored :=
  ⟨(op.writes serde s.log).foldl Files.write s.files, op.apply s.log⟩

/-- The files where a call stops after its first `k` writes. -/
def crash (serde : Serde) (s : Stored) (op : LogOp) (k : Nat) : Files :=
  ((op.writes serde s.log).take k).foldl Files.write s.files

/-- One call, as a step. -/
def step (serde : Serde) (s : Stored) (op : LogOp) : Option Stored := some (s.perform serde op)

/-- The states of a sequence of calls that a node makes, newest first. -/
abbrev Run (serde : Serde) (init : Stored) (tr : List Stored) : Prop :=
  Lib.Run (step serde) init (fun s op => op.Shaped s.log) tr

end Stored

end RaftEbpf
