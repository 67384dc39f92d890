import RaftEbpf.LogFile

/-!
# `RaftEbpf.LogErrors`: calls of the log that return an error

A call of `RaftLog` is a sequence of effects in the order of `raft/src/log.rs`: changes in memory
and operations on files (`LogOp.effects`). Where a file operation fails the call returns `Err`, and
what was done before it stays done (`OpenLog.fail`). A write that fails may have written some of
its bytes.

`log_file` is an open file, not a name: after the rename of `truncate_from` it is the file that had
the name before, until `log.jsonl` is opened again.

The field `dataDir` of the log plays no part here. What the directory holds is `OpenLog.files`.
-/

set_option autoImplicit false

namespace RaftEbpf

/-- One effect of a call. -/
inductive Effect where
  /-- A change in memory. It cannot fail. -/
  | memory (f : RaftLog → RaftLog)
  /-- A file is created or renamed, or a byte is written. -/
  | write (w : FileWrite)
  | flush
  /-- `log.jsonl` is opened for appending, as the new `log_file`. -/
  | reopen

/-- The effect is an operation on files. -/
def Effect.canFail : Effect → Bool
  | .memory _ => false
  | _ => true

namespace LogOp

/-- `writeln!` of one entry to `log_file`. -/
def writeLine (serde : Serde) (entry : LogEntry) : List Effect :=
  (serde.line.text [RaftLog.entryToDisk entry]).map fun b => .write (.log b)

/-- What one turn of the loop of `append_entries` does in memory. -/
def remember (entry : LogEntry) (log : RaftLog) : RaftLog :=
  { log with
    lastIndex := max log.lastIndex entry.index
    entries := log.entries.insert entry.index entry }

/-- One turn of the loop of `append_entries`. -/
def storeEntry (serde : Serde) (entry : LogEntry) : List Effect :=
  writeLine serde entry ++ [.memory (remember entry)]

/-- The loop of `append_entries`. -/
def storeAll (serde : Serde) (entries : List LogEntry) : List Effect :=
  entries.flatMap (storeEntry serde)

/-- A change of the persistent state, and `save_state`. -/
def setState (serde : Serde) (ps : PersistentState) : List Effect :=
  .memory (fun log => { log with persistentState := ps }) :: (saveState serde ps).map .write

/-- The effects of a call, in order. -/
def effects (serde : Serde) (log : RaftLog) : LogOp → List Effect
  | .append term command =>
      let index := addOne log.lastIndex
      let entry : LogEntry := ⟨index, term, command⟩
      writeLine serde entry ++
        [.flush,
          .memory fun log =>
            { log with entries := log.entries.insert index entry, lastIndex := index }]
  | .appendEntries entries => storeAll serde entries ++ [.flush]
  | .truncateFrom fromIndex =>
      let entries := log.entries.retain (fun idx => decide (idx < fromIndex))
      .memory (fun log => { log with entries := entries, lastIndex := fromIndex - 1 }) ::
        .write .createTmp ::
        (serde.line.text (RaftLog.keptLines entries fromIndex)).map (fun b => .write (.tmp b)) ++
        [.flush, .write .rename, .reopen]
  | .setCurrentTerm term => setState serde ⟨term, none⟩
  | .setVotedFor candidateId =>
      setState serde ⟨log.currentTerm, candidateId.map (HeaplessString.pushStr 64)⟩

/-- The effect of the call at place `k` can fail. -/
def FailsAt (serde : Serde) (log : RaftLog) (op : LogOp) (k : Nat) : Prop :=
  ((op.effects serde log)[k]?.map Effect.canFail).getD false = true

instance (serde : Serde) (log : RaftLog) (op : LogOp) (k : Nat) :
    Decidable (op.FailsAt serde log k) :=
  inferInstanceAs (Decidable (_ = true))

end LogOp

/-- A log with its files and its open file. -/
structure OpenLog where
  files : Files
  log : RaftLog
  /-- `log_file` is the file with the name `log.jsonl`. -/
  attached : Bool

namespace OpenLog

/-- A new log on an empty data directory. -/
def empty : OpenLog := ⟨.empty, .unloaded .empty, true⟩

/-- One effect that succeeds. -/
def run (s : OpenLog) : Effect → OpenLog
  | .memory f => { s with log := f s.log }
  | .write (.log b) => if s.attached then { s with files := s.files.write (.log b) } else s
  | .write .rename => { s with files := s.files.write .rename, attached := false }
  | .write w => { s with files := s.files.write w }
  | .flush => s
  | .reopen => { s with attached := true }

/-- A call that succeeds. -/
def perform (serde : Serde) (s : OpenLog) (op : LogOp) : OpenLog :=
  (op.effects serde s.log).foldl run s

/-- A call whose effect at place `k` fails. -/
def fail (serde : Serde) (s : OpenLog) (op : LogOp) (k : Nat) : OpenLog :=
  ((op.effects serde s.log).take k).foldl run s

/-- What can happen to a log. -/
inductive Event where
  | call (op : LogOp)
  /-- A call returns `Err`, for its effect at place `k` failed. -/
  | fail (op : LogOp) (k : Nat)
  /-- `RaftLog::new` on the same data directory. -/
  | restart

/-- One event. -/
def step (serde : Serde) (s : OpenLog) : Event → Option OpenLog
  | .call op => some (s.perform serde op)
  | .fail op k => if op.FailsAt serde s.log k then some (s.fail serde op k) else none
  | .restart => (s.files.load serde).map fun log => ⟨s.files, log, true⟩

/-- The states of one life of a log, newest first. Each event is one that `ok` allows. -/
abbrev Run (serde : Serde) (init : OpenLog) (ok : OpenLog → Event → Prop) (tr : List OpenLog) :
    Prop :=
  Lib.Run (step serde) init ok tr

/-- The event is a call that succeeds, of a kind that a node makes. -/
def Succeeds (s : OpenLog) : Event → Prop
  | .call op => op.Shaped s.log
  | _ => False

end OpenLog

end RaftEbpf
