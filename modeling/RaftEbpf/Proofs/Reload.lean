import RaftEbpf.LogFile
import RaftEbpf.Proofs.StoreEntries

/-!
# `RaftEbpf.Proofs.Reload`: the log on disk refines the log in memory

`log.jsonl` is a journal: entries sent again get a second line, a truncation rewrites the
file, and the load takes the last line of each index.

* `reload_same`: after every sequence of calls that a node makes, `RaftLog::new` on the same
  files yields the same term, vote, last index and entries.

`Mirrors` says that the bytes are those of the lines and of the state that `RaftEbpf.Log`
keeps in `dataDir`. With `RaftLog.Holds`, which ties these lines to memory, it is an
invariant of the calls (`Stored.Sound.perform`).
-/

set_option autoImplicit false

namespace RaftEbpf

open RaftEbpf.Lib (Bytes Format HashMap)

/-- What the log relies on: `serde_json` reads back what it wrote, and its lines are not empty
and have no line break in them. -/
structure Serde.Lawful (serde : Serde) : Prop where
  line : serde.line.RoundTrips
  oneLine : serde.line.OneLine
  state : serde.state.RoundTrips

/-- Two logs agree on the term, the vote, the last index and the entry at each index. -/
structure RaftLog.Same (log log' : RaftLog) : Prop where
  currentTerm : log.currentTerm = log'.currentTerm
  votedFor : log.votedFor = log'.votedFor
  lastIndex : log.lastIndex = log'.lastIndex
  get : ∀ index, log.get index = log'.get index

/-- Logs that are the same list with the same persistent state agree. -/
theorem RaftLog.Holds.same {log log' : RaftLog} {l : List LogEntry} (h : log.Holds l)
    (h' : log'.Holds l) (hps : log.persistentState = log'.persistentState) : log.Same log' where
  currentTerm := congrArg PersistentState.currentTerm hps
  votedFor := by rw [RaftLog.votedFor, RaftLog.votedFor, hps]
  lastIndex := h.lastIndex.trans h'.lastIndex.symm
  get i := (h.get i).trans (h'.get i).symm

/-! ### Writing -/

section Writes
variable (files : Files) (bytes : Bytes)

/-- Bytes appended to `log.jsonl`. -/
theorem foldl_write_log :
    (bytes.map FileWrite.log).foldl Files.write files
      = { files with logJsonl := files.logJsonl ++ bytes } := by
  induction bytes generalizing files with
  | nil => simp
  | cons b bytes ih =>
      rw [List.map_cons, List.foldl_cons, ih, Files.write]
      simp

/-- Bytes written to `state.json`. -/
theorem foldl_write_state {content : Bytes} (h : files.stateJson = some content) :
    (bytes.map FileWrite.state).foldl Files.write files
      = { files with stateJson := some (content ++ bytes) } := by
  induction bytes generalizing files content with
  | nil => simp [← h]
  | cons b bytes ih =>
      have hb : (files.write (.state b)).stateJson = some (content ++ [b]) := by
        simp [Files.write, h]
      rw [List.map_cons, List.foldl_cons, ih _ hb, Files.write]
      simp

/-- Bytes written to `log.jsonl.tmp`. -/
theorem foldl_write_tmp {content : Bytes} (h : files.logJsonlTmp = some content) :
    (bytes.map FileWrite.tmp).foldl Files.write files
      = { files with logJsonlTmp := some (content ++ bytes) } := by
  induction bytes generalizing files content with
  | nil => simp [← h]
  | cons b bytes ih =>
      have hb : (files.write (.tmp b)).logJsonlTmp = some (content ++ [b]) := by
        simp [Files.write, h]
      rw [List.map_cons, List.foldl_cons, ih _ hb, Files.write]
      simp

end Writes

/-! ### The files mirror the lines -/

/-- The files hold these lines and this state. -/
structure Mirrors (serde : Serde) (files : Files) (dir : DataDir) : Prop where
  log : files.logJsonl = serde.line.text dir.logJsonl
  state : (dir.stateJson = .absent ∧ files.stateJson = none) ∨
    ∃ ps, dir.stateJson = .json ps ∧ files.stateJson = some (serde.state.encode ps)

section
variable {serde : Serde} {files : Files} {log : RaftLog} {l : List LogEntry}

/-- The state reads back. -/
theorem Mirrors.readState (hserde : serde.Lawful) {dir : DataDir} (h : Mirrors serde files dir) :
    files.readState serde = dir.stateJson := by
  rcases h.state with ⟨hdir, hfile⟩ | ⟨ps, hdir, hfile⟩
  · rw [Files.readState, hfile, hdir]
  · rw [Files.readState, hfile, hdir]
    simp only [hserde.state ps]

/-- A load of the files is a load of the lines. -/
theorem Mirrors.load (hserde : serde.Lawful) {dir : DataDir} (h : Mirrors serde files dir) :
    files.load serde = RaftLog.new dir := by
  have hlines : serde.line.read files.logJsonl = some dir.logJsonl := by
    rw [h.log]
    exact Format.read_text hserde.line hserde.oneLine dir.logJsonl
  rw [Files.load, hlines, h.readState hserde]

/-- `append_entries` writes one line for each entry. -/
theorem appendEntries_logJsonl (log : RaftLog) (es : List LogEntry) :
    (log.appendEntries es).dataDir.logJsonl
      = log.dataDir.logJsonl ++ es.map RaftLog.entryToDisk := by
  induction es generalizing log with
  | nil => simp [RaftLog.appendEntries]
  | cons e es ih =>
      have h := ih (log.appendEntry e)
      rw [List.map_cons]
      show ((log.appendEntry e).appendEntries es).dataDir.logJsonl = _
      rw [h, RaftLog.appendEntry]
      simp

/-- What the calls do to the lines: some are appended. -/
theorem apply_appended (log : RaftLog) (op : LogOp)
    (hop : (∃ t c, op = .append t c) ∨ ∃ es, op = .appendEntries es) :
    (op.apply log).dataDir.logJsonl = log.dataDir.logJsonl ++ op.appended log ∧
      (op.apply log).dataDir.stateJson = log.dataDir.stateJson := by
  rcases hop with ⟨t, c, rfl⟩ | ⟨es, rfl⟩
  · exact ⟨rfl, rfl⟩
  · exact ⟨appendEntries_logJsonl log es, (RaftNode.appendEntries_frame log es).2⟩

/-- The state is written. -/
theorem Mirrors.saveState {dir : DataDir} (h : Mirrors serde files dir) (ps : PersistentState) :
    Mirrors serde ((LogOp.saveState serde ps).foldl Files.write files)
      { dir with stateJson := .json ps } := by
  have hcut : (files.write .truncateState).stateJson = some [] := rfl
  rw [LogOp.saveState, List.foldl_cons, foldl_write_state _ _ hcut]
  exact ⟨h.log, Or.inr ⟨ps, rfl, rfl⟩⟩

/-- The log is rewritten: the file with the lines takes the place of the old one. -/
theorem foldl_write_truncate (files : Files) (bytes : Bytes) :
    (FileWrite.createTmp :: bytes.map FileWrite.tmp ++ [FileWrite.rename]).foldl Files.write files
      = { files with logJsonl := bytes, logJsonlTmp := none } := by
  have hcreate : (files.write .createTmp).logJsonlTmp = some [] := rfl
  rw [List.cons_append, List.foldl_cons, List.foldl_append, foldl_write_tmp _ _ hcreate]
  rfl

/-- Every call writes what it does to the lines and to the state. -/
theorem Mirrors.perform (h : Mirrors serde files log.dataDir) (op : LogOp) :
    Mirrors serde ((op.writes serde log).foldl Files.write files) (op.apply log).dataDir := by
  have happend : (∃ t c, op = .append t c) ∨ (∃ es, op = .appendEntries es) →
      Mirrors serde (((serde.line.text (op.appended log)).map .log).foldl Files.write files)
        (op.apply log).dataDir := by
    intro hop
    obtain ⟨hlog, hstate⟩ := apply_appended log op hop
    rw [foldl_write_log]
    refine ⟨?_, ?_⟩
    · rw [hlog, Format.text_append, ← h.log]
    · rw [hstate]
      exact h.state
  cases op with
  | append term command => exact happend (Or.inl ⟨term, command, rfl⟩)
  | appendEntries es => exact happend (Or.inr ⟨es, rfl⟩)
  | truncateFrom fromIndex =>
      rw [LogOp.writes, foldl_write_truncate]
      exact ⟨rfl, h.state⟩
  | setCurrentTerm term => exact h.saveState _
  | setVotedFor candidateId => exact h.saveState _

/-! ### The calls of a node -/

/-- Entries of one call that a node makes continue the log from some position. -/
theorem LogOp.Shaped.numberedFrom {es : List LogEntry} (h : (LogOp.appendEntries es).Shaped log)
    (hl : log.Holds l) : ∃ prev ≤ l.length, NumberedFrom prev es := by
  cases es with
  | nil => exact ⟨0, Nat.zero_le _, fun j e he => by simp at he⟩
  | cons e es =>
      obtain ⟨h1, h2, h3⟩ := h
      rw [hl.lastIndex] at h2
      refine ⟨e.index - 1, by omega, numberedFrom_iff.mpr ?_⟩
      rw [Nat.sub_add_cancel h1, List.length_cons]
      exact h3

/-- Each call that a node makes leaves a log that is a list. -/
theorem holds_apply (hl : log.Holds l) {op : LogOp} (hop : op.Shaped log) :
    ∃ l', (op.apply log).Holds l' := by
  cases op with
  | append term command => exact ⟨_, (hl.append term command hop).2⟩
  | appendEntries es =>
      obtain ⟨prev, hprev, hnum⟩ := hop.numberedFrom hl
      exact ⟨_, hl.appendEntries hprev hnum⟩
  | truncateFrom fromIndex =>
      obtain ⟨h1, h2⟩ := hop
      rw [hl.lastIndex] at h2
      obtain ⟨k, rfl⟩ : ∃ k, fromIndex = k + 1 := ⟨fromIndex - 1, by omega⟩
      exact ⟨_, hl.truncateFrom (by omega)⟩
  | setCurrentTerm term => exact ⟨l, hl.setCurrentTerm term⟩
  | setVotedFor candidateId => exact ⟨l, hl.setVotedFor candidateId⟩

/-- The files mirror the lines, and the log in memory is the list that the lines load to. -/
structure Stored.Sound (serde : Serde) (s : Stored) : Prop where
  mirrors : Mirrors serde s.files s.log.dataDir
  holds : ∃ l, s.log.Holds l

theorem Stored.Sound.empty : Stored.empty.Sound serde :=
  ⟨⟨rfl, Or.inl ⟨rfl, rfl⟩⟩, [], RaftLog.Holds.empty⟩

theorem Stored.Sound.perform {s : Stored} (h : s.Sound serde) {op : LogOp}
    (hop : op.Shaped s.log) : (s.perform serde op).Sound serde := by
  obtain ⟨l, hl⟩ := h.holds
  exact ⟨h.mirrors.perform op, holds_apply hl hop⟩

/-- Every state of a sequence of calls is sound. -/
theorem Stored.Sound.run {init : Stored} {tr : List Stored} (h : init.Sound serde)
    (hrun : Stored.Run serde init tr) : ∀ s ∈ tr, s.Sound serde := by
  refine hrun.invariant h ?_
  intro s op s' hs hop hstep
  obtain rfl := Option.some.inj hstep
  exact hs.perform hop

/-- A load of sound files yields what is in memory, and is sound again. -/
theorem Stored.Sound.load (hserde : serde.Lawful) {s : Stored} (h : s.Sound serde) :
    ∃ log', s.files.load serde = some log' ∧ log'.Same s.log ∧
      Stored.Sound serde ⟨s.files, log'⟩ := by
  obtain ⟨l, hl⟩ := h.holds
  obtain ⟨log', hload, hl', hps⟩ := hl.reload
  have hdir : log'.dataDir = s.log.dataDir := RaftLog.new_dataDir hload
  refine ⟨log', (h.mirrors.load hserde).trans hload, hl'.same hl hps, ?_, l, hl'⟩
  show Mirrors serde s.files log'.dataDir
  rw [hdir]
  exact h.mirrors

/-- After every sequence of calls that a node makes, on an empty data directory, `RaftLog::new`
on the same files yields the same term, vote, last index and entries. -/
theorem reload_same (hserde : serde.Lawful) {tr : List Stored}
    (hrun : Stored.Run serde .empty tr) :
    ∀ s ∈ tr, ∃ log', s.files.load serde = some log' ∧ log'.Same s.log := by
  intro s hs
  obtain ⟨log', hload, hsame, -⟩ := (Stored.Sound.empty.run hrun s hs).load hserde
  exact ⟨log', hload, hsame⟩

end

end RaftEbpf
