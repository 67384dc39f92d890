import RaftEbpf.LogErrors
import RaftEbpf.Proofs.Reload

/-!
# `RaftEbpf.Proofs.OpenLog`: the effects of the calls of the log

What lists of effects do to memory and to the files, and with it that a call whose effects all
succeed is the call of `Stored` with the same writes (`perform_eq`). `Sound` carries the invariant
of `Stored.Sound` over to a log with an open file.
-/

set_option autoImplicit false

namespace RaftEbpf.OpenLog

open RaftEbpf.Lib (Bytes Format)

/-! ### Runs of effects -/

section Effects
variable {serde : Serde} {s : OpenLog}

/-- Bytes written to `log_file`, while it is `log.jsonl`. -/
theorem foldl_run_log (h : s.attached = true) (bytes : Bytes) :
    (bytes.map fun b => Effect.write (.log b)).foldl run s =
      { s with files := { s.files with logJsonl := s.files.logJsonl ++ bytes } } := by
  induction bytes generalizing s with
  | nil => simp
  | cons b bytes ih =>
      have hb : s.run (.write (.log b)) = { s with files := s.files.write (.log b) } := if_pos h
      rw [List.map_cons, List.foldl_cons, hb,
        ih (s := { s with files := s.files.write (.log b) }) h, Files.write]
      simp

/-- Other writes change the files only. -/
theorem foldl_run_write {ws : List FileWrite} (hws : ∀ w ∈ ws, (∀ b, w ≠ .log b) ∧ w ≠ .rename) :
    (ws.map Effect.write).foldl run s = { s with files := ws.foldl Files.write s.files } := by
  induction ws generalizing s with
  | nil => rfl
  | cons w ws ih =>
      obtain ⟨hlog, hrename⟩ := hws w List.mem_cons_self
      have hw : s.run (.write w) = { s with files := s.files.write w } := by
        cases w with
        | log b => exact absurd rfl (hlog b)
        | rename => exact absurd rfl hrename
        | _ => rfl
      rw [List.map_cons, List.foldl_cons, hw, ih fun w' hw' => hws w' (List.mem_cons_of_mem _ hw')]
      rfl

/-- The log with the memory that `append_entries` leaves. -/
def stored (log : RaftLog) (es : List LogEntry) : RaftLog :=
  { log.appendEntries es with dataDir := log.dataDir }

theorem stored_cons (log : RaftLog) (e : LogEntry) (es : List LogEntry) :
    stored (stored log [e]) es = stored log (e :: es) := by
  obtain ⟨hentries, hlast⟩ := RaftLog.SameMemory.appendEntries
    (show (stored log [e]).SameMemory (log.appendEntry e) from ⟨rfl, rfl⟩) es
  have hstate : ((stored log [e]).appendEntries es).persistentState =
      ((log.appendEntry e).appendEntries es).persistentState := by
    rw [(RaftNode.appendEntries_frame _ es).1, (RaftNode.appendEntries_frame _ es).1]
    rfl
  show RaftLog.mk log.dataDir _ _ _ = RaftLog.mk log.dataDir _ _ _
  rw [hentries, hlast, hstate]
  rfl

/-- The state after entries are stored whole, with their lines. -/
def storing (serde : Serde) (s : OpenLog) (es : List LogEntry) : OpenLog :=
  { s with
    files := { s.files with
      logJsonl := s.files.logJsonl ++ serde.line.text (es.map RaftLog.entryToDisk) }
    log := stored s.log es }

theorem foldl_run_storeAll (h : s.attached = true) (es : List LogEntry) :
    (LogOp.storeAll serde es).foldl run s = s.storing serde es := by
  induction es generalizing s with
  | nil => simp [LogOp.storeAll, storing, stored, RaftLog.appendEntries]
  | cons e es ih =>
      have hfirst : (LogOp.storeEntry serde e).foldl run s = s.storing serde [e] := by
        rw [LogOp.storeEntry, List.foldl_append, LogOp.writeLine, foldl_run_log h]
        rfl
      have hrest : (LogOp.storeAll serde es).foldl run (s.storing serde [e]) = _ := ih h
      rw [LogOp.storeAll, List.flatMap_cons, ← LogOp.storeAll, List.foldl_append, hfirst, hrest]
      simp only [storing, stored_cons, List.map_cons, List.append_assoc, ← Format.text_append]
      rfl

end Effects

/-! ### Calls that succeed -/

section Calls
variable {serde : Serde} {s : OpenLog}

/-- A change in memory, and writes to other files than `log.jsonl`. -/
theorem foldl_run_memory (f : RaftLog → RaftLog) {ws : List FileWrite}
    (hws : ∀ w ∈ ws, (∀ b, w ≠ .log b) ∧ w ≠ .rename) :
    (Effect.memory f :: ws.map Effect.write).foldl run s =
      { s with files := ws.foldl Files.write s.files, log := f s.log } := by
  rw [List.foldl_cons, foldl_run_write hws]
  rfl

theorem saveState_writes {ps : PersistentState} {w : FileWrite}
    (hw : w ∈ LogOp.saveState serde ps) : (∀ b, w ≠ .log b) ∧ w ≠ .rename := by
  rcases List.mem_cons.mp hw with rfl | hw
  · exact ⟨fun b => by simp, by simp⟩
  · obtain ⟨b, -, rfl⟩ := List.mem_map.mp hw
    exact ⟨fun b => by simp, by simp⟩

/-- The writes of `truncate_from` to its temporary file. -/
def tmpWrites (bytes : Bytes) : List FileWrite := .createTmp :: bytes.map .tmp

theorem tmpWrites_writes {bytes : Bytes} {w : FileWrite} (hw : w ∈ tmpWrites bytes) :
    (∀ b, w ≠ .log b) ∧ w ≠ .rename := by
  rcases List.mem_cons.mp hw with rfl | hw
  · exact ⟨fun b => by simp, by simp⟩
  · obtain ⟨b, -, rfl⟩ := List.mem_map.mp hw
    exact ⟨fun b => by simp, by simp⟩

/-- What `truncate_from` does in memory. -/
def cut (log : RaftLog) (fromIndex : Nat) : RaftLog :=
  { log with
    entries := log.entries.retain (fun idx => decide (idx < fromIndex))
    lastIndex := fromIndex - 1 }

/-- The bytes that `truncate_from` writes. -/
def keptBytes (serde : Serde) (log : RaftLog) (fromIndex : Nat) : Bytes :=
  serde.line.text (RaftLog.keptLines (cut log fromIndex).entries fromIndex)

theorem truncateFrom_effects (log : RaftLog) (fromIndex : Nat) :
    (LogOp.truncateFrom fromIndex).effects serde log =
      Effect.memory (fun log' => { log' with
          entries := (cut log fromIndex).entries, lastIndex := fromIndex - 1 }) ::
        (tmpWrites (keptBytes serde log fromIndex)).map Effect.write ++
          [.flush, .write .rename, .reopen] := by
  rw [tmpWrites, List.map_cons, List.map_map]
  rfl

/-- The log on another directory. -/
def on (log : RaftLog) (dir : DataDir) : RaftLog := { log with dataDir := dir }

/-- What a call does in memory does not depend on what the directory holds. -/
theorem apply_on (log : RaftLog) (op : LogOp) (dir : DataDir) :
    ∃ dir', op.apply (on log dir) = on (op.apply log) dir' := by
  cases op with
  | appendEntries es =>
      obtain ⟨hentries, hlast⟩ := RaftLog.SameMemory.appendEntries
        (show (on log dir).SameMemory log from ⟨rfl, rfl⟩) es
      refine ⟨((on log dir).appendEntries es).dataDir, ?_⟩
      have hstate : ((on log dir).appendEntries es).persistentState =
          (log.appendEntries es).persistentState := by
        rw [(RaftNode.appendEntries_frame _ es).1, (RaftNode.appendEntries_frame _ es).1]
        rfl
      show (on log dir).appendEntries es = RaftLog.mk _ (log.appendEntries es).entries
        (log.appendEntries es).persistentState (log.appendEntries es).lastIndex
      rw [← hentries, ← hlast, ← hstate]
  | _ => exact ⟨_, rfl⟩

theorem writes_on (log : RaftLog) (op : LogOp) (dir : DataDir) :
    op.writes serde (on log dir) = op.writes serde log := by
  cases op <;> rfl

variable (serde) in
/-- While `log_file` is `log.jsonl`, the effects of a call are its writes and what it does in
memory. -/
theorem perform_eq (h : s.attached = true) (op : LogOp) :
    (s.perform serde op).files = (op.writes serde s.log).foldl Files.write s.files ∧
      (s.perform serde op).attached = true ∧
      ∃ dir, (s.perform serde op).log = on (op.apply s.log) dir := by
  cases op with
  | append term command =>
      rw [perform, LogOp.effects, List.foldl_append, LogOp.writeLine, foldl_run_log h]
      refine ⟨?_, h, s.log.dataDir, rfl⟩
      rw [LogOp.writes, foldl_write_log]
      rfl
  | appendEntries es =>
      rw [perform, LogOp.effects, List.foldl_append, foldl_run_storeAll h]
      refine ⟨?_, h, s.log.dataDir, rfl⟩
      rw [LogOp.writes, foldl_write_log]
      rfl
  | truncateFrom fromIndex =>
      rw [perform, truncateFrom_effects, List.foldl_append,
        foldl_run_memory _ fun w hw => tmpWrites_writes hw]
      refine ⟨?_, rfl, s.log.dataDir, rfl⟩
      rw [LogOp.writes, List.foldl_append]
      rfl
  | setCurrentTerm term =>
      rw [perform, LogOp.effects, LogOp.setState,
        foldl_run_memory _ fun w hw => saveState_writes hw]
      exact ⟨rfl, h, s.log.dataDir, rfl⟩
  | setVotedFor candidateId =>
      rw [perform, LogOp.effects, LogOp.setState,
        foldl_run_memory _ fun w hw => saveState_writes hw]
      exact ⟨rfl, h, s.log.dataDir, rfl⟩

/-- `log_file` is `log.jsonl`, and the files mirror the log in memory. -/
structure Sound (serde : Serde) (s : OpenLog) : Prop where
  attached : s.attached = true
  mirrored : ∃ dir, Stored.Sound serde ⟨s.files, on s.log dir⟩

theorem Sound.empty : OpenLog.empty.Sound serde :=
  ⟨rfl, .empty, Stored.Sound.empty⟩

theorem shaped_on (log : RaftLog) (op : LogOp) (dir : DataDir) :
    op.Shaped (on log dir) ↔ op.Shaped log := by
  cases op with
  | appendEntries es => cases es <;> exact Iff.rfl
  | _ => exact Iff.rfl

theorem Sound.perform (h : s.Sound serde) {op : LogOp} (hop : op.Shaped s.log) :
    (s.perform serde op).Sound serde := by
  obtain ⟨dir, hdir⟩ := h.mirrored
  obtain ⟨hfiles, hattached, dir₁, hlog⟩ := perform_eq serde h.attached op
  obtain ⟨dir₂, happly⟩ := apply_on s.log op dir
  have hnext := hdir.perform ((shaped_on s.log op dir).mpr hop)
  rw [Stored.perform, writes_on, happly] at hnext
  refine ⟨hattached, dir₂, ?_⟩
  rw [hfiles, hlog]
  exact hnext

/-- A load yields what is in memory, and opens `log.jsonl`. -/
theorem Sound.load (hserde : serde.Lawful) (h : s.Sound serde) :
    ∃ log', s.files.load serde = some log' ∧ log'.Same s.log ∧
      Sound serde ⟨s.files, log', true⟩ := by
  obtain ⟨dir, hdir⟩ := h.mirrored
  obtain ⟨log', hload, hsame, hsound⟩ := hdir.load hserde
  exact ⟨log', hload, ⟨hsame.1, hsame.2, hsame.3, hsame.4⟩, rfl, log'.dataDir, hsound⟩

/-- The log of a sound state is a list, in memory and in the file. -/
theorem Sound.holds (h : s.Sound serde) : ∃ dir l, (on s.log dir).Holds l ∧
    Mirrors serde s.files dir := by
  obtain ⟨dir, hdir⟩ := h.mirrored
  obtain ⟨l, hl⟩ := hdir.holds
  exact ⟨dir, l, hl, hdir.mirrors⟩

/-- Calls that succeed keep a sound state sound. -/
theorem Sound.further (h : s.Sound serde) {tr : List OpenLog} (hrun : Run serde s Succeeds tr) :
    ∀ s' ∈ tr, s'.Sound serde := by
  refine hrun.invariant h ?_
  intro s₁ event s₂ hs₁ hok hstep
  cases event with
  | call op =>
      obtain rfl := Option.some.inj hstep
      exact hs₁.perform hok
  | fail op k => cases hok
  | restart => cases hok

end Calls

end RaftEbpf.OpenLog
