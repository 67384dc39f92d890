import RaftEbpf.Proofs.Reload

/-!
# `RaftEbpf.Proofs.Recovery`: where a crash leaves files that load

A call of the log is a list of writes, and a crash keeps any number of them. `truncate_from`
writes a file of its own and renames it. `save_state` cuts `state.json` to nothing before it
writes, and an append is a line with its newline behind it.

* `recovers_iff`: the next `RaftLog::new` succeeds with the log from before or after the call,
  and so does every later one, exactly where the cut is a clean one: nothing or everything
  of `state.json`, whole lines of `log.jsonl`, anything in `truncate_from`.
* `not_recovers` (in `RaftEbpf.Proofs.JsonText`): a crash in `save_state` leaves an empty
  `state.json`, and no log loads from these files again.

A line without its newline loads, but the next line that is appended makes the file
unreadable.
-/

set_option autoImplicit false

namespace RaftEbpf

open RaftEbpf.Lib (Bytes Format)
open RaftEbpf.Lib.Journal

/-- What `serde_json` does not read: a text cut short, and a text behind part of another. -/
structure Serde.RejectsTorn (serde : Serde) : Prop where
  line : serde.line.RejectsCuts
  joined : serde.line.RejectsJoins
  state : serde.state.RejectsCuts

/-- The log from before or after the call; for `append_entries`, with some of its entries. -/
def LogOp.Outcome (log : RaftLog) (op : LogOp) (log' : RaftLog) : Prop :=
  match op with
  | .appendEntries entries => ∃ j, log'.Same (log.appendEntries (entries.take j))
  | op => log'.Same log ∨ log'.Same (op.apply log)

/-- `RaftLog::new` on these files succeeds with the log from before or after the call, and so
it does after every further sequence of calls, with what is then in memory. -/
def Recovers (serde : Serde) (files : Files) (log : RaftLog) (op : LogOp) : Prop :=
  ∃ log', files.load serde = some log' ∧ op.Outcome log log' ∧
    ∀ tr, Stored.Run serde ⟨files, log'⟩ tr → ∀ s ∈ tr,
      ∃ log'', s.files.load serde = some log'' ∧ log''.Same s.log

/-- The call is cut after `k` writes where nothing is torn: what was appended to `log.jsonl` is
whole lines, and of `state.json` nothing or everything is written. -/
def LogOp.CleanCut (serde : Serde) (log : RaftLog) (op : LogOp) (k : Nat) : Prop :=
  match op with
  | .truncateFrom _ => True
  | .setCurrentTerm _ => k = 0 ∨ (op.writes serde log).length ≤ k
  | .setVotedFor _ => k = 0 ∨ (op.writes serde log).length ≤ k
  | op =>
      let written := (serde.line.text (op.appended log)).take k
      written = [] ∨ written.getLast? = some newline

section
variable {serde : Serde} {s : Stored} {op : LogOp} {k : Nat}

/-- Files that mirror a log from before or after the call. -/
theorem recovers_of_sound (hserde : serde.Lawful) {files : Files} {log log₁ : RaftLog}
    (h : Stored.Sound serde ⟨files, log₁⟩)
    (hout : ∀ log', log'.Same log₁ → op.Outcome log log') : Recovers serde files log op := by
  obtain ⟨log', hload, hsame, hsound⟩ := h.load hserde
  refine ⟨log', hload, hout log' hsame, fun tr hrun s hs => ?_⟩
  obtain ⟨log'', hload', hsame', -⟩ := (hsound.run hrun s hs).load hserde
  exact ⟨log'', hload', hsame'⟩

/-! ### Appending to `log.jsonl` -/

/-- The files after a crash in a call that appends. -/
theorem crash_append (h : s.Sound serde)
    (hw : op.writes serde s.log = (serde.line.text (op.appended s.log)).map .log) :
    s.crash serde op k = { s.files with
      logJsonl := serde.line.text s.log.dataDir.logJsonl
        ++ (serde.line.text (op.appended s.log)).take k } := by
  rw [Stored.crash, hw, ← List.map_take, foldl_write_log, h.mirrors.log]

/-- Whole lines of an append. -/
theorem mirrors_append (h : s.Sound serde) {log₁ : RaftLog} {j : Nat} {bytes : Bytes}
    (hbytes : bytes = serde.line.text s.log.dataDir.logJsonl
      ++ serde.line.text ((op.appended s.log).take j))
    (hlog : log₁.dataDir.logJsonl = s.log.dataDir.logJsonl ++ (op.appended s.log).take j)
    (hstate : log₁.dataDir.stateJson = s.log.dataDir.stateJson) :
    Mirrors serde { s.files with logJsonl := bytes } log₁.dataDir where
  log := by rw [hlog, Format.text_append, hbytes]
  state := hstate ▸ h.mirrors.state

/-- A torn line is never read, and a whole line without a newline joins the next one. -/
theorem read_torn (hserde : serde.Lawful) (hcut : serde.RejectsTorn) {bytes : Bytes}
    {lines : List DiskLogEntry} {d : DiskLogEntry} {p : Bytes}
    (hbytes : bytes = serde.line.text lines ++ p) (hne : p ≠ []) (hp : p <+: serde.line.encode d) :
    serde.line.read bytes = none ∨
      ∀ d', serde.line.read (bytes ++ serde.line.text [d']) = none := by
  have hbreak : ∀ b ∈ p, b ≠ newline ∧ b ≠ carriageReturn := fun b hb =>
    (hserde.oneLine d).2 b (hp.subset hb)
  rw [hbytes]
  by_cases hwhole : p = serde.line.encode d
  · refine Or.inr fun d' => ?_
    rw [List.append_assoc, Format.read_text_append_rest hserde.line hserde.oneLine,
      Format.text_cons, ← List.append_assoc,
      Format.read_line_eq_none ?_ ?_ (hcut.joined d _ p hp hne)]
    · rfl
    · intro b hb
      rcases List.mem_append.mp hb with hb | hb
      · exact hbreak b hb
      · exact (hserde.oneLine _).2 b hb
    · simp [hne]
  · left
    rw [Format.read_text_append hserde.line hserde.oneLine _ (fun b hb => (hbreak b hb).1) hne,
      hcut.line d p hp hwhole]
    rfl

/-- A file whose log does not parse does not load. -/
theorem load_of_read {files : Files} (h : serde.line.read files.logJsonl = none) :
    files.load serde = none := by
  rw [Files.load, h]

/-- A torn line is not recovered from. -/
theorem not_recovers_torn (hserde : serde.Lawful) (hcut : serde.RejectsTorn) {files : Files}
    {log : RaftLog} {lines : List DiskLogEntry} {d : DiskLogEntry} {p : Bytes}
    (hfiles : files.logJsonl = serde.line.text lines ++ p) (hne : p ≠ [])
    (hp : p <+: serde.line.encode d) : ¬ Recovers serde files log op := by
  rintro ⟨log', hload, -, hfurther⟩
  rcases read_torn hserde hcut hfiles hne hp with hread | hjoined
  · rw [load_of_read hread] at hload
    cases hload
  · -- The file loads, and the next call appends another line right behind this one.
    have hop : (LogOp.appendEntries [⟨1, 0, .noop⟩]).Shaped log' := ⟨le_rfl, by simp, rfl⟩
    have hstart : Stored.Run serde ⟨files, log'⟩ [⟨files, log'⟩] := .start
    have hrun := hstart.step hop rfl
    obtain ⟨log'', hload', -⟩ := hfurther _ hrun _ List.mem_cons_self
    have hread : serde.line.read ((Stored.perform serde ⟨files, log'⟩
        (.appendEntries [⟨1, 0, .noop⟩])).files.logJsonl) = none := by
      show serde.line.read ((((serde.line.text [RaftLog.entryToDisk ⟨1, 0, .noop⟩]).map
        FileWrite.log).foldl Files.write files).logJsonl) = none
      rw [foldl_write_log]
      exact hjoined _
    rw [load_of_read hread] at hload'
    cases hload'

/-- A crash in a call that appends. -/
theorem recovers_append_iff (hserde : serde.Lawful) (hcut : serde.RejectsTorn)
    (h : s.Sound serde)
    (hw : op.writes serde s.log = (serde.line.text (op.appended s.log)).map .log)
    (hclean : op.CleanCut serde s.log k ↔
      (serde.line.text (op.appended s.log)).take k = [] ∨
        ((serde.line.text (op.appended s.log)).take k).getLast? = some newline)
    (hsome : ∀ j, ∃ log₁ l, log₁.Holds l ∧
      log₁.dataDir.logJsonl = s.log.dataDir.logJsonl ++ (op.appended s.log).take j ∧
      log₁.dataDir.stateJson = s.log.dataDir.stateJson ∧
      ∀ log', log'.Same log₁ → op.Outcome s.log log') :
    Recovers serde (s.crash serde op k) s.log op ↔ op.CleanCut serde s.log k := by
  obtain ⟨j, p, htake, hp⟩ := Format.take_text (f := serde.line) (op.appended s.log) k
  rw [crash_append h hw, hclean, htake]
  rcases hp with rfl | ⟨d, hd, hne, hpre⟩
  · rw [List.append_nil]
    refine iff_of_true ?_ (Format.text_eq_nil_or_getLast? _)
    obtain ⟨log₁, l, hl, hlog, hstate, hout⟩ := hsome j
    exact recovers_of_sound hserde ⟨mirrors_append h rfl hlog hstate, l, hl⟩ hout
  · refine iff_of_false ?_ ?_
    · have hfiles : serde.line.text s.log.dataDir.logJsonl
          ++ (serde.line.text ((op.appended s.log).take j) ++ p)
          = serde.line.text (s.log.dataDir.logJsonl ++ (op.appended s.log).take j) ++ p := by
        rw [Format.text_append, List.append_assoc]
      exact not_recovers_torn hserde hcut hfiles hne hpre
    · -- The last byte is one of the torn line.
      rintro (hnil | hlast)
      · exact hne (List.append_eq_nil_iff.mp hnil).2
      · rw [List.getLast?_append_of_ne_nil _ hne] at hlast
        exact ((hserde.oneLine d).2 _ (hpre.subset (List.mem_of_getLast? hlast))).1 rfl

/-! ### Writing `state.json` -/

/-- The files after some of the writes of `save_state`. -/
theorem foldl_saveState (files : Files) (ps : PersistentState) (i : Nat) :
    (((LogOp.saveState serde ps).take (i + 1)).foldl Files.write files).stateJson =
      some ((serde.state.encode ps).take i) := by
  have hempty : (files.write .truncateState).stateJson = some [] := rfl
  rw [LogOp.saveState, List.take_succ_cons, List.foldl_cons, ← List.map_take,
    foldl_write_state _ _ hempty]
  rfl

/-- Where `state.json` holds a part of a state, nothing loads. -/
theorem load_of_stateJson (hcut : serde.RejectsTorn) {files : Files} {ps : PersistentState}
    {i : Nat} (h : files.stateJson = some ((serde.state.encode ps).take i))
    (hi : i < (serde.state.encode ps).length) : files.load serde = none := by
  have hdec : serde.state.decode ((serde.state.encode ps).take i) = none := by
    refine hcut.state ps _ (List.take_prefix i _) fun heq => ?_
    have hlen := congrArg List.length heq
    rw [List.length_take] at hlen
    omega
  have hstate : files.readState serde = .unparsable := by
    rw [Files.readState, h]
    simp only [hdec]
  rw [Files.load, hstate]
  split
  · rfl
  · rfl

/-- A crash in a call that writes the state. -/
theorem recovers_saveState_iff (hserde : serde.Lawful) (hcut : serde.RejectsTorn)
    (h : s.Sound serde) (hop : op.Shaped s.log) {ps : PersistentState}
    (hw : op.writes serde s.log = LogOp.saveState serde ps)
    (hout : ∀ log', op.Outcome s.log log' ↔ log'.Same s.log ∨ log'.Same (op.apply s.log)) :
    Recovers serde (s.crash serde op k) s.log op ↔
      k = 0 ∨ (op.writes serde s.log).length ≤ k := by
  by_cases hk : k = 0
  · subst hk
    refine iff_of_true ?_ (Or.inl rfl)
    exact recovers_of_sound hserde h fun log' hsame => (hout log').mpr (Or.inl hsame)
  · by_cases hall : (op.writes serde s.log).length ≤ k
    · refine iff_of_true ?_ (Or.inr hall)
      rw [Stored.crash, List.take_of_length_le hall]
      exact recovers_of_sound hserde (h.perform hop) fun log' hsame =>
        (hout log').mpr (Or.inr hsame)
    · refine iff_of_false ?_ (by simp [hk, hall])
      rintro ⟨log', hload, -⟩
      -- The file holds the first `k - 1` bytes of the new state.
      obtain ⟨i, rfl⟩ : ∃ i, k = i + 1 := ⟨k - 1, by omega⟩
      rw [hw, LogOp.saveState, List.length_cons, List.length_map] at hall
      have hfiles : (s.crash serde op (i + 1)).stateJson
          = some ((serde.state.encode ps).take i) := by
        rw [Stored.crash, hw]
        exact foldl_saveState s.files ps i
      rw [load_of_stateJson hcut hfiles (by omega)] at hload
      cases hload

/-! ### Truncating -/

/-- Writes to `log.jsonl.tmp` leave the two other files alone. -/
theorem foldl_write_tmp_frame {ws : List FileWrite} (files : Files)
    (hws : ∀ w ∈ ws, w = .createTmp ∨ ∃ b, w = .tmp b) :
    (ws.foldl Files.write files).logJsonl = files.logJsonl ∧
      (ws.foldl Files.write files).stateJson = files.stateJson := by
  induction ws generalizing files with
  | nil => exact ⟨rfl, rfl⟩
  | cons w ws ih =>
      have hrest := ih (files.write w) fun w' hw' => hws w' (List.mem_cons_of_mem _ hw')
      rcases hws w List.mem_cons_self with rfl | ⟨b, rfl⟩
      · exact hrest
      · exact hrest

/-- A crash in `truncate_from` leaves the old file or the new one. -/
theorem recovers_truncateFrom (hserde : serde.Lawful) (h : s.Sound serde) {fromIndex : Nat}
    (hop : (LogOp.truncateFrom fromIndex).Shaped s.log) :
    Recovers serde (s.crash serde (.truncateFrom fromIndex) k) s.log (.truncateFrom fromIndex) := by
  obtain ⟨bytes, hw⟩ : ∃ bytes : Bytes, (LogOp.truncateFrom fromIndex).writes serde s.log
      = (FileWrite.createTmp :: bytes.map FileWrite.tmp) ++ [FileWrite.rename] :=
    ⟨_, by rw [LogOp.writes]⟩
  by_cases hk : k ≤ (FileWrite.createTmp :: bytes.map FileWrite.tmp).length
  · have hws : ∀ w ∈ (FileWrite.createTmp :: bytes.map FileWrite.tmp).take k,
        w = .createTmp ∨ ∃ b, w = .tmp b := by
      intro w hmem
      rcases List.mem_cons.mp (List.mem_of_mem_take hmem) with rfl | hmem
      · exact Or.inl rfl
      · obtain ⟨b, -, rfl⟩ := List.mem_map.mp hmem
        exact Or.inr ⟨b, rfl⟩
    have hframe := foldl_write_tmp_frame s.files hws
    have hsound : Stored.Sound serde ⟨s.crash serde (.truncateFrom fromIndex) k, s.log⟩ := by
      rw [Stored.crash, hw, List.take_append_of_le_length hk]
      refine ⟨⟨hframe.1.trans h.mirrors.log, ?_⟩, h.holds⟩
      rw [hframe.2]
      exact h.mirrors.state
    exact recovers_of_sound hserde hsound fun log' hsame => Or.inl hsame
  · have hall : ((LogOp.truncateFrom fromIndex).writes serde s.log).length ≤ k := by
      rw [hw, List.length_append, List.length_singleton]
      omega
    rw [Stored.crash, List.take_of_length_le hall]
    exact recovers_of_sound hserde (h.perform hop) fun log' hsame => Or.inr hsame

/-- After every sequence of calls that a node makes, a crash inside the next call is recovered
from exactly where its cut is clean. -/
theorem recovers_iff (hserde : serde.Lawful) (hcut : serde.RejectsTorn) {tr : List Stored}
    (hrun : Stored.Run serde .empty (s :: tr)) (hop : op.Shaped s.log) :
    Recovers serde (s.crash serde op k) s.log op ↔ op.CleanCut serde s.log k := by
  have h : s.Sound serde := Stored.Sound.empty.run hrun s List.mem_cons_self
  obtain ⟨l, hl⟩ := h.holds
  cases op with
  | append term command =>
      refine recovers_append_iff hserde hcut h rfl Iff.rfl fun j => ?_
      cases j with
      | zero =>
          refine ⟨s.log, l, hl, ?_, rfl, fun log' hsame => Or.inl hsame⟩
          rw [List.take_zero, List.append_nil]
      | succ j =>
          obtain ⟨l', hl'⟩ := holds_apply hl hop
          refine ⟨_, l', hl', ?_, rfl, fun log' hsame => Or.inr hsame⟩
          rw [List.take_of_length_le (by simp [LogOp.appended])]
          rfl
  | appendEntries es =>
      refine recovers_append_iff hserde hcut h rfl Iff.rfl fun j => ?_
      obtain ⟨prev, hprev, hnum⟩ := hop.numberedFrom hl
      have hnum' : NumberedFrom prev (es.take j) := by
        intro i e he
        refine hnum i e ?_
        have hlt := (List.getElem?_eq_some_iff.mp he).1
        rw [List.length_take] at hlt
        rwa [List.getElem?_take_of_lt (by omega)] at he
      refine ⟨s.log.appendEntries (es.take j), _, hl.appendEntries hprev hnum', ?_,
        (RaftNode.appendEntries_frame _ _).2, fun log' hsame => ⟨j, hsame⟩⟩
      rw [appendEntries_logJsonl, List.map_take]
      rfl
  | truncateFrom fromIndex =>
      exact iff_of_true (recovers_truncateFrom hserde h hop) trivial
  | setCurrentTerm term =>
      exact recovers_saveState_iff hserde hcut h hop rfl fun _ => Iff.rfl
  | setVotedFor candidateId =>
      exact recovers_saveState_iff hserde hcut h hop rfl fun _ => Iff.rfl

end

end RaftEbpf
