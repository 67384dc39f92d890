import RaftEbpf.Proofs.JsonText
import RaftEbpf.Proofs.OpenLog

/-!
# `RaftEbpf.Proofs.FailedCalls`: what a call that returns an error leaves behind

`append` writes first and changes memory last, `append_entries` alternates, the three others change
memory first. A write that fails leaves the bytes before it, and `truncate_from` goes on with the
old file where it cannot open the new one.

* `leavesAsItWas_iff`: a failed call leaves term, vote and log in memory as they were, and what is
  loaded later is what is in memory, exactly where the call is `Harmless`: what it had done by
  then changes nothing.
* `not_leavesAsItWas`: a truncation that cannot create its file has removed the entries already,
  and they are back after a restart.
-/

set_option autoImplicit false

namespace RaftEbpf

open RaftEbpf.Lib (Bytes Format HashMap)
open RaftEbpf.Lib.Journal

/-- The last one of these entries with this index. -/
def lastAt (es : List LogEntry) (index : Nat) : Option LogEntry :=
  (es.filter fun e => decide (e.index = index)).getLast?

/-- Storing these entries changes nothing: for each index, the last one is the entry that the log
has. -/
def RaftLog.Repeats (log : RaftLog) (es : List LogEntry) : Prop :=
  ∀ index e, lastAt es index = some e → log.get index = some e

/-- What the call has done before its effect at place `k` changes neither memory nor what a load
reads. -/
def LogOp.Harmless (serde : Serde) (log : RaftLog) (k : Nat) : LogOp → Prop
  -- Nothing is written.
  | .append _ _ => k = 0
  -- Whole lines are written, and their entries are in the log.
  | .appendEntries entries =>
      ∃ j, k = (storeAll serde (entries.take j)).length ∧ log.Repeats (entries.take j)
  -- Nothing is removed, and it is not `log.jsonl` that cannot be opened again.
  | .truncateFrom fromIndex =>
      fromIndex - 1 = log.lastIndex ∧
        k + 1 < ((LogOp.truncateFrom fromIndex).effects serde log).length
  -- The new state is the old one, and `state.json` is not touched.
  | .setCurrentTerm term => log.persistentState = ⟨term, none⟩ ∧ k = 1
  | .setVotedFor candidateId =>
      log.persistentState.votedFor = candidateId.map (HeaplessString.pushStr 64) ∧ k = 1

/-- The failed call leaves memory as it was, and after every further sequence of calls that
succeed, `RaftLog::new` on the directory yields what is in memory. -/
def LeavesAsItWas (serde : Serde) (s : OpenLog) (op : LogOp) (k : Nat) : Prop :=
  (s.fail serde op k).log.Same s.log ∧
    ∀ tr, OpenLog.Run serde (s.fail serde op k) OpenLog.Succeeds tr → ∀ s' ∈ tr,
      ∃ log', s'.files.load serde = some log' ∧ log'.Same s'.log

namespace OpenLog

/-- A call is one that a node makes, and a failed one is harmless. -/
def Orderly (serde : Serde) (s : OpenLog) : Event → Prop
  | .call op => op.Shaped s.log
  | .fail op k => op.Harmless serde s.log k
  | .restart => True

/-! ### What is left behind -/

section Calls
variable {serde : Serde} {s : OpenLog}

/-- In a sound state with the memory of before, nothing has happened. -/
theorem leavesAsItWas_of_sound (hserde : serde.Lawful) {op : LogOp} {k : Nat}
    (h : (s.fail serde op k).Sound serde) (hsame : (s.fail serde op k).log.Same s.log) :
    LeavesAsItWas serde s op k := by
  refine ⟨hsame, fun tr hrun s' hs' => ?_⟩
  obtain ⟨log', hload, hsame', -⟩ := (h.further hrun s' hs').load hserde
  exact ⟨log', hload, hsame'⟩

/-- Nothing is left as it was where the files do not load. -/
theorem not_leavesAsItWas_of_load {op : LogOp} {k : Nat}
    (h : (s.fail serde op k).files.load serde = none) : ¬ LeavesAsItWas serde s op k := by
  rintro ⟨-, hfurther⟩
  obtain ⟨log', hload, -⟩ := hfurther _ .start _ List.mem_cons_self
  rw [h] at hload
  cases hload

end Calls

/-! ### Entries that the log has -/

section Repeats
variable {serde : Serde} {s : OpenLog} {log : RaftLog} {es : List LogEntry}

theorem lastAt_concat (es : List LogEntry) (e : LogEntry) (index : Nat) :
    lastAt (es ++ [e]) index = if e.index = index then some e else lastAt es index := by
  rw [lastAt, List.filter_append]
  split
  · rename_i h
    rw [List.filter_cons_of_pos (by simpa using h), List.filter_nil]
    exact List.getLast?_concat
  · rename_i h
    rw [List.filter_cons_of_neg (by simpa using h), List.filter_nil, List.append_nil]
    rfl

theorem lastAt_isSome {e : LogEntry} (he : e ∈ es) : ∃ f, lastAt es e.index = some f := by
  have hmem : e ∈ es.filter fun f => decide (f.index = e.index) := by
    rw [List.mem_filter]
    exact ⟨he, by simp⟩
  exact ⟨_, List.getLast?_eq_some_getLast (List.ne_nil_of_mem hmem)⟩

/-- What `append_entries` leaves at an index. -/
theorem get_appendEntries (log : RaftLog) (es : List LogEntry) (index : Nat) :
    (log.appendEntries es).get index = (lastAt es index).or (log.get index) := by
  induction es using List.reverseRecOn with
  | nil => rfl
  | append_singleton es e ih =>
      have hstep : log.appendEntries (es ++ [e]) = (log.appendEntries es).appendEntry e := by
        rw [RaftLog.appendEntries, List.foldl_append]
        rfl
      rw [hstep, lastAt_concat]
      show ((log.appendEntries es).entries.insert e.index e).lookup index = _
      by_cases h : e.index = index
      · rw [if_pos h, h, AList.lookup_insert]
        rfl
      · rw [if_neg h, AList.lookup_insert_ne (Ne.symm h)]
        exact ih

theorem lastIndex_appendEntries (log : RaftLog) (es : List LogEntry) :
    log.lastIndex ≤ (log.appendEntries es).lastIndex ∧
      ((∀ e ∈ es, e.index ≤ log.lastIndex) →
        (log.appendEntries es).lastIndex = log.lastIndex) := by
  induction es generalizing log with
  | nil => exact ⟨Nat.le_refl _, fun _ => rfl⟩
  | cons e es ih =>
      obtain ⟨hle, heq⟩ := ih (log.appendEntry e)
      refine ⟨(Nat.le_max_left _ _).trans hle, fun hall => ?_⟩
      have hfirst : (log.appendEntry e).lastIndex = log.lastIndex :=
        Nat.max_eq_left (hall e List.mem_cons_self)
      rw [← hfirst] at hall ⊢
      exact heq fun f hf => hall f (List.mem_cons_of_mem _ hf)

/-- Storing entries again changes nothing exactly if the log has the last one of each index. -/
theorem same_stored_iff {l : List LogEntry} (h : Represents log.entries log.lastIndex l) :
    (stored log es).Same log ↔ log.Repeats es := by
  have hget : ∀ index, (stored log es).get index = (lastAt es index).or (log.get index) :=
    get_appendEntries log es
  have hstate : (stored log es).persistentState = log.persistentState :=
    (RaftNode.appendEntries_frame log es).1
  constructor
  · intro hsame index e he
    rw [← hsame.get index, hget, he]
    rfl
  · intro hrep
    refine ⟨congrArg PersistentState.currentTerm hstate, ?_, ?_, fun index => ?_⟩
    · rw [RaftLog.votedFor, RaftLog.votedFor, hstate]
    · refine (lastIndex_appendEntries log es).2 fun e he => ?_
      obtain ⟨f, hf⟩ := lastAt_isSome he
      obtain ⟨j, hj, hl⟩ := (get_of_represents h).mp (hrep _ _ hf)
      rw [hj, h.last]
      exact (List.getElem?_eq_some_iff.mp hl).1
    · rw [hget]
      cases he : lastAt es index with
      | none => rfl
      | some e => exact (hrep index e he).symm

/-- A load of the lines of these entries stores them. -/
theorem foldl_loadLine_map (log : RaftLog) (es : List LogEntry) :
    ((es.map RaftLog.entryToDisk).foldl RaftLog.loadLine log).SameMemory
      (log.appendEntries es) := by
  induction es generalizing log with
  | nil => exact ⟨rfl, rfl⟩
  | cons e es ih =>
      have hfirst : (RaftLog.loadLine log (RaftLog.entryToDisk e)).SameMemory
          (log.appendEntry e) := by
        simp only [RaftLog.loadLine, RaftLog.diskEntryToLogEntry_entryToDisk]
        exact ⟨rfl, rfl⟩
      obtain ⟨hentries, hlast⟩ := ih (RaftLog.loadLine log (RaftLog.entryToDisk e))
      obtain ⟨hentries', hlast'⟩ := hfirst.appendEntries es
      exact ⟨hentries.trans hentries', hlast.trans hlast'⟩

/-- The lines of entries that the log has can be loaded behind the others. -/
theorem Sound.storing (h : s.Sound serde) (hrep : s.log.Repeats es) :
    (s.storing serde es).Sound serde := by
  obtain ⟨dir, l, hl, hmirrors⟩ := h.holds
  have hmem : Represents s.log.entries s.log.lastIndex l := hl.mem
  -- A load stores the entries once more.
  have hsame : ∀ log : RaftLog, Represents log.entries log.lastIndex l →
      Represents (stored log es).entries (stored log es).lastIndex l := by
    intro log hlog
    have hget : ∀ index, log.get index = s.log.get index := fun index =>
      (hlog.lookup index).trans (hmem.lookup index).symm
    have hrep' : log.Repeats es := fun index e he => (hget index).trans (hrep index e he)
    have hkeep := (same_stored_iff hlog).mpr hrep'
    exact ⟨hkeep.lastIndex.trans hlog.last,
      fun index => (hkeep.get index).trans (hlog.lookup index), hlog.numbered⟩
  refine ⟨h.attached, { dir with logJsonl := dir.logJsonl ++ es.map RaftLog.entryToDisk }, ?_⟩
  refine ⟨⟨?_, hmirrors.state⟩, l, hsame s.log hmem, ?_, ?_⟩
  · show s.files.logJsonl ++ _ = serde.line.text (dir.logJsonl ++ es.map RaftLog.entryToDisk)
    rw [hmirrors.log, Format.text_append]
  · intro log hentries hlast
    have hload : Represents (dir.logJsonl.foldl RaftLog.loadLine log).entries
        (dir.logJsonl.foldl RaftLog.loadLine log).lastIndex l := hl.disk log hentries hlast
    obtain ⟨hentries', hlast'⟩ := foldl_loadLine_map (dir.logJsonl.foldl RaftLog.loadLine log) es
    show Represents
      ((dir.logJsonl ++ es.map RaftLog.entryToDisk).foldl RaftLog.loadLine log).entries
      ((dir.logJsonl ++ es.map RaftLog.entryToDisk).foldl RaftLog.loadLine log).lastIndex l
    rw [List.foldl_append, hentries', hlast']
    exact hsame _ hload
  · have hstate : (stored s.log es).persistentState = s.log.persistentState :=
      (RaftNode.appendEntries_frame s.log es).1
    show dir.stateJson = .json (stored s.log es).persistentState ∨
      dir.stateJson = .absent ∧ (stored s.log es).persistentState = .default
    rw [hstate]
    exact hl.stateJson

end Repeats

/-! ### Calls that append -/

section Append
variable {serde : Serde} {s : OpenLog} {op : LogOp} {k : Nat}

/-- A torn line does not load, or the next call that appends makes it so. -/
theorem not_leavesAsItWas_torn (hserde : serde.Lawful) (hcut : serde.RejectsTorn)
    {lines : List DiskLogEntry} {d : DiskLogEntry} {p : Bytes}
    (hattached : (s.fail serde op k).attached = true)
    (hfiles : (s.fail serde op k).files.logJsonl = serde.line.text lines ++ p) (hne : p ≠ [])
    (hp : p <+: serde.line.encode d) : ¬ LeavesAsItWas serde s op k := by
  rcases read_torn hserde hcut hfiles hne hp with hread | hjoined
  · exact not_leavesAsItWas_of_load (load_of_read hread)
  · rintro ⟨-, hfurther⟩
    have hop : Succeeds (s.fail serde op k) (.call (.appendEntries [⟨1, 0, .noop⟩])) :=
      ⟨le_rfl, by simp, rfl⟩
    obtain ⟨log', hload, -⟩ := hfurther _ (Lib.Run.start.step hop rfl) _ List.mem_cons_self
    have hread : serde.line.read ((s.fail serde op k).perform serde
        (.appendEntries [⟨1, 0, .noop⟩])).files.logJsonl = none := by
      rw [(perform_eq serde hattached _).1, LogOp.writes, foldl_write_log]
      exact hjoined _
    rw [load_of_read hread] at hload
    cases hload

/-- The last line of the file decides about its index. -/
theorem get_new_concat {state : StateFile} {lines : List DiskLogEntry} {e : LogEntry}
    {log : RaftLog} (h : RaftLog.new ⟨state, lines ++ [RaftLog.entryToDisk e]⟩ = some log) :
    log.get e.index = some e := by
  have hlast : ∀ start : RaftLog,
      ((lines ++ [RaftLog.entryToDisk e]).foldl RaftLog.loadLine start).get e.index = some e := by
    intro start
    rw [List.foldl_append, List.foldl_cons, List.foldl_nil, RaftLog.loadLine,
      RaftLog.diskEntryToLogEntry_entryToDisk]
    exact AList.lookup_insert _
  rw [RaftLog.new, RaftLog.loadFromDisk] at h
  split at h
  · obtain rfl := Option.some.inj h
    exact hlast _
  · obtain rfl := Option.some.inj h
    exact hlast _
  · cases h

/-- There is no entry where `append` puts the next one. -/
theorem Sound.get_addOne (h : s.Sound serde) (hword : s.log.lastIndex ≤ u64Max) :
    s.log.get (addOne s.log.lastIndex) = none := by
  obtain ⟨dir, l, hl, -⟩ := h.holds
  have hmem : Represents s.log.entries s.log.lastIndex l := hl.mem
  cases hget : s.log.get (addOne s.log.lastIndex) with
  | none => rfl
  | some e =>
      obtain ⟨j, hj, hlj⟩ := (get_of_represents hmem).mp hget
      have hlt := (List.getElem?_eq_some_iff.mp hlj).1
      rw [← hmem.last] at hlt
      rcases Nat.lt_or_eq_of_le hword with hshort | hfull
      · rw [addOne_of_lt hshort] at hj
        omega
      · -- The counter wraps to 0.
        rw [hfull] at hj
        exact absurd hj (by simp [addOne, u64Max])

/-- A failed `append` leaves things as they were only if it wrote nothing. -/
theorem harmless_append (hserde : serde.Lawful) (hcut : serde.RejectsTorn) (h : s.Sound serde)
    (hword : s.log.lastIndex ≤ u64Max) {term : Nat} {command : Command}
    (hfails : (LogOp.append term command).FailsAt serde s.log k)
    (hleaves : LeavesAsItWas serde s (.append term command) k) : k = 0 := by
  by_contra hk
  let e : LogEntry := ⟨addOne s.log.lastIndex, term, command⟩
  let line := serde.line.text [RaftLog.entryToDisk e]
  have heffects : (LogOp.append term command).effects serde s.log =
      line.map (fun b => Effect.write (.log b)) ++ [.flush, .memory _] := rfl
  have hle : k ≤ line.length := by
    by_contra hgt
    rw [LogOp.FailsAt, heffects, List.getElem?_append_right (by rw [List.length_map]; omega),
      List.length_map] at hfails
    obtain ⟨i, hi⟩ : ∃ i, k - line.length = i + 1 := ⟨k - line.length - 1, by omega⟩
    rw [hi] at hfails
    cases i <;> simp [Effect.canFail] at hfails
  have hfail : s.fail serde (.append term command) k =
      { s with files := { s.files with logJsonl := s.files.logJsonl ++ line.take k } } := by
    rw [OpenLog.fail, heffects, List.take_append_of_le_length (by rwa [List.length_map]),
      ← List.map_take, foldl_run_log h.attached]
  obtain ⟨dir, l, hl, hmirrors⟩ := h.holds
  obtain ⟨j, p, htake, hp⟩ := Format.take_text (f := serde.line) [RaftLog.entryToDisk e] k
  have hbytes : (s.fail serde (.append term command) k).files.logJsonl =
      serde.line.text (dir.logJsonl ++ [RaftLog.entryToDisk e].take j) ++ p := by
    rw [hfail, Format.text_append, List.append_assoc, ← htake]
    exact congrArg (· ++ line.take k) hmirrors.log
  rcases hp with rfl | ⟨d, -, hne, hpre⟩
  · -- The whole line is there: the next load has an entry that memory does not have.
    have hj : [RaftLog.entryToDisk e].take j = [RaftLog.entryToDisk e] := by
      cases j with
      | zero =>
          have hnil : serde.line.text [RaftLog.entryToDisk e] = [] :=
            (List.take_eq_nil_iff.mp htake).resolve_left hk
          rw [Format.text_cons] at hnil
          simp at hnil
      | succ j => simp
    rw [hj, List.append_nil] at hbytes
    have hmirrors' : Mirrors serde (s.fail serde (.append term command) k).files
        { dir with logJsonl := dir.logJsonl ++ [RaftLog.entryToDisk e] } :=
      ⟨hbytes, by rw [hfail]; exact hmirrors.state⟩
    obtain ⟨log', hload, hsame⟩ := hleaves.2 _ .start _ List.mem_cons_self
    rw [hmirrors'.load hserde] at hload
    have hget := hsame.get e.index
    rw [get_new_concat hload, hfail] at hget
    rw [h.get_addOne hword] at hget
    cases hget
  · exact not_leavesAsItWas_torn hserde hcut (by rw [hfail]; exact h.attached) hbytes hne hpre
      hleaves

theorem storeAll_append (es es' : List LogEntry) :
    LogOp.storeAll serde (es ++ es') = LogOp.storeAll serde es ++ LogOp.storeAll serde es' :=
  List.flatMap_append

theorem length_storeEntry (e : LogEntry) :
    (LogOp.storeEntry serde e).length = (serde.line.encode (RaftLog.entryToDisk e)).length + 2 := by
  simp [LogOp.storeEntry, LogOp.writeLine, Format.text_cons]

/-- Where `append_entries` can fail: behind some entries stored whole, or inside the next line. -/
theorem take_storeAll {es : List LogEntry}
    (hfails : ((LogOp.storeAll serde es ++ [Effect.flush])[k]?.map Effect.canFail).getD false
      = true) :
    (∃ j, k = (LogOp.storeAll serde (es.take j)).length) ∨
    ∃ j e p, es[j]? = some e ∧ p ≠ [] ∧ p <+: serde.line.encode (RaftLog.entryToDisk e) ∧
      (LogOp.storeAll serde es ++ [Effect.flush]).take k = LogOp.storeAll serde (es.take j) ++
        p.map fun b => Effect.write (.log b) := by
  induction es generalizing k with
  | nil =>
      cases k with
      | zero => exact Or.inl ⟨0, rfl⟩
      | succ k => simp [LogOp.storeAll] at hfails
  | cons e es ih =>
      have hcons : LogOp.storeAll serde (e :: es) ++ [Effect.flush] =
          LogOp.storeEntry serde e ++ (LogOp.storeAll serde es ++ [Effect.flush]) := by
        rw [LogOp.storeAll, List.flatMap_cons, List.append_assoc]
        rfl
      rw [hcons] at hfails ⊢
      rcases Nat.lt_or_ge k (LogOp.storeEntry serde e).length with hk | hk
      · rw [List.getElem?_append_left hk] at hfails
        rw [List.take_append_of_le_length (Nat.le_of_lt hk)]
        rw [length_storeEntry] at hk
        cases k with
        | zero => exact Or.inl ⟨0, rfl⟩
        | succ k =>
            have hstore : LogOp.storeEntry serde e =
                (serde.line.encode (RaftLog.entryToDisk e)).map (fun b => Effect.write (.log b)) ++
                  [.write (.log newline), .memory (LogOp.remember e)] := by
              rw [LogOp.storeEntry, LogOp.writeLine, Format.text_cons, Format.text_nil,
                List.map_append, List.append_assoc]
              rfl
            have hle : k + 1 ≤ (serde.line.encode (RaftLog.entryToDisk e)).length := by
              by_contra hgt
              -- Behind the newline memory is changed, and that cannot fail.
              rw [hstore, List.getElem?_append_right (by rw [List.length_map]; omega),
                List.length_map,
                show k + 1 - (serde.line.encode (RaftLog.entryToDisk e)).length = 1 by omega]
                at hfails
              simp [Effect.canFail] at hfails
            refine Or.inr ⟨0, e, (serde.line.encode (RaftLog.entryToDisk e)).take (k + 1), rfl, ?_,
              List.take_prefix _ _, ?_⟩
            · intro hnil
              have hlen := congrArg List.length hnil
              rw [List.length_take, List.length_nil] at hlen
              omega
            · rw [hstore, List.take_append_of_le_length (by rwa [List.length_map]), List.map_take]
              rfl
      · obtain ⟨i, rfl⟩ : ∃ i, k = (LogOp.storeEntry serde e).length + i :=
          ⟨k - (LogOp.storeEntry serde e).length, by omega⟩
        rw [List.getElem?_append_right (Nat.le_add_right _ _), Nat.add_sub_cancel_left] at hfails
        rw [List.take_length_add_append]
        rcases ih hfails with ⟨j, rfl⟩ | ⟨j, f, p, hj, hne, hp, htake⟩
        · refine Or.inl ⟨j + 1, ?_⟩
          simp [LogOp.storeAll]
        · refine Or.inr ⟨j + 1, f, p, hj, hne, hp, ?_⟩
          rw [htake, ← List.append_assoc]
          rfl

/-- A failed `append_entries` behind some entries stored whole. -/
theorem fail_appendEntries (h : s.attached = true) (es : List LogEntry) (j : Nat) :
    s.fail serde (.appendEntries es) (LogOp.storeAll serde (es.take j)).length =
      s.storing serde (es.take j) := by
  have hsplit : (LogOp.appendEntries es).effects serde s.log = LogOp.storeAll serde (es.take j) ++
      (LogOp.storeAll serde (es.drop j) ++ [.flush]) := by
    rw [← List.append_assoc, ← storeAll_append, List.take_append_drop]
    rfl
  rw [OpenLog.fail, hsplit, List.take_left, foldl_run_storeAll h]

/-- A failed `append_entries` leaves things as they were only if it stored whole lines, of entries
that the log has. -/
theorem harmless_appendEntries (hserde : serde.Lawful) (hcut : serde.RejectsTorn)
    (h : s.Sound serde) {es : List LogEntry}
    (hfails : (LogOp.appendEntries es).FailsAt serde s.log k)
    (hleaves : LeavesAsItWas serde s (.appendEntries es) k) :
    (LogOp.appendEntries es).Harmless serde s.log k := by
  obtain ⟨dir, l, hl, hmirrors⟩ := h.holds
  have hmem : Represents s.log.entries s.log.lastIndex l := hl.mem
  rcases take_storeAll hfails with ⟨j, rfl⟩ | ⟨j, e, p, -, hne, hp, htake⟩
  · refine ⟨j, rfl, (same_stored_iff hmem).mp ?_⟩
    have hsame := hleaves.1
    rwa [fail_appendEntries h.attached] at hsame
  · have hattached : (s.storing serde (es.take j)).attached = true := h.attached
    have hfail : s.fail serde (.appendEntries es) k =
        (p.map fun b => Effect.write (.log b)).foldl run (s.storing serde (es.take j)) := by
      rw [OpenLog.fail, LogOp.effects, htake, List.foldl_append, foldl_run_storeAll h.attached]
    rw [foldl_run_log hattached] at hfail
    have hfiles : (s.fail serde (.appendEntries es) k).files.logJsonl =
        serde.line.text (dir.logJsonl ++ (es.take j).map RaftLog.entryToDisk) ++ p := by
      rw [hfail, Format.text_append, ← hmirrors.log]
      rfl
    refine absurd hleaves (not_leavesAsItWas_torn hserde hcut ?_ hfiles hne hp)
    rw [hfail]
    exact h.attached

end Append

/-! ### `truncate_from` -/

section Truncate
variable {serde : Serde} {s : OpenLog} {k fromIndex : Nat}

/-- File operations leave memory alone. -/
theorem foldl_run_canFail {effects : List Effect} (h : ∀ e ∈ effects, e.canFail = true) :
    (effects.foldl run s).log = s.log := by
  induction effects generalizing s with
  | nil => rfl
  | cons e effects ih =>
      rw [List.foldl_cons, ih fun f hf => h f (List.mem_cons_of_mem _ hf)]
      have he := h e List.mem_cons_self
      cases e with
      | memory f => cases he
      | write w =>
          cases w with
          | log b =>
              show (if s.attached then { s with files := s.files.write (.log b) } else s).log =
                s.log
              split
              · rfl
              · rfl
          | _ => rfl
      | flush => rfl
      | reopen => rfl

/-- Where `truncate_from` can fail, memory is changed already. -/
theorem fail_truncateFrom (hfails : (LogOp.truncateFrom fromIndex).FailsAt serde s.log k) :
    1 ≤ k ∧ k < ((LogOp.truncateFrom fromIndex).effects serde s.log).length ∧
      (s.fail serde (.truncateFrom fromIndex) k).log = cut s.log fromIndex := by
  have hpos : 1 ≤ k := by
    by_contra hzero
    obtain rfl : k = 0 := by omega
    rw [LogOp.FailsAt, truncateFrom_effects] at hfails
    cases hfails
  have hlt : k < ((LogOp.truncateFrom fromIndex).effects serde s.log).length := by
    by_contra hge
    rw [LogOp.FailsAt, List.getElem?_eq_none (by omega)] at hfails
    cases hfails
  refine ⟨hpos, hlt, ?_⟩
  obtain ⟨i, rfl⟩ : ∃ i, k = i + 1 := ⟨k - 1, by omega⟩
  rw [OpenLog.fail, truncateFrom_effects, List.cons_append, List.take_succ_cons, List.foldl_cons,
    foldl_run_canFail]
  · rfl
  · intro e he
    rcases List.mem_append.mp (List.mem_of_mem_take he) with he | he
    · obtain ⟨w, -, rfl⟩ := List.mem_map.mp he
      rfl
    · simp only [List.mem_cons, List.not_mem_nil, or_false] at he
      rcases he with rfl | rfl | rfl <;> rfl

/-- Removing nothing changes nothing. -/
theorem same_cut {l : List LogEntry} {log : RaftLog}
    (h : Represents log.entries log.lastIndex l) (hlast : fromIndex - 1 = log.lastIndex) :
    Represents (cut log fromIndex).entries (cut log fromIndex).lastIndex l ∧
      (cut log fromIndex).Same log := by
  have hget : ∀ index, (cut log fromIndex).entries.lookup index = log.entries.lookup index := by
    intro index
    show (log.entries.retain _).lookup index = _
    rw [HashMap.lookup_retain]
    split
    · rfl
    · rename_i hge
      cases hlookup : log.entries.lookup index with
      | none => rfl
      | some e =>
          obtain ⟨j, rfl, hj⟩ := (get_of_represents h).mp hlookup
          have hlt := (List.getElem?_eq_some_iff.mp hj).1
          rw [← h.last, ← hlast] at hlt
          exact absurd (by omega) (of_decide_eq_false (by simpa using hge))
  exact ⟨⟨hlast.trans h.last, fun index => (hget index).trans (h.lookup index), h.numbered⟩,
    ⟨rfl, rfl, hlast, hget⟩⟩

/-- An effect that leaves `log.jsonl` and `state.json` alone. -/
def Aside : Effect → Prop
  | .memory _ => True
  | .write w => w = .createTmp ∨ ∃ b, w = .tmp b
  | .flush => True
  | .reopen => False

theorem foldl_run_aside {effects : List Effect} (h : ∀ e ∈ effects, Aside e) :
    (effects.foldl run s).attached = s.attached ∧
      (effects.foldl run s).files.logJsonl = s.files.logJsonl ∧
      (effects.foldl run s).files.stateJson = s.files.stateJson := by
  induction effects generalizing s with
  | nil => exact ⟨rfl, rfl, rfl⟩
  | cons e effects ih =>
      have hrest := ih (s := s.run e) fun f hf => h f (List.mem_cons_of_mem _ hf)
      have he := h e List.mem_cons_self
      rw [List.foldl_cons]
      cases e with
      | memory f => exact hrest
      | write w =>
          rcases he with rfl | ⟨b, rfl⟩
          · exact hrest
          · exact hrest
      | flush => exact hrest
      | reopen => exact absurd he id

/-- Before the rename, `truncate_from` has written its own file only. -/
theorem fail_truncateFrom_aside
    (hk : k + 1 < ((LogOp.truncateFrom fromIndex).effects serde s.log).length) :
    (s.fail serde (.truncateFrom fromIndex) k).attached = s.attached ∧
      (s.fail serde (.truncateFrom fromIndex) k).files.logJsonl = s.files.logJsonl ∧
      (s.fail serde (.truncateFrom fromIndex) k).files.stateJson = s.files.stateJson := by
  have hsplit : (LogOp.truncateFrom fromIndex).effects serde s.log =
      (Effect.memory (fun log' => { log' with
            entries := (cut s.log fromIndex).entries, lastIndex := fromIndex - 1 }) ::
          (tmpWrites (keptBytes serde s.log fromIndex)).map Effect.write ++ [.flush]) ++
        [.write .rename, .reopen] := by
    rw [truncateFrom_effects, List.append_assoc]
    rfl
  rw [hsplit, List.length_append, List.length_cons, List.length_singleton] at hk
  rw [OpenLog.fail, hsplit, List.take_append_of_le_length (by omega)]
  apply foldl_run_aside
  intro e he
  rcases List.mem_append.mp (List.mem_of_mem_take he) with he | he
  · rcases List.mem_cons.mp he with rfl | he
    · trivial
    · obtain ⟨w, hw, rfl⟩ := List.mem_map.mp he
      rcases List.mem_cons.mp hw with rfl | hw
      · exact Or.inl rfl
      · obtain ⟨b, -, rfl⟩ := List.mem_map.mp hw
        exact Or.inr ⟨b, rfl⟩
  · obtain rfl := List.mem_singleton.mp he
    trivial

/-- Where `log.jsonl` cannot be opened again, `log_file` is a file without a name. -/
theorem fail_truncateFrom_reopen
    (hk : k + 1 = ((LogOp.truncateFrom fromIndex).effects serde s.log).length) :
    (s.fail serde (.truncateFrom fromIndex) k).attached = false := by
  have hsplit : (LogOp.truncateFrom fromIndex).effects serde s.log =
      (Effect.memory (fun log' => { log' with
            entries := (cut s.log fromIndex).entries, lastIndex := fromIndex - 1 }) ::
          (tmpWrites (keptBytes serde s.log fromIndex)).map Effect.write ++
            [.flush, .write .rename]) ++ [.reopen] := by
    rw [truncateFrom_effects, List.append_assoc]
    rfl
  rw [hsplit, List.length_append, List.length_singleton] at hk
  rw [OpenLog.fail, hsplit, List.take_append_of_le_length (by omega),
    List.take_of_length_le (by omega), List.foldl_append]
  rfl

variable (serde) in
/-- Without a name, what is appended is in memory only. -/
theorem perform_detached (h : s.attached = false) (e : LogEntry) :
    (s.perform serde (.appendEntries [e])).files = s.files ∧
      (s.perform serde (.appendEntries [e])).log.get e.index = some e := by
  have hline : (LogOp.writeLine serde e).foldl run s = s := by
    rw [LogOp.writeLine]
    generalize serde.line.text [RaftLog.entryToDisk e] = bytes
    induction bytes with
    | nil => rfl
    | cons b bytes ih =>
        have hb : s.run (.write (.log b)) = s := if_neg (by rw [h]; simp)
        rw [List.map_cons, List.foldl_cons, hb]
        exact ih
  have hperform : s.perform serde (.appendEntries [e]) =
      { s with log := LogOp.remember e s.log } := by
    rw [perform, LogOp.effects, LogOp.storeAll, List.flatMap_cons, List.flatMap_nil,
      List.append_nil, LogOp.storeEntry, List.foldl_append, List.foldl_append, hline]
    rfl
  rw [hperform]
  exact ⟨rfl, AList.lookup_insert _⟩

/-- A `truncate_from` that fails leaves things as they were only if it had nothing to remove. Even
then it must not be the last of its operations that fails. -/
theorem harmless_truncateFrom (hfails : (LogOp.truncateFrom fromIndex).FailsAt serde s.log k)
    (hleaves : LeavesAsItWas serde s (.truncateFrom fromIndex) k) :
    (LogOp.truncateFrom fromIndex).Harmless serde s.log k := by
  obtain ⟨hpos, hlt, hlog⟩ := fail_truncateFrom hfails
  obtain ⟨hsame, hfurther⟩ := hleaves
  refine ⟨?_, ?_⟩
  · rw [← hsame.lastIndex, hlog]
    rfl
  · by_contra hlate
    have hlast : k + 1 = ((LogOp.truncateFrom fromIndex).effects serde s.log).length := by omega
    have hdetached := fail_truncateFrom_reopen hlast
    -- Two different calls leave the same files and different logs.
    have hload : ∀ term, ∃ log',
        (s.fail serde (.truncateFrom fromIndex) k).files.load serde = some log' ∧
          log'.get 1 = some ⟨1, term, .noop⟩ := by
      intro term
      have hop : Succeeds (s.fail serde (.truncateFrom fromIndex) k)
          (.call (.appendEntries [⟨1, term, .noop⟩])) := ⟨le_rfl, by simp, rfl⟩
      obtain ⟨log', hload, hsame'⟩ :=
        hfurther _ (Lib.Run.start.step hop rfl) _ List.mem_cons_self
      obtain ⟨hfiles, hget⟩ := perform_detached serde hdetached ⟨1, term, .noop⟩
      rw [hfiles] at hload
      exact ⟨log', hload, (hsame'.get 1).trans hget⟩
    obtain ⟨log₀, hload₀, hget₀⟩ := hload 0
    obtain ⟨log₁, hload₁, hget₁⟩ := hload 1
    obtain rfl : log₀ = log₁ := Option.some.inj (hload₀.symm.trans hload₁)
    simp [hget₀] at hget₁

/-- A `truncate_from` with nothing to remove, before its rename. -/
theorem Sound.fail_truncateFrom (h : s.Sound serde)
    (hfails : (LogOp.truncateFrom fromIndex).FailsAt serde s.log k)
    (hharmless : (LogOp.truncateFrom fromIndex).Harmless serde s.log k) :
    (s.fail serde (.truncateFrom fromIndex) k).Sound serde ∧
      (s.fail serde (.truncateFrom fromIndex) k).log.Same s.log := by
  obtain ⟨dir, l, hl, hmirrors⟩ := h.holds
  obtain ⟨-, -, hlog⟩ := OpenLog.fail_truncateFrom hfails
  obtain ⟨hlast, hearly⟩ := hharmless
  obtain ⟨hattached, hlogJsonl, hstateJson⟩ := fail_truncateFrom_aside hearly
  have hmem : Represents s.log.entries s.log.lastIndex l := hl.mem
  obtain ⟨hrep, hsame⟩ := same_cut hmem hlast
  rw [← hlog] at hsame
  refine ⟨⟨hattached.trans h.attached, dir, ⟨hlogJsonl.trans hmirrors.log, ?_⟩, l, ?_⟩, hsame⟩
  · rw [hstateJson]
    exact hmirrors.state
  · rw [hlog]
    exact ⟨hrep, hl.disk, hl.stateJson⟩

end Truncate

/-! ### `set_current_term` and `set_voted_for` -/

section State
variable {serde : Serde} {s : OpenLog} {op : LogOp} {k : Nat}

theorem persistentState_of_same {log log' : RaftLog} (h : log.Same log') :
    log.persistentState = log'.persistentState := by
  have hterm : log.persistentState.currentTerm = log'.persistentState.currentTerm := h.currentTerm
  have hvote : log.persistentState.votedFor.map (·.asStr) =
      log'.persistentState.votedFor.map (·.asStr) := h.votedFor
  have hinj : Function.Injective fun name : HeaplessString 64 => name.asStr := by
    intro a b hab
    rw [← HeaplessString.pushStr_asStr a, ← HeaplessString.pushStr_asStr b]
    exact congrArg _ hab
  cases hps : log.persistentState
  cases hps' : log'.persistentState
  rw [hps, hps'] at hterm hvote
  rw [PersistentState.mk.injEq]
  exact ⟨hterm, Option.map_injective hinj hvote⟩

/-- Where a call that saves the state can fail, the new state is in memory. -/
theorem fail_setState {ps : PersistentState}
    (heffects : op.effects serde s.log = LogOp.setState serde ps)
    (hfails : op.FailsAt serde s.log k) :
    ∃ i, k = i + 1 ∧ i < (LogOp.saveState serde ps).length ∧ s.fail serde op k =
      { s with
        files := ((LogOp.saveState serde ps).take i).foldl Files.write s.files
        log := { s.log with persistentState := ps } } := by
  rw [LogOp.FailsAt, heffects] at hfails
  cases k with
  | zero => cases hfails
  | succ i =>
      refine ⟨i, rfl, ?_, ?_⟩
      · by_contra hge
        rw [LogOp.setState, List.getElem?_cons_succ, List.getElem?_eq_none (by simpa using hge)]
          at hfails
        cases hfails
      · rw [OpenLog.fail, heffects, LogOp.setState, List.take_succ_cons, ← List.map_take]
        exact foldl_run_memory _ fun w hw => saveState_writes (List.mem_of_mem_take hw)

/-- A call that fails to save the state leaves things as they were only if the state is the same
and `state.json` could not be opened. -/
theorem harmless_setState (hcut : serde.RejectsTorn) {ps : PersistentState}
    (heffects : op.effects serde s.log = LogOp.setState serde ps)
    (hfails : op.FailsAt serde s.log k) (hleaves : LeavesAsItWas serde s op k) :
    s.log.persistentState = ps ∧ k = 1 := by
  obtain ⟨i, rfl, hlt, hfail⟩ := fail_setState heffects hfails
  have hstate := persistentState_of_same hleaves.1
  rw [hfail] at hstate
  refine ⟨hstate.symm, ?_⟩
  cases i with
  | zero => rfl
  | succ i =>
      -- A part of the state is in the file.
      rw [LogOp.saveState, List.length_cons, List.length_map] at hlt
      refine absurd hleaves (not_leavesAsItWas_of_load ?_)
      rw [hfail]
      exact load_of_stateJson hcut (foldl_saveState s.files ps i) (by omega)

/-- The old state again, where `state.json` could not be opened. -/
theorem fail_sameState
    (heffects : op.effects serde s.log = LogOp.setState serde s.log.persistentState) :
    s.fail serde op 1 = s := by
  rw [OpenLog.fail, heffects]
  rfl

end State

/-! ### Every call -/

section
variable {serde : Serde} {s : OpenLog} {op : LogOp} {k : Nat}

/-- A harmless failure keeps a sound state sound, and its memory as it was. -/
theorem Sound.fail (h : s.Sound serde) (hfails : op.FailsAt serde s.log k)
    (hharmless : op.Harmless serde s.log k) :
    (s.fail serde op k).Sound serde ∧ (s.fail serde op k).log.Same s.log := by
  have hkept : s.Sound serde ∧ s.log.Same s.log := ⟨h, rfl, rfl, rfl, fun _ => rfl⟩
  cases op with
  | append term command =>
      obtain rfl : k = 0 := hharmless
      exact hkept
  | appendEntries es =>
      obtain ⟨j, rfl, hrep⟩ := hharmless
      obtain ⟨dir, l, hl, -⟩ := h.holds
      have hmem : Represents s.log.entries s.log.lastIndex l := hl.mem
      rw [fail_appendEntries h.attached]
      exact ⟨h.storing hrep, (same_stored_iff hmem).mpr hrep⟩
  | truncateFrom fromIndex => exact h.fail_truncateFrom hfails hharmless
  | setCurrentTerm term =>
      obtain ⟨hps, rfl⟩ := hharmless
      rw [fail_sameState (by rw [hps]; rfl)]
      exact hkept
  | setVotedFor candidateId =>
      obtain ⟨hvote, rfl⟩ := hharmless
      rw [fail_sameState]
      · exact hkept
      · rw [LogOp.effects, ← hvote]
        rfl

/-- A call that fails in a sound state leaves things as they were exactly if it is harmless. -/
theorem Sound.leaves_iff (hserde : serde.Lawful) (hcut : serde.RejectsTorn)
    (h : s.Sound serde) (hword : s.log.lastIndex ≤ u64Max) (hfails : op.FailsAt serde s.log k) :
    LeavesAsItWas serde s op k ↔ op.Harmless serde s.log k := by
  constructor
  · intro hleaves
    cases op with
    | append term command => exact harmless_append hserde hcut h hword hfails hleaves
    | appendEntries es => exact harmless_appendEntries hserde hcut h hfails hleaves
    | truncateFrom fromIndex => exact harmless_truncateFrom hfails hleaves
    | setCurrentTerm term => exact harmless_setState hcut rfl hfails hleaves
    | setVotedFor candidateId =>
        obtain ⟨hps, hk⟩ := harmless_setState hcut rfl hfails hleaves
        exact ⟨congrArg PersistentState.votedFor hps, hk⟩
  · intro hharmless
    obtain ⟨hsound, hsame⟩ := h.fail hfails hharmless
    exact leavesAsItWas_of_sound hserde hsound hsame

/-- Every state of an orderly life is sound. -/
theorem Sound.run (hserde : serde.Lawful) {tr : List OpenLog}
    (hrun : Run serde .empty (Orderly serde) tr) : ∀ s ∈ tr, s.Sound serde := by
  refine hrun.invariant Sound.empty ?_
  intro s event s' hs hok hstep
  cases event with
  | call op =>
      obtain rfl := Option.some.inj hstep
      exact hs.perform hok
  | fail op k =>
      rw [step] at hstep
      split at hstep
      · rename_i hfails
        obtain rfl := Option.some.inj hstep
        exact (hs.fail hfails hok).1
      · cases hstep
  | restart =>
      obtain ⟨log', hload, -, hsound⟩ := hs.load hserde
      rw [step, hload] at hstep
      obtain rfl := Option.some.inj hstep
      exact hsound

end

end OpenLog

/-- A call returns `Err` at any moment in the life of a log. Memory is as it was, and what is loaded
after any further calls is what is in memory, exactly if the call was harmless. In its life so far,
every call that succeeded was one that a node makes, and every one that failed was harmless. -/
theorem leavesAsItWas_iff {serde : Serde} (hserde : serde.Lawful) (hcut : serde.RejectsTorn)
    {s : OpenLog} {tr : List OpenLog} {op : LogOp} {k : Nat}
    (hrun : OpenLog.Run serde .empty (OpenLog.Orderly serde) (s :: tr))
    (hword : s.log.lastIndex ≤ u64Max) (hfails : op.FailsAt serde s.log k) :
    LeavesAsItWas serde s op k ↔ op.Harmless serde s.log k :=
  (OpenLog.Sound.run hserde hrun s List.mem_cons_self).leaves_iff hserde hcut hword hfails

/-! ### A log with one entry -/

open JsonText (jsonSerde lawful_jsonSerde rejectsTorn_jsonSerde)

/-- The log after its first `append`. -/
def oneEntry : OpenLog := OpenLog.empty.perform jsonSerde (.append 1 .noop)

example : (oneEntry.files.load jsonSerde).map (·.lastIndex) = some 1 := by decide +kernel

/-- A truncation that cannot create its file is not harmless; an `append_entries` of the same entry
is, where its flush fails. -/
theorem leavesAsItWas_iff_oneEntry :
    ¬ LeavesAsItWas jsonSerde oneEntry (.truncateFrom 1) 1 ∧
      LeavesAsItWas jsonSerde oneEntry (.appendEntries [⟨1, 1, .noop⟩])
        (LogOp.storeAll jsonSerde [⟨1, 1, .noop⟩]).length := by
  have hshaped : (LogOp.append 1 .noop).Shaped OpenLog.empty.log := by decide
  have hrun : OpenLog.Run jsonSerde .empty (OpenLog.Orderly jsonSerde) [oneEntry, .empty] :=
    Lib.Run.start.step (a := .call (.append 1 .noop)) hshaped rfl
  constructor
  · rw [leavesAsItWas_iff lawful_jsonSerde rejectsTorn_jsonSerde hrun (by decide +kernel)
      (by decide +kernel)]
    rintro ⟨hlast, -⟩
    revert hlast
    decide +kernel
  · rw [leavesAsItWas_iff lawful_jsonSerde rejectsTorn_jsonSerde hrun (by decide +kernel)
      (by decide +kernel)]
    refine ⟨1, rfl, fun index e he => ?_⟩
    have hlast : lastAt ([] ++ [⟨1, 1, .noop⟩]) index = some e := he
    rw [OpenLog.lastAt_concat] at hlast
    split at hlast
    · rename_i hindex
      obtain rfl := Option.some.inj hlast
      rw [← hindex]
      decide +kernel
    · cases hlast

/-- Where `truncate_from` cannot create its file, the entry has gone from memory. -/
theorem not_leavesAsItWas : ¬ ∀ serde : Serde, serde.Lawful → serde.RejectsTorn → ∀ tr s op k,
    OpenLog.Run serde .empty OpenLog.Succeeds (s :: tr) → op.FailsAt serde s.log k →
      LeavesAsItWas serde s op k := by
  intro hall
  have hshaped : (LogOp.append 1 .noop).Shaped OpenLog.empty.log := by decide
  have hrun : OpenLog.Run jsonSerde .empty OpenLog.Succeeds [oneEntry, .empty] :=
    Lib.Run.start.step (a := .call (.append 1 .noop)) hshaped rfl
  have hleaves := hall jsonSerde lawful_jsonSerde rejectsTorn_jsonSerde _ _ (.truncateFrom 1) 1 hrun
    (by decide +kernel)
  have hlast := hleaves.1.lastIndex
  revert hlast
  decide +kernel

/-- The entry comes back with the next start. -/
example : ((oneEntry.fail jsonSerde (.truncateFrom 1) 1).files.load jsonSerde).map (·.lastIndex) =
    some 1 := by
  decide +kernel

end RaftEbpf
