import RaftEbpf.Lib.Replication.State
import RaftEbpf.Proofs.LogList
import RaftEbpf.Proofs.NodeRun

/-!
# `RaftEbpf.Proofs.StoreEntries`: conflict deletion and append, on lists

`handle_append_entries` cuts its log at the first conflicting entry and then appends every
entry of the request, also those it already has. `storeEntries_holds` says what this is on
lists. Take a log `l` that agrees with the sender's list `O` up to `prev`, and entries that
continue `O` from `prev`. Then the log takes over `O` up to the last entry of the request,
and keeps what it has where it already has all that (`overwrite`).

`storeEntries_keeps` bounds the damage without any assumption on the sender: an index
keeps its entry where no conflicting entry of the request is at or below it and the
request's own entry there, if any, is the same.
-/

set_option autoImplicit false

namespace RaftEbpf

open RaftEbpf.Lib (HashMap)
open RaftEbpf.Lib.Replication (overwrite)

/-- The entries carry the positions after `prev`. -/
def NumberedFrom (prev : Nat) (es : List LogEntry) : Prop :=
  ∀ j e, es[j]? = some e → e.index = prev + j + 1

theorem NumberedFrom.tail {prev : Nat} {e : LogEntry} {es : List LogEntry}
    (h : NumberedFrom prev (e :: es)) : NumberedFrom (prev + 1) es := by
  intro j d hd
  rw [h (j + 1) d hd]
  omega

theorem NumberedFrom.head {prev : Nat} {e : LogEntry} {es : List LogEntry}
    (h : NumberedFrom prev (e :: es)) : e.index = prev + 1 := h 0 e rfl

/-- The positions after `prev` are a range of indices. -/
theorem numberedFrom_iff {prev : Nat} {es : List LogEntry} :
    NumberedFrom prev es ↔ es.map (·.index) = List.range' (prev + 1) es.length := by
  constructor
  · intro h
    induction es generalizing prev with
    | nil => rfl
    | cons e es ih =>
        rw [List.map_cons, List.length_cons, List.range'_succ, h.head, ih h.tail]
  · intro h j e he
    have hj := congrArg (fun l => l[j]?) h
    simp only [List.getElem?_map, he, Option.map_some] at hj
    rw [List.getElem?_range' (List.getElem?_eq_some_iff.mp he).1] at hj
    have := Option.some.inj hj
    omega

/-- A stretch of a numbered list. -/
theorem Numbered.numberedFrom {O es : List LogEntry} (h : Numbered O) {prev : Nat}
    (hes : es <+: O.drop prev) : NumberedFrom prev es := by
  intro j e hj
  obtain ⟨hlt, rfl⟩ := List.getElem?_eq_some_iff.mp hj
  have hO := (List.prefix_iff_getElem?.mp hes) j hlt
  rw [List.getElem?_drop] at hO
  rw [h (prev + j) _ hO]

namespace RaftLog.Holds

/-- Appending entries from position `prev` on. -/
theorem appendEntries {es : List LogEntry} : ∀ {log : RaftLog} {l : List LogEntry} {prev : Nat},
    Holds log l → prev ≤ l.length → NumberedFrom prev es →
    Holds (log.appendEntries es) (l.take prev ++ es ++ l.drop (prev + es.length)) := by
  induction es with
  | nil =>
      intro log l prev h _ _
      simpa [RaftLog.appendEntries] using h
  | cons e es ih =>
      intro log l prev h hprev hnum
      have hput := h.appendEntry hnum.head hprev
      have hlen : (l.take prev).length = prev := by rw [List.length_take]; omega
      have hle : prev + 1 ≤ (putAt l prev e).length := by rw [length_putAt e hprev]; omega
      have hrest := ih hput hle hnum.tail
      have htake : (putAt l prev e).take (prev + 1) = l.take prev ++ [e] := by
        rw [putAt, List.take_append, hlen, List.take_of_length_le (by omega),
          Nat.add_sub_cancel_left]
        rfl
      have hdrop : (putAt l prev e).drop (prev + 1 + es.length)
          = l.drop (prev + (es.length + 1)) := by
        rw [putAt, List.drop_append, hlen, List.drop_of_length_le (by omega), List.nil_append,
          show prev + 1 + es.length - prev = es.length + 1 by omega, List.drop_succ_cons,
          List.drop_drop]
        congr 1
        omega
      rw [htake, hdrop] at hrest
      simpa [RaftLog.appendEntries] using hrest

/-- The scan for a conflict: there is none and the log is as before, or the log is cut at
the first one. -/
theorem deleteConflicting {es : List LogEntry} : ∀ {log : RaftLog} {l : List LogEntry}
    {prev : Nat}, Holds log l → NumberedFrom prev es →
    (RaftNode.deleteConflicting log es = log ∧
      ∀ j e d, es[j]? = some e → l[prev + j]? = some d → d.term = e.term) ∨
    (∃ j e d, es[j]? = some e ∧ l[prev + j]? = some d ∧ d.term ≠ e.term ∧
      Holds (RaftNode.deleteConflicting log es) (l.take (prev + j))) := by
  induction es with
  | nil =>
      intro log l prev _ _
      exact Or.inl ⟨rfl, fun j e d he => by simp at he⟩
  | cons e es ih =>
      intro log l prev h hnum
      have hterm : log.termAt e.index = (l[prev]?).map (·.term) := by
        rw [RaftLog.termAt, hnum.head, h.get_succ]
      -- The scan goes on behind an entry that does not conflict.
      have hgoes : RaftNode.deleteConflicting log (e :: es) = RaftNode.deleteConflicting log es →
          (∀ d, l[prev]? = some d → d.term = e.term) →
          (RaftNode.deleteConflicting log (e :: es) = log ∧
            ∀ j f d, (e :: es)[j]? = some f → l[prev + j]? = some d → d.term = f.term) ∨
          (∃ j f d, (e :: es)[j]? = some f ∧ l[prev + j]? = some d ∧ d.term ≠ f.term ∧
            Holds (RaftNode.deleteConflicting log (e :: es)) (l.take (prev + j))) := by
        intro heq hhead
        rw [heq]
        rcases ih h hnum.tail with ⟨hsame, hall⟩ | ⟨j, f, d, hf, hd, hne, hcut⟩
        · refine Or.inl ⟨hsame, ?_⟩
          intro j f d hf hd
          cases j with
          | zero =>
              obtain rfl : e = f := by simpa using hf
              exact hhead d hd
          | succ j => exact hall j f d hf (by rwa [show prev + 1 + j = prev + (j + 1) by omega])
        · refine Or.inr ⟨j + 1, f, d, hf, ?_, hne, ?_⟩
          · rwa [show prev + (j + 1) = prev + 1 + j by omega]
          · rwa [show prev + (j + 1) = prev + 1 + j by omega]
      cases hl : l[prev]? with
      | none =>
          refine hgoes ?_ (by simp [hl])
          rw [RaftNode.deleteConflicting, hterm, hl]
          rfl
      | some d =>
          by_cases hd : d.term = e.term
          · refine hgoes ?_ (fun d' hd' => ?_)
            · rw [RaftNode.deleteConflicting, hterm, hl]
              simp [hd]
            · rw [hl] at hd'
              exact Option.some.inj hd' ▸ hd
          · refine Or.inr ⟨0, e, d, rfl, hl, hd, ?_⟩
            have hprev : prev ≤ l.length := by
              have := (List.getElem?_eq_some_iff.mp hl).1
              omega
            rw [RaftNode.deleteConflicting, hterm, hl]
            simp only [Option.map_some, ne_eq, hd, not_false_eq_true, if_true, hnum.head]
            exact h.truncateFrom hprev

end RaftLog.Holds

/-- Storing the entries of a request takes over the sender's list up to the last of them. -/
theorem storeEntries_holds {log : RaftLog} {l O es : List LogEntry} {prev : Nat}
    (h : log.Holds l) (hO : Numbered O) (hes : es <+: O.drop prev) (hprev : prev ≤ l.length)
    (htake : l.take prev = O.take prev)
    (hmatch : ∀ j d e, l[j]? = some d → O[j]? = some e → d.term = e.term →
      l.take (j + 1) = O.take (j + 1)) :
    (RaftNode.storeEntries log es).Holds (overwrite l (O.take (prev + es.length))) := by
  have hsplit : O.take (prev + es.length) = l.take prev ++ es := by
    rw [List.take_add, ← htake, ← List.prefix_iff_eq_take.mp hes]
  have hlen : (l.take prev).length = prev := by rw [List.length_take]; omega
  by_cases hnil : es = []
  · subst hnil
    rw [RaftNode.storeEntries, if_neg (by simp)]
    have hpre : O.take (prev + 0) <+: l := by
      rw [Nat.add_zero, ← htake]
      exact List.take_prefix _ _
    rw [List.length_nil, overwrite, if_pos hpre]
    exact h
  · rw [RaftNode.storeEntries, if_pos hnil, hsplit]
    have hpos : 0 < es.length := List.length_pos_of_ne_nil hnil
    have hnum := hO.numberedFrom hes
    rcases h.deleteConflicting hnum with ⟨hsame, hall⟩ | ⟨j, e, d, he, hd, hne, hcut⟩
    · rw [hsame]
      have happ := h.appendEntries hprev hnum
      by_cases hlong : prev + es.length ≤ l.length
      · -- The log has all the entries already: the last one matches.
        have hlast : l.take (prev + es.length) = O.take (prev + es.length) := by
          obtain ⟨k, hk⟩ : ∃ k, es.length = k + 1 := ⟨es.length - 1, by omega⟩
          have hkes : es[k]? = some es[k] := List.getElem?_eq_getElem (by omega)
          have hkO : O[prev + k]? = some es[k] := by
            rw [← List.getElem?_drop]
            exact List.prefix_iff_getElem?.mp hes k (by omega)
          have hkl : l[prev + k]? = some l[prev + k] := List.getElem?_eq_getElem (by omega)
          rw [hk, ← Nat.add_assoc]
          exact hmatch _ _ _ hkl hkO (hall k _ _ hkes hkl)
        have hpre : l.take prev ++ es <+: l := by
          rw [← hsplit, ← hlast]
          exact List.take_prefix _ _
        rw [overwrite, if_pos hpre]
        rwa [← hsplit, ← hlast, List.take_append_drop] at happ
      · have hpre : ¬ l.take prev ++ es <+: l := by
          intro hp
          have := hp.length_le
          rw [List.length_append, hlen] at this
          omega
        rw [overwrite, if_neg hpre]
        rwa [List.drop_of_length_le (by omega), List.append_nil] at happ
    · have hjes : j < es.length := (List.getElem?_eq_some_iff.mp he).1
      have hjl : prev + j < l.length := (List.getElem?_eq_some_iff.mp hd).1
      have happ := hcut.appendEntries (by rw [List.length_take]; omega) hnum
      have hdrop : (l.take (prev + j)).drop (prev + es.length) = [] := by
        apply List.drop_of_length_le
        rw [List.length_take]
        omega
      rw [hdrop, List.append_nil, List.take_take, Nat.min_eq_left (by omega)] at happ
      have hpre : ¬ l.take prev ++ es <+: l := by
        intro hp
        have hj := List.prefix_iff_getElem?.mp hp (prev + j)
          (by rw [List.length_append, hlen]; omega)
        rw [List.getElem_append_right (by omega), hd] at hj
        simp only [hlen, Nat.add_sub_cancel_left] at hj
        rw [(List.getElem?_eq_some_iff.mp he).2] at hj
        exact hne (by rw [Option.some.inj hj])
      rw [overwrite, if_neg hpre]
      exact happ

/-- The logs are the same in memory. -/
def RaftLog.SameMemory (log log' : RaftLog) : Prop :=
  log.entries = log'.entries ∧ log.lastIndex = log'.lastIndex

theorem RaftLog.SameMemory.deleteConflicting {log log' : RaftLog} (h : log.SameMemory log')
    (es : List LogEntry) :
    (RaftNode.deleteConflicting log es).SameMemory (RaftNode.deleteConflicting log' es) := by
  induction es with
  | nil => exact h
  | cons e es ih =>
      have hterm : log.termAt e.index = log'.termAt e.index := by
        rw [RaftLog.termAt, RaftLog.termAt, RaftLog.get, RaftLog.get, h.1]
      rw [RaftNode.deleteConflicting, RaftNode.deleteConflicting, hterm]
      split
      · split
        · exact ⟨congrArg (HashMap.retain fun idx => decide (idx < e.index)) h.1, rfl⟩
        · exact ih
      · exact ih

theorem RaftLog.SameMemory.appendEntries {log log' : RaftLog} (h : log.SameMemory log')
    (es : List LogEntry) : (log.appendEntries es).SameMemory (log'.appendEntries es) := by
  induction es generalizing log log' with
  | nil => exact h
  | cons e es ih =>
      exact ih ⟨congrArg (fun entries => entries.insert e.index e) h.1,
        congrArg (max · e.index) h.2⟩

/-- Storing entries does not look at the directory. -/
theorem RaftLog.SameMemory.storeEntries {log log' : RaftLog} (h : log.SameMemory log')
    (es : List LogEntry) :
    (RaftNode.storeEntries log es).SameMemory (RaftNode.storeEntries log' es) := by
  unfold RaftNode.storeEntries
  split
  · exact (h.deleteConflicting es).appendEntries es
  · exact h

/-- `storeEntries_holds` of the memory alone, whatever the directory holds. -/
theorem storeEntries_represents {log : RaftLog} {l O es : List LogEntry} {prev : Nat}
    (h : Represents log.entries log.lastIndex l) (hO : Numbered O) (hes : es <+: O.drop prev)
    (hprev : prev ≤ l.length) (htake : l.take prev = O.take prev)
    (hmatch : ∀ j d e, l[j]? = some d → O[j]? = some e → d.term = e.term →
      l.take (j + 1) = O.take (j + 1)) :
    Represents (RaftNode.storeEntries log es).entries (RaftNode.storeEntries log es).lastIndex
      (overwrite l (O.take (prev + es.length))) := by
  have hsame : log.SameMemory { log with
      dataDir := ⟨.json log.persistentState, l.map RaftLog.entryToDisk⟩ } := ⟨rfl, rfl⟩
  obtain ⟨hentries, hlast⟩ := hsame.storeEntries es
  rw [hentries, hlast]
  exact (storeEntries_holds (RaftLog.holds_of_represents h) hO hes hprev htake hmatch).mem

/-- Storing entries leaves the term and the vote alone. -/
theorem storeEntries_persistentState (log : RaftLog) (es : List LogEntry) :
    (RaftNode.storeEntries log es).persistentState = log.persistentState := by
  unfold RaftNode.storeEntries
  split
  · rw [(RaftNode.appendEntries_frame _ es).1, (RaftNode.deleteConflicting_frame log es).1]
  · rfl

namespace RaftNode

/-- The term check leaves a request that is not stale in the node's term. -/
theorem currentTerm_raiseTerm {n : RaftNode} {term : Nat} (h : ¬ term < n.log.currentTerm) :
    (raiseTerm n term).log.currentTerm = term := by
  unfold raiseTerm
  split
  · rfl
  · show n.log.currentTerm = term
    omega

/-- An accepted request leaves the node in the term of the request, with the entries stored. -/
theorem accepted_log {n n' : RaftNode} {req : AppendEntriesRequest} {out : List Output}
    (hold : ¬ req.term < n.log.currentTerm) (ha : Applies (accepted n req) n' out) :
    n'.log.currentTerm = req.term ∧
      n'.log = storeEntries (followed n req).log req.entries.toVec := by
  have hlog : n'.log = storeEntries (followed n req).log req.entries.toVec := by
    rw [ha.state]
    rfl
  refine ⟨?_, hlog⟩
  rw [RaftLog.currentTerm, hlog, storeEntries_persistentState]
  exact currentTerm_raiseTerm hold

/-- The term check leaves the memory of the log. -/
theorem sameMemory_followed (n : RaftNode) (req : AppendEntriesRequest) :
    (followed n req).log.SameMemory n.log := by
  unfold followed raiseTerm
  split
  · exact ⟨rfl, rfl⟩
  · exact ⟨rfl, rfl⟩

end RaftNode

/-! ### One index, whatever the sender sent -/

/-- No entry of the request at or below `idx` conflicts with the log. -/
def NoConflictUpTo (log : RaftLog) (es : List LogEntry) (idx : Nat) : Prop :=
  ∀ f ∈ es, f.index ≤ idx → ∀ t, log.termAt f.index = some t → t = f.term

/-- The cut keeps an index below every conflict. -/
theorem deleteConflicting_keeps {log : RaftLog} {es : List LogEntry} {idx : Nat}
    (h : NoConflictUpTo log es idx) :
    (RaftNode.deleteConflicting log es).get idx = log.get idx := by
  induction es with
  | nil => rfl
  | cons f es ih =>
      have hrest := ih fun g hg => h g (List.mem_cons_of_mem _ hg)
      rw [RaftNode.deleteConflicting]
      cases ht : log.termAt f.index with
      | none => exact hrest
      | some t =>
          by_cases hft : t = f.term
          · simpa [hft] using hrest
          · have hlt : idx < f.index := by
              by_contra hge
              exact hft (h f List.mem_cons_self (by omega) t ht)
            simp only [ne_eq, hft, not_false_eq_true, if_true]
            show (log.entries.retain _).lookup idx = _
            rw [HashMap.lookup_retain, if_pos (by simpa using hlt)]
            rfl

/-- Appending keeps an index at which every entry is the one already there. -/
theorem appendEntries_keeps {es : List LogEntry} {idx : Nat} {e : LogEntry} :
    ∀ {log : RaftLog}, log.get idx = some e → (∀ f ∈ es, f.index = idx → f = e) →
      (log.appendEntries es).get idx = some e := by
  induction es with
  | nil => intro log h _; exact h
  | cons f es ih =>
      intro log h hsame
      have hnext : (log.appendEntry f).get idx = some e := ?_
      · exact ih hnext fun g hg => hsame g (List.mem_cons_of_mem _ hg)
      show (log.entries.insert f.index f).lookup idx = some e
      by_cases hf : f.index = idx
      · rw [← hf, AList.lookup_insert, hsame f List.mem_cons_self hf]
      · rw [AList.lookup_insert_ne (Ne.symm hf)]
        exact h

/-- Storing entries keeps an index with no conflict at or below it and no other entry
sent for it. -/
theorem storeEntries_keeps {log : RaftLog} {es : List LogEntry} {idx : Nat} {e : LogEntry}
    (h : log.get idx = some e) (hconf : NoConflictUpTo log es idx)
    (hsame : ∀ f ∈ es, f.index = idx → f = e) :
    (RaftNode.storeEntries log es).get idx = some e := by
  unfold RaftNode.storeEntries
  split
  · exact appendEntries_keeps ((deleteConflicting_keeps hconf).trans h) hsame
  · exact h

/-- A request passes the consistency check only where the log reaches its previous entry,
and has an entry of the named term there. -/
theorem RaftLog.Holds.prev_of_not_mismatch {n : RaftNode} {l : List LogEntry}
    {req : AppendEntriesRequest} (hl : n.log.Holds l) (hm : ¬ RaftNode.Mismatch n req) :
    req.prevLogIndex = 0 ∨
      ∃ k d, req.prevLogIndex = k + 1 ∧ l[k]? = some d ∧ d.term = req.prevLogTerm := by
  cases hp : req.prevLogIndex with
  | zero => exact Or.inl rfl
  | succ k =>
      right
      have hhas : n.log.hasEntry (k + 1) req.prevLogTerm = true := by
        by_contra hne
        exact hm ⟨by omega, by rw [hp]; simpa using hne⟩
      rw [RaftLog.hasEntry, hl.get_succ] at hhas
      cases hd : l[k]? with
      | none => simp [hd] at hhas
      | some d => exact ⟨k, d, rfl, hd, by simpa [hd] using hhas⟩

end RaftEbpf
