import Mathlib.Data.List.Induction
import Mathlib.Data.List.Infix
import RaftEbpf.Proofs.StoreEntries

/-!
# `RaftEbpf.Proofs.Deliveries`: the requests of one term in any order

A leader's log only grows in its term, and each request carries a slice of it (`SliceOf`). A
follower that accepts a request has the leader's log up to the last entry of the slice, or what it
had already (`accepts_represents`). Taking over two prefixes of one log in any order is taking
over the longer one, so the order of the deliveries does not matter, and neither does their
number.

* `deliveries_agree`: two orders of delivery leave the same log. It has every slice that was
  delivered, and an entry that the leader has is never removed or changed.
-/

set_option autoImplicit false

namespace RaftEbpf

open RaftEbpf.Lib (Prog)
open RaftEbpf.Lib.Replication (overwrite prefix_overwrite overwrite_cases overwrite_take_take
  getElem?_overwrite)
open RaftNode

/-- Two logs with entries of the same index and term are the same up to there. -/
def LogsMatch (l O : List LogEntry) : Prop :=
  ∀ j d e, l[j]? = some d → O[j]? = some e → d.term = e.term → l.take (j + 1) = O.take (j + 1)

instance (l O : List LogEntry) : Decidable (LogsMatch l O) :=
  decidable_of_iff (∀ j < l.length, ∀ d ∈ l[j]?, ∀ e ∈ O[j]?, d.term = e.term →
      l.take (j + 1) = O.take (j + 1))
    ⟨fun h j d e hd he => h j (List.getElem?_eq_some_iff.mp hd).1 d hd e he,
     fun h j _ d hd e he => h j d e hd he⟩

/-- The request has a slice of this log: its entries follow `prev_log_index` there, and where it
has any, `prev_log_term` is the term before them. -/
structure SliceOf (O : List LogEntry) (req : AppendEntriesRequest) : Prop where
  entries : req.entries.toVec <+: O.drop req.prevLogIndex
  prev : req.entries.toVec ≠ [] → ∀ k e, req.prevLogIndex = k + 1 → O[k]? = some e →
    req.prevLogTerm = e.term

/-- The index of the last entry of the request. 0: it has none. -/
def AppendEntriesRequest.reach (req : AppendEntriesRequest) : Nat :=
  if req.entries.toVec = [] then 0 else req.prevLogIndex + req.entries.toVec.length

/-- The answer of an accepted request. -/
def Output.isSuccess : Output → Bool
  | .send env =>
      match env.message with
      | .appendEntriesResponse resp => resp.success
      | _ => false
  | _ => false

/-- The node after this request. -/
def RaftNode.receive (n : RaftNode) (sender : String) (req : AppendEntriesRequest) : RaftNode :=
  ((handleAppendEntries sender req).run [] n).state

/-- The node answers this request with a success. -/
def RaftNode.Grants (n : RaftNode) (sender : String) (req : AppendEntriesRequest) : Prop :=
  ∃ o ∈ ((handleAppendEntries sender req).run [] n).out, o.isSuccess = true

instance (n : RaftNode) (sender : String) (req : AppendEntriesRequest) :
    Decidable (n.Grants sender req) :=
  inferInstanceAs (Decidable (∃ o ∈ _, _ = true))

/-! ### One delivery -/

/-- What `send_heartbeats` builds from a log is a slice of it, and of every longer one, whatever
`next_index` is. -/
theorem sliceOf_heartbeatRequest {lead : RaftNode} {L O : List LogEntry}
    (hL : Represents lead.log.entries lead.log.lastIndex L) (hO : L <+: O)
    (term commitIndex : Nat) (peerId : String) :
    SliceOf O (heartbeatRequest lead term commitIndex peerId) := by
  have hheld := RaftLog.holds_of_represents hL
  have hentries : (heartbeatRequest lead term commitIndex peerId).entries.toVec =
      (L.drop (heartbeatRequest lead term commitIndex peerId).prevLogIndex).take 64 :=
    congrArg (List.take 64) (hheld.getEntries _)
  refine ⟨?_, fun hne k e hprev hk => ?_⟩
  · rw [hentries]
    exact (List.take_prefix _ _).trans (hO.drop _)
  · -- Where there are entries, `prev_log_index` is inside the log.
    have hlt : k < L.length := by
      by_contra hge
      rw [hentries, hprev, List.drop_of_length_le (by omega)] at hne
      exact hne rfl
    have hget : lead.log.get (k + 1) = some e := by
      have hsame : L[k]? = O[k]? := by
        rw [List.getElem?_eq_getElem hlt]
        exact (List.prefix_iff_getElem?.mp hO k hlt).symm
      exact (hheld.get_succ k).trans (hsame.trans hk)
    show (lead.log.termAt (heartbeatRequest lead term commitIndex peerId).prevLogIndex).getD 0 = _
    rw [hprev, RaftLog.termAt, hget]
    rfl

/-- A success means that the request is not stale, fits the log, and is stored. -/
theorem grants_cases {n : RaftNode} {sender : String} {req : AppendEntriesRequest}
    (h : n.Grants sender req) : ¬ req.term < n.log.currentTerm ∧ ¬ Mismatch n req ∧
      ∃ out, Applies (accepted n req) (n.receive sender req) out := by
  obtain ⟨o, ho, hsuccess⟩ := h
  rcases run_handleAppendEntries_cases n sender req with
    ⟨-, hrun⟩ | ⟨-, -, hrun⟩ | ⟨hold, hm, n', out, hrun, ha⟩
  · rw [hrun] at ho
    obtain rfl := List.mem_singleton.mp ho
    cases hsuccess
  · rw [hrun] at ho
    obtain rfl := List.mem_singleton.mp ho
    cases hsuccess
  · have hstate : n.receive sender req = n' := congrArg Prog.Result.state hrun
    exact ⟨hold, hm, out, hstate ▸ ha⟩

/-- An accepted slice of a log that matches: the follower has that log up to the end of the slice,
or what it had already. -/
theorem represents_of_grants {n : RaftNode} {l O : List LogEntry} {sender : String}
    {req : AppendEntriesRequest} (h : Represents n.log.entries n.log.lastIndex l)
    (hO : Numbered O) (hmatch : LogsMatch l O) (hslice : SliceOf O req)
    (hgrants : n.Grants sender req) :
    Represents (n.receive sender req).log.entries (n.receive sender req).log.lastIndex
      (overwrite l (O.take req.reach)) := by
  obtain ⟨hold, hm, out, ha⟩ := grants_cases hgrants
  obtain ⟨-, hlog⟩ := accepted_log hold ha
  obtain ⟨hentries, hlast⟩ := (sameMemory_followed n req).storeEntries req.entries.toVec
  rw [hlog, hentries, hlast]
  by_cases hnil : req.entries.toVec = []
  · rw [AppendEntriesRequest.reach, if_pos hnil, hnil, List.take_zero]
    rw [Lib.Replication.overwrite_eq_left List.nil_prefix]
    exact h
  · rw [AppendEntriesRequest.reach, if_neg hnil]
    -- Where there are entries, the log agrees with the sender's up to `prev_log_index`.
    obtain ⟨hprev, htake⟩ : req.prevLogIndex ≤ l.length ∧
        l.take req.prevLogIndex = O.take req.prevLogIndex := by
      have hheld : ({ n with log := { n.log with dataDir := ⟨.json n.log.persistentState,
          l.map RaftLog.entryToDisk⟩ } } : RaftNode).log.Holds l := RaftLog.holds_of_represents h
      rcases hheld.prev_of_not_mismatch hm with hzero | ⟨k, d, hk, hd, hterm⟩
      · rw [hzero]
        exact ⟨Nat.zero_le _, rfl⟩
      · have hkl : k < l.length := (List.getElem?_eq_some_iff.mp hd).1
        have hkO : k < O.length := by
          by_contra hge
          have hempty := hslice.entries
          rw [hk, List.drop_of_length_le (by omega)] at hempty
          exact hnil (List.prefix_nil.mp hempty)
        have he : O[k]? = some O[k] := List.getElem?_eq_getElem hkO
        rw [hk]
        exact ⟨hkl, hmatch k d _ hd he (hterm.trans (hslice.prev hnil k _ hk he))⟩
    exact storeEntries_represents h hO hslice.entries hprev htake hmatch

/-- Taking over a prefix of a log that matches leaves a log that matches. -/
theorem LogsMatch.overwrite {l O : List LogEntry} (h : LogsMatch l O) (k : Nat) :
    LogsMatch (overwrite l (O.take k)) O := by
  rcases overwrite_cases l (O.take k) with heq | heq
  · rw [heq]
    exact h
  · rw [heq]
    intro j d e hd _ _
    have hlt := (List.getElem?_eq_some_iff.mp hd).1
    rw [List.length_take] at hlt
    rw [List.take_take, Nat.min_eq_left (by omega)]

/-! ### Any number of deliveries -/

/-- The follower after these requests. -/
def RaftNode.deliver (sender : String) : RaftNode → List AppendEntriesRequest → RaftNode
  | n, [] => n
  | n, req :: reqs => (n.receive sender req).deliver sender reqs

/-- Each of these requests is accepted where it arrives. -/
def RaftNode.GrantsAll (sender : String) : RaftNode → List AppendEntriesRequest → Prop
  | _, [] => True
  | n, req :: reqs => n.Grants sender req ∧ (n.receive sender req).GrantsAll sender reqs

/-- The last index that the requests reach. -/
def reachOf : List AppendEntriesRequest → Nat
  | [] => 0
  | req :: reqs => max req.reach (reachOf reqs)

theorem reachOf_le_iff {reqs : List AppendEntriesRequest} {k : Nat} :
    reachOf reqs ≤ k ↔ ∀ req ∈ reqs, req.reach ≤ k := by
  induction reqs with
  | nil => simp [reachOf]
  | cons req reqs ih => rw [reachOf, Nat.max_le, ih, List.forall_mem_cons]

theorem GrantsAll.before {sender : String} {before after : List AppendEntriesRequest}
    {req : AppendEntriesRequest} {n : RaftNode} (h : n.GrantsAll sender (before ++ req :: after)) :
    n.GrantsAll sender before ∧ (n.deliver sender before).Grants sender req := by
  induction before generalizing n with
  | nil => exact ⟨trivial, h.1⟩
  | cons r before ih =>
      obtain ⟨hbefore, hreq⟩ := ih h.2
      exact ⟨⟨h.1, hbefore⟩, hreq⟩

theorem deliver_snoc (sender : String) (before : List AppendEntriesRequest)
    (req : AppendEntriesRequest) (n : RaftNode) :
    n.deliver sender (before ++ [req]) = (n.deliver sender before).receive sender req := by
  induction before generalizing n with
  | nil => rfl
  | cons r before ih => exact ih (n.receive sender r)

/-- After any deliveries the follower has the sender's log up to the last index reached, or what
it had at first. Induction on the deliveries: the first one leaves a log that matches as well. -/
theorem represents_deliver {O : List LogEntry} {sender : String} (hO : Numbered O)
    {reqs : List AppendEntriesRequest} (hslices : ∀ req ∈ reqs, SliceOf O req) {n : RaftNode}
    {F : List LogEntry} (h : Represents n.log.entries n.log.lastIndex F) (hmatch : LogsMatch F O)
    (hgrants : n.GrantsAll sender reqs) :
    Represents (n.deliver sender reqs).log.entries (n.deliver sender reqs).log.lastIndex
      (overwrite F (O.take (reachOf reqs))) := by
  induction reqs generalizing n F with
  | nil =>
      rw [reachOf, List.take_zero, Lib.Replication.overwrite_eq_left List.nil_prefix]
      exact h
  | cons req reqs ih =>
      obtain ⟨hreq, hrest⟩ := hgrants
      have hfirst := represents_of_grants h hO hmatch (hslices req List.mem_cons_self) hreq
      have hall := ih (fun r hr => hslices r (List.mem_cons_of_mem _ hr)) hfirst
        (hmatch.overwrite _) hrest
      rwa [overwrite_take_take] at hall

/-! ### Two orders -/

/-- How a leader's log grows in one term, and how the follower's log compares with it. -/
structure Growth (L : Nat → List LogEntry) (F : List LogEntry) : Prop where
  grows : ∀ j, L j <+: L (j + 1)
  numbered : ∀ j, Numbered (L j)
  matching : ∀ j, LogsMatch F (L j)

theorem Growth.mono {L : Nat → List LogEntry} {F : List LogEntry} (h : Growth L F) {i j : Nat}
    (hij : i ≤ j) : L i <+: L j := by
  induction hij with
  | refl => exact List.prefix_refl _
  | step _ ih => exact ih.trans (h.grows _)

/-- A request that `send_heartbeats` built, in the term, from some stage of the leader's log: with
any `next_index` and any commit index. -/
def BuiltFrom (L : Nat → List LogEntry) (term : Nat) (req : AppendEntriesRequest) : Prop :=
  ∃ j lead commitIndex peerId, Represents lead.log.entries lead.log.lastIndex (L j) ∧
    req = heartbeatRequest lead term commitIndex peerId

/-- From some stage on the log has all the slices. -/
theorem Growth.exists_slices {L : Nat → List LogEntry} {F : List LogEntry} (h : Growth L F)
    {term : Nat} {reqs : List AppendEntriesRequest} (hbuilt : ∀ req ∈ reqs, BuiltFrom L term req) :
    ∃ J, ∀ j, J ≤ j → ∀ req ∈ reqs, SliceOf (L j) req := by
  induction reqs with
  | nil => exact ⟨0, by simp⟩
  | cons req reqs ih =>
      obtain ⟨J, hslices⟩ := ih fun r hr => hbuilt r (List.mem_cons_of_mem _ hr)
      obtain ⟨i, lead, commitIndex, peerId, hlead, rfl⟩ := hbuilt req List.mem_cons_self
      refine ⟨max i J, fun j hj r hr => ?_⟩
      rcases List.mem_cons.mp hr with rfl | hr
      · exact sliceOf_heartbeatRequest hlead (h.mono (by omega)) term commitIndex peerId
      · exact hslices j (by omega) r hr

/-- The two logs have the same entries and the same last index. -/
def RaftLog.SameEntries (log log' : RaftLog) : Prop :=
  log.lastIndex = log'.lastIndex ∧ ∀ i, log.get i = log'.get i

theorem sameEntries_of_represents {log log' : RaftLog} {l : List LogEntry}
    (h : Represents log.entries log.lastIndex l) (h' : Represents log'.entries log'.lastIndex l) :
    log.SameEntries log' :=
  ⟨h.last.trans h'.last.symm, fun i => (h.lookup i).trans (h'.lookup i).symm⟩

/-- Two orders of delivery of the same requests, with any repetitions, leave the same log if every
request is accepted. The log has all that was delivered, and no delivery removes or changes an
entry that the leader has by any stage. -/
theorem deliveries_agree {n : RaftNode} {F : List LogEntry} {L : Nat → List LogEntry} {term : Nat}
    {sender : String} {reqs reqs' : List AppendEntriesRequest}
    (hF : Represents n.log.entries n.log.lastIndex F) (hL : Growth L F)
    (hbuilt : ∀ req ∈ reqs, BuiltFrom L term req) (hsame : ∀ req, req ∈ reqs ↔ req ∈ reqs')
    (hgrants : n.GrantsAll sender reqs) (hgrants' : n.GrantsAll sender reqs') :
    (n.deliver sender reqs).log.SameEntries (n.deliver sender reqs').log ∧
      (∀ req ∈ reqs, ∀ e ∈ req.entries.toVec,
        (n.deliver sender reqs).log.get e.index = some e) ∧
      ∀ before req after, reqs = before ++ req :: after → ∀ j i e,
        (n.deliver sender before).log.get i = some e → (L j)[i - 1]? = some e →
          (n.deliver sender (before ++ [req])).log.get i = some e := by
  obtain ⟨J, hslices⟩ := hL.exists_slices hbuilt
  have hend := represents_deliver (hL.numbered J) (hslices J (Nat.le_refl _)) hF (hL.matching J)
    hgrants
  have hend' := represents_deliver (hL.numbered J)
    (fun r hr => hslices J (Nat.le_refl _) r ((hsame r).mpr hr)) hF (hL.matching J) hgrants'
  refine ⟨?_, ?_, ?_⟩
  · have hreach : reachOf reqs = reachOf reqs' := by
      apply le_antisymm
      · exact reachOf_le_iff.mpr fun r hr =>
          reachOf_le_iff.mp (Nat.le_refl (reachOf reqs')) r ((hsame r).mp hr)
      · exact reachOf_le_iff.mpr fun r hr =>
          reachOf_le_iff.mp (Nat.le_refl (reachOf reqs)) r ((hsame r).mpr hr)
    rw [← hreach] at hend'
    exact sameEntries_of_represents hend hend'
  · intro req hreq e he
    have hslice := hslices J (Nat.le_refl _) req hreq
    obtain ⟨p, hp⟩ := List.mem_iff_getElem?.mp he
    have hlt : p < req.entries.toVec.length := (List.getElem?_eq_some_iff.mp hp).1
    have hO : (L J)[req.prevLogIndex + p]? = some e := by
      rw [← List.getElem?_drop, ← hp]
      rw [List.prefix_iff_getElem?.mp hslice.entries p hlt, List.getElem?_eq_getElem hlt]
    have hreach : req.prevLogIndex + p < reachOf reqs := by
      have hle := reachOf_le_iff.mp (Nat.le_refl (reachOf reqs)) req hreq
      rw [AppendEntriesRequest.reach, if_neg (List.ne_nil_of_mem he)] at hle
      omega
    refine (get_of_represents hend).mpr ⟨_, hL.numbered J _ _ hO, ?_⟩
    have htaken : ((L J).take (reachOf reqs))[req.prevLogIndex + p]? = some e := by
      rw [List.getElem?_take_of_lt hreach, hO]
    obtain ⟨hlt', -⟩ := List.getElem?_eq_some_iff.mp htaken
    rw [← htaken, List.prefix_iff_getElem?.mp (prefix_overwrite F _) _ hlt',
      List.getElem?_eq_getElem hlt']
  · rintro before req after rfl j i e hget hagree
    -- A stage that has the slices and the entry.
    have hjJ : j ≤ max j J := Nat.le_max_left j J
    have hslices' := hslices (max j J) (Nat.le_max_right j J)
    obtain ⟨hbefore, hreq⟩ := GrantsAll.before hgrants
    have hnow := represents_deliver (hL.numbered _)
      (fun r hr => hslices' r (List.mem_append_left _ hr)) hF (hL.matching (max j J)) hbefore
    have hnext := represents_of_grants hnow (hL.numbered _) ((hL.matching _).overwrite _)
      (hslices' req (List.mem_append_right _ List.mem_cons_self)) hreq
    obtain ⟨k, rfl, hk⟩ := (get_of_represents hnow).mp hget
    have hkO : (L (max j J))[k]? = some e := by
      obtain ⟨hlt, heq⟩ := List.getElem?_eq_some_iff.mp hagree
      rw [Nat.add_sub_cancel] at hlt
      rw [List.prefix_iff_getElem?.mp (hL.mono hjJ) k hlt]
      exact congrArg some heq
    rw [deliver_snoc]
    exact (get_of_represents hnext).mpr ⟨k, rfl, getElem?_overwrite hk
      ((hL.matching _).overwrite _ k e e hk hkO rfl) (List.take_prefix _ _)⟩

/-! ### Overlapping requests -/

/-- A log with these entries, on an empty directory. -/
def logWith (es : List LogEntry) : RaftLog := (RaftLog.unloaded .empty).appendEntries es

theorem represents_logWith {es : List LogEntry}
    (h : es.map (·.index) = List.range' 1 es.length) :
    Represents (logWith es).entries (logWith es).lastIndex es := by
  have hheld := RaftLog.Holds.empty.appendEntries (Nat.zero_le 0) (numberedFrom_iff.mpr h)
  simpa [logWith] using hheld.mem

/-- Node A with this log, where its peer B needs the entries from `next` on. -/
def leaderWith (es : List LogEntry) (next : Nat) : RaftNode :=
  { RaftNode.withLog "A" ∅ (logWith es) with nextIndex := AList.insert "B" next ∅ }

/-- The leader of term 2 has two entries, and then a third one. -/
def leaderLog : Nat → List LogEntry
  | 0 => [⟨1, 1, .noop⟩, ⟨2, 2, .noop⟩]
  | _ + 1 => [⟨1, 1, .noop⟩, ⟨2, 2, .noop⟩, ⟨3, 2, .noop⟩]

/-- The follower has the first one, and two others of term 1. -/
def followerLog : List LogEntry := [⟨1, 1, .noop⟩, ⟨2, 1, .noop⟩, ⟨3, 1, .noop⟩]

/-- The request for the entry at 2, before and after the leader has a third one. -/
def overlapping (j : Nat) : AppendEntriesRequest :=
  heartbeatRequest (leaderWith (leaderLog j) 2) 2 0 "B"

theorem growth_leaderLog : Growth leaderLog followerLog where
  grows j := by cases j <;> exact ⟨_, rfl⟩
  numbered j := by
    cases j with
    | zero => exact (represents_logWith (by decide)).numbered
    | succ j =>
        have hlong : Represents (logWith (leaderLog 1)).entries (logWith (leaderLog 1)).lastIndex
            (leaderLog 1) := represents_logWith (by decide)
        exact hlong.numbered
  matching j := by
    cases j with
    | zero => exact (by decide : LogsMatch followerLog (leaderLog 0))
    | succ j => exact (by decide : LogsMatch followerLog (leaderLog 1))

/-- The shorter request before the longer one, or between two copies of it. -/
theorem deliveries_agree_overlapping :
    ((RaftNode.withLog "B" ∅ (logWith followerLog)).deliver "A"
        [overlapping 0, overlapping 1]).log.SameEntries
      ((RaftNode.withLog "B" ∅ (logWith followerLog)).deliver "A"
        [overlapping 1, overlapping 0, overlapping 1]).log := by
  have hbuilt : ∀ req ∈ [overlapping 0, overlapping 1], BuiltFrom leaderLog 2 req := by
    simp only [List.mem_cons, List.not_mem_nil, or_false]
    rintro req (rfl | rfl)
    · exact ⟨0, _, 0, "B", represents_logWith (by decide), rfl⟩
    · exact ⟨1, _, 0, "B", represents_logWith (by decide), rfl⟩
  have hsame : ∀ req, req ∈ [overlapping 0, overlapping 1] ↔
      req ∈ [overlapping 1, overlapping 0, overlapping 1] := by
    simp only [List.mem_cons, List.not_mem_nil, or_false]
    tauto
  exact (deliveries_agree (represents_logWith (by decide)) growth_leaderLog hbuilt hsame
    ⟨by decide +kernel, by decide +kernel, trivial⟩
    ⟨by decide +kernel, by decide +kernel, by decide +kernel, trivial⟩).1

end RaftEbpf
