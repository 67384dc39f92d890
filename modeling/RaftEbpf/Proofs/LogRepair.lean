import Mathlib.Logic.Function.Iterate
import RaftEbpf.Lib.Replication.Repair
import RaftEbpf.Proofs.Deliveries
import RaftEbpf.Proofs.Locks

/-!
# `RaftEbpf.Proofs.LogRepair`: the rounds between a leader and one follower

A round is one `send_heartbeats` of the leader, the follower's handling of the request for it, and
the leader's handling of the answer. A request of the leader fits the follower's log exactly if
`prev_log_index` is inside the common prefix of the two logs (`mismatch_iff`), so a round is a
step of `Lib.Replication.Repair` with batches of 64 (`Repairing.round`).

* `logRepair`: after some round, and from then on, the follower has the whole log of the leader,
  and no round shortens the common prefix.
-/

set_option autoImplicit false

namespace RaftEbpf

open RaftEbpf.Lib (Prog)
open RaftEbpf.Lib.Replication (Repair common le_common_iff common_le_left common_le_right
  take_common prefix_iff_common overwrite overwrite_eq_left overwrite_cases)
open RaftNode

/-- The envelopes for one node. -/
def addressedTo (id : String) (out : List Output) : List MessageEnvelope :=
  out.filterMap fun o =>
    match o with
    | .send env => if env.recipient.asStr = id then some env else none
    | _ => none

/-- The node after these envelopes, and what it sent. No write fails. -/
def RaftNode.handleEach (n : RaftNode) : List MessageEnvelope → RaftNode × List Output
  | [] => (n, [])
  | env :: envs =>
      let r := (handleMessage env).run [] n
      let rest := r.state.handleEach envs
      (rest.1, r.out ++ rest.2)

/-- A leader and one of its followers. -/
structure Pair where
  leader : RaftNode
  follower : RaftNode

/-- `send_heartbeats` at the leader, `handle_append_entries` at the follower, and
`handle_append_entries_response` at the leader. -/
def Pair.round (p : Pair) : Pair :=
  let sent := sendHeartbeats.run [] p.leader
  let answered := p.follower.handleEach (addressedTo p.follower.nodeId sent.out)
  ⟨(sent.state.handleEach (addressedTo p.leader.nodeId answered.2)).1, answered.1⟩

/-- The leader is Leader, the follower is one of its peers and in no later term, and ids are not
cut off in envelopes. -/
structure Pair.Linked (p : Pair) : Prop where
  role : p.leader.role = .leader
  peer : p.follower.nodeId ∈ p.leader.peers.keys
  leaderFits : p.leader.nodeId.utf8ByteSize ≤ 64
  peersFit : ∀ id ∈ p.leader.peers.keys, id.utf8ByteSize ≤ 64
  term : p.follower.log.currentTerm ≤ p.leader.log.currentTerm

/-- The two logs have the same entries at `1 ..= k`. -/
def RaftLog.AgreeUpTo (log log' : RaftLog) (k : Nat) : Prop :=
  ∀ i, 1 ≤ i → i ≤ k → ∃ e, log.get i = some e ∧ log'.get i = some e

theorem agreeUpTo_iff {log log' : RaftLog} {O l : List LogEntry} {k : Nat}
    (hO : Represents log.entries log.lastIndex O) (hl : Represents log'.entries log'.lastIndex l) :
    log.AgreeUpTo log' k ↔ k ≤ common l O := by
  have hO' := RaftLog.holds_of_represents hO
  have hl' := RaftLog.holds_of_represents hl
  constructor
  · intro h
    have hboth : ∀ j, j < k → ∃ e, O[j]? = some e ∧ l[j]? = some e := by
      intro j hj
      obtain ⟨e, he, he'⟩ := h (j + 1) (by omega) hj
      exact ⟨e, (hO'.get_succ j).symm.trans he, (hl'.get_succ j).symm.trans he'⟩
    refine le_common_iff.mpr ⟨?_, ?_, ?_⟩
    · by_contra hgt
      obtain ⟨e, -, he⟩ := hboth l.length (by omega)
      simp at he
    · by_contra hgt
      obtain ⟨e, he, -⟩ := hboth O.length (by omega)
      simp at he
    · apply List.ext_getElem?
      intro j
      rw [List.getElem?_take, List.getElem?_take]
      split
      · obtain ⟨e, he, he'⟩ := hboth j ‹_›
        rw [he, he']
      · rfl
  · intro h i hi hik
    obtain ⟨j, rfl⟩ : ∃ j, i = j + 1 := ⟨i - 1, by omega⟩
    obtain ⟨hlen, -, htake⟩ := le_common_iff.mp h
    have hsame : l[j]? = O[j]? := by
      rw [← List.getElem?_take_of_lt (show j < k by omega), htake,
        List.getElem?_take_of_lt (by omega)]
    have hget : l[j]? = some l[j] := List.getElem?_eq_getElem (by omega)
    exact ⟨l[j], (hO'.get_succ j).trans (hsame.symm.trans hget), (hl'.get_succ j).trans hget⟩

/-! ### The envelopes of a round -/

/-- The request for the follower. -/
def Pair.request (p : Pair) : AppendEntriesRequest :=
  heartbeatRequest p.leader p.leader.log.currentTerm p.leader.commitIndex p.follower.nodeId

/-- Exactly one of the heartbeats is for the follower. -/
theorem Pair.Linked.addressedTo_follower {p : Pair} (h : p.Linked) :
    addressedTo p.follower.nodeId (sendHeartbeats.run [] p.leader).out =
      [.new p.leader.nodeId p.follower.nodeId (.appendEntries p.request)] := by
  have hone : ∀ ids : List String, ids.Nodup → (∀ id ∈ ids, id.utf8ByteSize ≤ 64) →
      addressedTo p.follower.nodeId (ids.map fun id => .send (.new p.leader.nodeId id
        (.appendEntries (heartbeatRequest p.leader p.leader.log.currentTerm p.leader.commitIndex
          id)))) =
      if p.follower.nodeId ∈ ids then
        [.new p.leader.nodeId p.follower.nodeId (.appendEntries p.request)] else [] := by
    intro ids hnodup hfits
    induction ids with
    | nil => rfl
    | cons id ids ih =>
        have hrest := ih hnodup.of_cons fun i hi => hfits i (List.mem_cons_of_mem _ hi)
        have hid : (MessageEnvelope.new p.leader.nodeId id (.appendEntries (heartbeatRequest
            p.leader p.leader.log.currentTerm p.leader.commitIndex id))).recipient.asStr = id :=
          HeaplessString.asStr_pushStr (hfits id List.mem_cons_self)
        rw [List.map_cons, addressedTo, List.filterMap_cons]
        simp only [hid]
        rw [← addressedTo, hrest]
        by_cases heq : id = p.follower.nodeId
        · subst heq
          have hnot := (List.nodup_cons.mp hnodup).1
          simp [hnot, Pair.request]
        · simp [heq, Ne.symm heq]
  rw [run_sendHeartbeats, heartbeats, if_pos h.role]
  rw [hone _ p.leader.peers.keys_nodup h.peersFit, if_pos h.peer]

/-- Applying entries sends no envelope. -/
theorem addressedTo_applies {n n' : RaftNode} {out : List Output} (h : Applies n n' out)
    (id : String) : addressedTo id out = [] := by
  refine List.filterMap_eq_nil_iff.mpr fun o ho => ?_
  obtain ⟨i, e, rfl, -⟩ := h.outputs o ho
  rfl

/-! ### One round -/

/-- The leader has this log, which is the list `O`. The follower's log, and the `next_index` that
the leader has for it, are those of `s`. -/
structure Repairing (log : RaftLog) (O : List LogEntry) (p : Pair) (s : Repair LogEntry) :
    Prop where
  linked : p.Linked
  same : p.leader.log = log
  leaderLog : Represents p.leader.log.entries p.leader.log.lastIndex O
  followerLog : Represents p.follower.log.entries p.follower.log.lastIndex s.log
  next : (p.leader.nextIndex.lookup p.follower.nodeId).getD 1 = s.next
  matching : LogsMatch s.log O
  leaderTerms : ∀ e ∈ O, 1 ≤ e.term
  followerTerms : ∀ e ∈ s.log, 1 ≤ e.term
  -- A map has fewer entries than there are numbers of 64 bits.
  leaderShort : O.length < u64Max
  followerShort : s.log.length < u64Max

namespace Repairing

variable {log : RaftLog} {O : List LogEntry} {p : Pair} {s : Repair LogEntry}

theorem prevLogIndex (h : Repairing log O p s) : p.request.prevLogIndex = s.next - 1 := by
  rw [← h.next]
  rfl

/-- The request fits the follower's log exactly if it starts inside the common prefix. -/
theorem mismatch_iff (h : Repairing log O p s) :
    Mismatch p.follower p.request ↔ ¬ s.next - 1 ≤ common s.log O := by
  have hO := RaftLog.holds_of_represents h.leaderLog
  have hl := RaftLog.holds_of_represents h.followerLog
  have hterm : p.request.prevLogTerm = (p.leader.log.termAt (s.next - 1)).getD 0 := by
    rw [← h.next]
    rfl
  rw [Mismatch, h.prevLogIndex, hterm]
  cases hprev : s.next - 1 with
  | zero => simp
  | succ k =>
      have hhas : p.follower.log.hasEntry (k + 1) ((p.leader.log.termAt (k + 1)).getD 0) =
          ((s.log[k]?).map fun e =>
            decide (e.term = ((O[k]?).map (·.term)).getD 0)).getD false := by
        have hleft : p.follower.log.get (k + 1) = s.log[k]? := hl.get_succ k
        have hright : p.leader.log.get (k + 1) = O[k]? := hO.get_succ k
        rw [RaftLog.hasEntry, RaftLog.termAt, hleft, hright]
        rfl
      rw [hhas]
      constructor
      · rintro ⟨-, hfalse⟩ hle
        obtain ⟨hlen, hlenO, htake⟩ := le_common_iff.mp hle
        have hsame : s.log[k]? = O[k]? := by
          rw [← List.getElem?_take_of_lt (Nat.lt_succ_self k), htake,
            List.getElem?_take_of_lt (Nat.lt_succ_self k)]
        rw [hsame, List.getElem?_eq_getElem hlenO] at hfalse
        simp at hfalse
      · intro hgt
        refine ⟨Nat.succ_pos k, ?_⟩
        by_contra htrue
        apply hgt
        cases hd : s.log[k]? with
        | none => simp [hd] at htrue
        | some d =>
            cases he : O[k]? with
            | none =>
                -- `prev_log_term` is 0 then, and no entry has that term.
                have hpos := h.followerTerms d (List.mem_of_getElem? hd)
                simp [hd, he] at htrue
                omega
            | some e =>
                have hsame : d.term = e.term := by simpa [hd, he] using htrue
                exact le_common_iff.mpr ⟨(List.getElem?_eq_some_iff.mp hd).1,
                  (List.getElem?_eq_some_iff.mp he).1, h.matching k d e hd he hsame⟩

/-- The request is never stale. -/
theorem not_stale (h : Repairing log O p s) : ¬ p.request.term < p.follower.log.currentTerm :=
  Nat.not_lt.mpr h.linked.term

/-- Where a request fits, its entries reach as far as 64 of them can. -/
theorem overwrite_reach (h : Repairing log O p s) (hle : s.next - 1 ≤ common s.log O) :
    overwrite s.log (O.take p.request.reach) = overwrite s.log (O.take (s.next - 1 + 64)) := by
  have hentries : p.request.entries.toVec = (O.drop (s.next - 1)).take 64 := by
    have hall := (RaftLog.holds_of_represents h.leaderLog).getEntries
      ((p.leader.nextIndex.lookup p.follower.nodeId).getD 1)
    rw [h.next] at hall
    show List.take 64 (p.leader.log.getEntries
      ((p.leader.nextIndex.lookup p.follower.nodeId).getD 1) p.leader.log.lastIndex) = _
    rw [h.next]
    exact congrArg (List.take 64) hall
  have hright := common_le_right s.log O
  rw [AppendEntriesRequest.reach, hentries, h.prevLogIndex]
  by_cases hend : O.length ≤ s.next - 1
  · have hO : O <+: s.log := prefix_iff_common.mpr (by omega)
    rw [List.drop_of_length_le hend, List.take_nil, if_pos rfl, List.take_zero,
      overwrite_eq_left List.nil_prefix, List.take_of_length_le (by omega),
      overwrite_eq_left hO]
  · rw [if_neg, List.length_take, List.length_drop]
    · congr 1
      rw [List.take_eq_take_iff]
      omega
    · intro hnil
      have hlen := congrArg List.length hnil
      rw [List.length_take, List.length_drop, List.length_nil] at hlen
      omega

/-- The leader after the answer, where the request does not fit. -/
theorem next_backedOff (h : Repairing log O p s) (hgt : ¬ s.next - 1 ≤ common s.log O) :
    ((backedOff p.leader p.follower.nodeId).nextIndex.lookup p.follower.nodeId).getD 1 =
      max (s.next - 1) 1 := by
  have hnext := h.next
  rw [backedOff]
  cases hidx : p.leader.nextIndex.lookup p.follower.nodeId with
  | none =>
      -- `next_index` counts as 1 then, and a request from the start fits.
      rw [hidx, Option.getD_none] at hnext
      omega
  | some idx =>
      rw [hidx, Option.getD_some] at hnext
      simp [hnext]

end Repairing

/-! ### A round as two runs -/

theorem followed_nodeId (n : RaftNode) (req : AppendEntriesRequest) :
    (followed n req).nodeId = n.nodeId := by
  unfold followed raiseTerm
  split <;> rfl

/-- An answer of no later term leaves a leader what the next round reads, `next_index` apart. -/
theorem run_answer {n : RaftNode} (hrole : n.role = .leader) (sender : String)
    (resp : AppendEntriesResponse) (hterm : resp.term ≤ n.log.currentTerm) :
    let n' := ((handleAppendEntriesResponse sender resp).run [] n).state
    n'.role = .leader ∧ n'.nodeId = n.nodeId ∧ n'.peers = n.peers ∧ n'.log = n.log ∧
      n'.nextIndex = if resp.success then n.nextIndex.insert sender (addOne resp.lastLogIndex)
        else (backedOff n sender).nextIndex := by
  rw [run_handleAppendEntriesResponse, if_neg (not_not.mpr hrole), if_neg (Nat.not_lt.mpr hterm)]
  split
  · rcases run_tryAdvanceCommitIndex [] (acknowledged n sender resp.lastLogIndex) with
      ⟨hrun, -⟩ | ⟨k, n', out, -, -, hrun, hcommits⟩
    · rw [hrun]
      exact ⟨hrole, rfl, rfl, rfl, rfl⟩
    · rw [hrun, hcommits.state]
      exact ⟨hrole, rfl, rfl, rfl, rfl⟩
  · unfold backedOff
    split
    · exact ⟨hrole, rfl, rfl, rfl, rfl⟩
    · exact ⟨hrole, rfl, rfl, rfl, rfl⟩

/-- Where the follower sends one answer, and it is of no later term, the leader keeps what the
next round reads, `next_index` apart. -/
theorem Pair.Linked.round_eq {p : Pair} (h : p.Linked) {follower : RaftNode} {out : List Output}
    {term : Nat} {success : Bool}
    (hrun : (handleAppendEntries p.leader.nodeId p.request).run [] p.follower = ⟨some (), follower,
      out ++ [.send (appendEntriesAnswer follower p.leader.nodeId term success)], []⟩)
    (hout : addressedTo p.leader.nodeId out = []) (hid : follower.nodeId = p.follower.nodeId)
    (hterm : term ≤ p.leader.log.currentTerm) :
    ∃ leader, p.round = ⟨leader, follower⟩ ∧
      leader.role = .leader ∧ leader.nodeId = p.leader.nodeId ∧ leader.peers = p.leader.peers ∧
      leader.log = p.leader.log ∧ leader.nextIndex =
        if success then
          p.leader.nextIndex.insert p.follower.nodeId (addOne follower.log.lastIndex)
        else (backedOff p.leader p.follower.nodeId).nextIndex := by
  have hfitsL : (HeaplessString.pushStr 64 p.leader.nodeId).asStr = p.leader.nodeId :=
    HeaplessString.asStr_pushStr h.leaderFits
  have hfitsF : (HeaplessString.pushStr 64 p.follower.nodeId).asStr = p.follower.nodeId :=
    HeaplessString.asStr_pushStr (h.peersFit _ h.peer)
  let answer := appendEntriesAnswer follower p.leader.nodeId term success
  have hfollower : p.follower.handleEach (addressedTo p.follower.nodeId
      (sendHeartbeats.run [] p.leader).out) = (follower, out ++ [.send answer]) := by
    rw [h.addressedTo_follower]
    simp only [handleEach, handleMessage, MessageEnvelope.new, hfitsL, hrun, List.append_nil]
    rfl
  have hanswer : addressedTo p.leader.nodeId (out ++ [.send answer]) = [answer] := by
    have hrecipient : answer.recipient.asStr = p.leader.nodeId := hfitsL
    rw [addressedTo, List.filterMap_append, ← addressedTo, hout]
    simp [hrecipient]
  have hround : p.round = ⟨((handleMessage answer).run [] p.leader).state, follower⟩ := by
    rw [Pair.round, hfollower, run_sendHeartbeats]
    simp only [hanswer, handleEach]
  refine ⟨_, hround, ?_⟩
  have hsender : answer.sender.asStr = p.follower.nodeId := by
    rw [← hfitsF, ← hid]
    rfl
  have hrun := run_answer h.role p.follower.nodeId
    ⟨term, success, follower.log.lastIndex, .pushStr 64 follower.nodeId⟩ hterm
  rw [← hsender] at hrun ⊢
  exact hrun

namespace Repairing

variable {log : RaftLog} {O : List LogEntry} {p : Pair} {s : Repair LogEntry}

/-- What a round keeps, whatever the answer is. -/
theorem after {leader follower : RaftNode} {l : List LogEntry} {next : Nat}
    (h : Repairing log O p s) (hrole : leader.role = .leader)
    (hidL : leader.nodeId = p.leader.nodeId)
    (hpeers : leader.peers = p.leader.peers) (hlog : leader.log = p.leader.log)
    (hidF : follower.nodeId = p.follower.nodeId)
    (hterm : follower.log.currentTerm = p.leader.log.currentTerm)
    (hrep : Represents follower.log.entries follower.log.lastIndex l)
    (hnext : (leader.nextIndex.lookup p.follower.nodeId).getD 1 = next)
    (htaken : ∃ k, l = overwrite s.log (O.take k)) :
    Repairing log O ⟨leader, follower⟩ ⟨l, next⟩ where
  linked := by
    refine ⟨hrole, ?_, ?_, ?_, ?_⟩
    · rw [hidF, hpeers]
      exact h.linked.peer
    · rw [hidL]
      exact h.linked.leaderFits
    · rw [hpeers]
      exact h.linked.peersFit
    · rw [hterm, hlog]
  same := hlog.trans h.same
  leaderLog := by
    rw [hlog]
    exact h.leaderLog
  followerLog := hrep
  next := by
    rw [hidF]
    exact hnext
  matching := by
    obtain ⟨k, rfl⟩ := htaken
    exact h.matching.overwrite k
  leaderTerms := h.leaderTerms
  followerTerms := by
    obtain ⟨k, rfl⟩ := htaken
    rcases overwrite_cases s.log (O.take k) with heq | heq
    · rw [heq]
      exact h.followerTerms
    · rw [heq]
      exact fun e he => h.leaderTerms e (List.mem_of_mem_take he)
  leaderShort := h.leaderShort
  followerShort := by
    obtain ⟨k, rfl⟩ := htaken
    rcases overwrite_cases s.log (O.take k) with heq | heq
    · rw [heq]
      exact h.followerShort
    · rw [heq]
      exact Nat.lt_of_le_of_lt (List.length_take_le' k O) h.leaderShort

/-- A round is a step. -/
theorem round (h : Repairing log O p s) : Repairing log O p.round (s.step O 64) := by
  have hlinked := h.linked
  unfold Repair.step
  split
  · rename_i hle
    have hfits : ¬ Mismatch p.follower p.request := mt h.mismatch_iff.mp (not_not.mpr hle)
    obtain ⟨follower, out, hrun, ha⟩ :=
      run_handleAppendEntries_accept p.follower p.leader.nodeId p.request h.not_stale hfits
    have hidF : follower.nodeId = p.follower.nodeId := by
      rw [ha.state]
      exact followed_nodeId _ _
    have hgrants : p.follower.Grants p.leader.nodeId p.request := by
      refine ⟨.send (appendEntriesAnswer follower p.leader.nodeId p.follower.log.currentTerm true),
        ?_, rfl⟩
      rw [hrun]
      exact List.mem_append_right _ List.mem_cons_self
    have hstored := represents_of_grants h.followerLog h.leaderLog.numbered h.matching
      (sliceOf_heartbeatRequest h.leaderLog (List.prefix_refl O) _ _ _) hgrants
    rw [← Pair.request, h.overwrite_reach hle, receive, hrun] at hstored
    obtain ⟨leader, hround, hrole, hidL, hpeers, hlog, hnext⟩ :=
      hlinked.round_eq hrun (addressedTo_applies ha _) hidF hlinked.term
    rw [hround]
    have hafter := h.after hrole hidL hpeers hlog hidF (accepted_log h.not_stale ha).1 hstored rfl
      ⟨_, rfl⟩
    have hcount : (leader.nextIndex.lookup p.follower.nodeId).getD 1 =
        (overwrite s.log (O.take (s.next - 1 + 64))).length + 1 := by
      rw [hnext, if_pos rfl, AList.lookup_insert, Option.getD_some]
      rw [show follower.log.lastIndex = _ from hstored.last]
      exact addOne_of_lt hafter.followerShort
    rwa [hcount] at hafter
  · rename_i hgt
    have hmismatch : Mismatch p.follower p.request := h.mismatch_iff.mpr hgt
    have hrun := run_handleAppendEntries_mismatch p.follower p.leader.nodeId p.request h.not_stale
      hmismatch
    have hterm : (followed p.follower p.request).log.currentTerm = p.leader.log.currentTerm :=
      currentTerm_raiseTerm h.not_stale
    have hkept : Represents (followed p.follower p.request).log.entries
        (followed p.follower p.request).log.lastIndex s.log := by
      obtain ⟨hentries, hlast⟩ := sameMemory_followed p.follower p.request
      rw [hentries, hlast]
      exact h.followerLog
    obtain ⟨leader, hround, hrole, hidL, hpeers, hlog, hnext⟩ :=
      @Pair.Linked.round_eq _ hlinked _ [] _ _ hrun rfl (followed_nodeId _ _) (Nat.le_of_eq hterm)
    rw [hround]
    refine h.after hrole hidL hpeers hlog (followed_nodeId _ _) hterm hkept ?_ ⟨0, ?_⟩
    · rw [hnext]
      exact h.next_backedOff hgt
    · rw [List.take_zero, overwrite_eq_left List.nil_prefix]

/-- Rounds are steps. -/
theorem iterate (h : Repairing log O p s) (n : Nat) :
    Repairing log O (Pair.round^[n] p) ((Repair.step O 64)^[n] s) := by
  induction n with
  | zero => exact h
  | succ n ih =>
      rw [Function.iterate_succ_apply', Function.iterate_succ_apply']
      exact ih.round

/-- The agreement of the two logs is the common prefix of the two lists. -/
theorem agreeUpTo_iff (h : Repairing log O p s) {k : Nat} :
    p.leader.log.AgreeUpTo p.follower.log k ↔ k ≤ common s.log O :=
  RaftEbpf.agreeUpTo_iff h.leaderLog h.followerLog

end Repairing

/-- Leader A of term 2 with three entries. Its peer B has two others of term 1, and A's
`next_index` for B is beyond both logs. -/
def diverged : Pair where
  leader :=
    { leaderWith (leaderLog 1) 9 with
      role := .leader
      peers := peerMap [("B", "B")]
      log := { logWith (leaderLog 1) with persistentState := ⟨2, none⟩ } }
  follower := RaftNode.withLog "B" ∅ (logWith followerLog)

/-- Seven refusals bring `next_index` back to 2, and the eighth request is stored. -/
example : (Pair.round^[7] diverged).follower.log.lastTerm = 1 ∧
    (Pair.round^[8] diverged).follower.log.lastTerm = 2 := by
  decide +kernel

end RaftEbpf
