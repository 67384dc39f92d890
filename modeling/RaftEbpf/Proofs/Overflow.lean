import Mathlib.Data.List.MinMax
import RaftEbpf.Arithmetic
import RaftEbpf.Wire
import RaftEbpf.Proofs.CommitRule
import RaftEbpf.Proofs.CommitScan
import RaftEbpf.Proofs.Durable
import RaftEbpf.Proofs.KeepsIndexes
import RaftEbpf.Proofs.RoleChange

/-!
# `RaftEbpf.Proofs.Overflow`: values from messages at the end of their range

A node stores the terms and the indexes that messages bring without looking at their size, and adds
one to them in a later step. Nor does it compare the bounds of the election timeout.

`HighWater` bounds the term and the indexes of a node by what has reached it: the values it loaded,
those of the messages that it takes, and one more for each election and each proposal.

* `arithmeticHolds_of_leavesRoom`: in every run, whatever fails to be written, each operation
  computes what it means to where the bounds of the timeout are in order and the high water is
  below `u64::MAX` at each increment that the operation comes to.
* `not_arithmeticHolds`: a vote request of term `u64::MAX`, and then an election.
-/

set_option autoImplicit false

namespace RaftEbpf

open RaftEbpf.Lib (HashMap Prog)
open RaftEbpf.RaftNode (Aside KeepsIndexes Mismatch followCommit afterTermCheck)

/-- Bounds on the term and on the indexes of a node. -/
structure HighWater where
  term : Nat
  index : Nat
  deriving DecidableEq

namespace HighWater

/-- The bounds on a node that has just started with this log. -/
def loaded (log : RaftLog) : HighWater := ⟨log.currentTerm, log.lastIndex⟩

/-- A message raises the bound on the term where the node looks at its term, and the bound on the
indexes where its entries are stored. -/
def told (n : RaftNode) (message : RaftMessage) (w : HighWater) : HighWater :=
  match message with
  | .appendEntries req =>
      { term := max w.term req.term
        index :=
          if req.term < n.log.currentTerm ∨ Mismatch n req then w.index
          else max w.index ((req.entries.toVec.map (·.index)).foldr max 0) }
  | .appendEntriesResponse resp =>
      if n.role = .leader then { w with term := max w.term resp.term } else w
  | .requestVote req => { w with term := max w.term req.term }
  | .requestVoteResponse resp =>
      if n.role = .candidate then { w with term := max w.term resp.term } else w
  | _ => w

/-- The bounds after something happens to a node. -/
def after (n : RaftNode) (h : Happening) (n' : RaftNode) (w : HighWater) : HighWater :=
  match h with
  | .operation (.handleMessage env) _ => w.told n env.message
  | .operation .startElection _ => { w with term := w.term + 1 }
  | .operation (.propose _ _) _ => if n.role = .leader then { w with index := w.index + 1 } else w
  | .operation _ _ => w
  | .restart _ => loaded n'.log

/-- The bound on what an increment is applied to. -/
def bound (w : HighWater) : Increment → Nat
  | .currentTerm => w.term
  | .lastIndex => w.index
  | .newMatch lastLogIndex => lastLogIndex
  | .currentCommit => w.index

/-- The indexes of the node are within this bound. -/
def Indexes (bound : Nat) (n : RaftNode) : Prop := n.log.lastIndex ≤ bound ∧ n.commitIndex ≤ bound

/-- The node is within the bounds. -/
structure Covers (w : HighWater) (n : RaftNode) : Prop where
  term : n.log.currentTerm ≤ w.term
  indexes : Indexes w.index n

end HighWater

/-- A node with the bounds on it. -/
abbrev Bounded : Type := RaftNode × HighWater

namespace Bounded

/-- One step of a node, with the bounds on it. -/
def step : Bounded → Happening → Option Bounded := Lib.withGhost RaftNode.happen HighWater.after

/-- The bounds of the election timeout are in order, and each increment of the operation is of a
value that is known to be below `u64::MAX`. -/
def LeavesRoom (s : Bounded) (timing : TimingConfig) (op : Operation) : Prop :=
  timing.electionTimeoutMinMs ≤ timing.electionTimeoutMaxMs ∧
    ∀ inc ∈ s.1.increments op, s.2.bound inc < u64Max

instance (s : Bounded) (timing : TimingConfig) (op : Operation) :
    Decidable (s.LeavesRoom timing op) :=
  inferInstanceAs (Decidable (_ ∧ _))

end Bounded

namespace HighWater

/-! ### The bound on the term -/

/-- An increment may wrap, but never exceeds the exact sum. -/
theorem addOne_le (x : Nat) : addOne x ≤ x + 1 := Nat.mod_le _ _

/-- The newer one of two terms is within a bound on the old one that is raised to the other. -/
theorem newer_le {current term bound : Nat} (hcurrent : current ≤ bound) :
    (if term > current then some term else none).getD current ≤ max bound term := by
  split
  · exact Nat.le_max_right bound term
  · exact hcurrent.trans (Nat.le_max_left bound term)

/-- The term that an operation raises a node to is within the bound after it. -/
theorem raisesTo_le {w : HighWater} {n n' : RaftNode} (hterm : n.log.currentTerm ≤ w.term)
    (op : Operation) (ws : List WriteResult) :
    (n.raisesTo op).getD n.log.currentTerm ≤ (w.after n (.operation op ws) n').term := by
  cases op with
  | handleMessage env =>
      obtain ⟨sender, recipient, message⟩ := env
      cases message with
      | appendEntries req => exact newer_le hterm
      | appendEntriesResponse resp =>
          simp only [RaftNode.raisesTo, after, told]
          by_cases hrole : n.role = .leader
          · simp only [hrole, true_and, if_true]
            exact newer_le hterm
          · simp only [hrole, false_and, if_false]
            exact hterm
      | requestVote req => exact newer_le hterm
      | requestVoteResponse resp =>
          simp only [RaftNode.raisesTo, after, told]
          by_cases hrole : n.role = .candidate
          · simp only [hrole, true_and, if_true]
            exact newer_le hterm
          · simp only [hrole, false_and, if_false]
            exact hterm
      | clientRequest req => exact hterm
      | clientResponse resp => exact hterm
  | startElection =>
      have hle := addOne_le n.log.currentTerm
      simp only [RaftNode.raisesTo, after, Option.getD_some]
      omega
  | propose command responseTx =>
      simp only [RaftNode.raisesTo, after, Option.getD_none]
      split <;> exact hterm
  | _ => exact hterm

/-! ### The bound on the indexes -/

/-- A write that keeps the indexes within a bound. -/
def KeepsWithin (bound : Nat) (f : RaftNode → RaftNode) : Prop :=
  ∀ n, Indexes bound n → Indexes bound (f n)

theorem keepsWithin_of_keepsIndexes {bound : Nat} {f : RaftNode → RaftNode} (h : KeepsIndexes f) :
    KeepsWithin bound f := by
  intro n hn
  rw [Indexes, h.lastIndex, h.commitIndex]
  exact hn

section
variable {bound : Nat} {n : RaftNode} {out : List Output}

/-- A task that writes nothing else ends with the indexes within the bound. -/
theorem within_of_only {p : NodeProg Unit}
    (h : p.Only RaftNode.LogExclusive (KeepsWithin bound) fun _ => True) (hn : Indexes bound n) :
    p.wp (fun _ n _ => Indexes bound n) (fun n _ => Indexes bound n) n out :=
  h.wp (I := fun n _ => Indexes bound n) (fun _ hf n _ => hf n) (fun _ _ _ _ => id) hn

theorem within_of_aside {p : NodeProg Unit} (h : Aside p) (hn : Indexes bound n) :
    p.wp (fun _ n _ => Indexes bound n) (fun n _ => Indexes bound n) n out :=
  within_of_only (h.mono (fun _ => keepsWithin_of_keepsIndexes) fun _ => id) hn

/-- The increment and the machine of `apply_committed_entries` are no indexes of these. -/
theorem only_applyCommittedEntries :
    RaftNode.applyCommittedEntries.Only RaftNode.LogExclusive (KeepsWithin bound) fun _ => True :=
  RaftNode.only_applyCommittedEntries_of (fun _ hn => hn) fun _ _ hn => hn

/-- The commit index that a follower takes over is at most the last index of its log. -/
theorem within_followCommit (sender : String) (req : AppendEntriesRequest) (currentTerm : Nat)
    (hn : Indexes bound n) : (followCommit sender req currentTerm).wp
      (fun _ n _ => Indexes bound n) (fun n _ => Indexes bound n) n out := by
  have hrest : ∀ {n}, Indexes bound n → (RaftNode.applyCommittedEntries >>= fun _ =>
      RaftNode.sendAppendEntriesResponse sender currentTerm true).wp
        (fun _ n _ => Indexes bound n) (fun n _ => Indexes bound n) n out :=
    within_of_only (only_applyCommittedEntries.bind fun _ =>
      (RaftNode.aside_sendAppendEntriesResponse _ _ _).mono
        (fun _ => keepsWithin_of_keepsIndexes) fun _ => id)
  simp only [followCommit, Prog.wp_bind, wp_withRead]
  split
  · exact hrest ⟨hn.1, (Nat.min_le_right _ _).trans hn.1⟩
  · exact hrest hn

/-- Cutting the log keeps its last index below what the entries name. -/
theorem lastIndex_deleteConflicting_le {log : RaftLog} {entries : List LogEntry}
    (hlog : log.lastIndex ≤ bound) (hentries : ∀ e ∈ entries, e.index ≤ bound) :
    (RaftNode.deleteConflicting log entries).lastIndex ≤ bound := by
  induction entries with
  | nil => exact hlog
  | cons e entries ih =>
      have hrest := ih fun e' he' => hentries e' (List.mem_cons_of_mem _ he')
      rw [RaftNode.deleteConflicting]
      split
      · split
        · exact (Nat.sub_le _ _).trans (hentries e List.mem_cons_self)
        · exact hrest
      · exact hrest

theorem lastIndex_appendEntries_le {log : RaftLog} {entries : List LogEntry}
    (hlog : log.lastIndex ≤ bound) (hentries : ∀ e ∈ entries, e.index ≤ bound) :
    (log.appendEntries entries).lastIndex ≤ bound := by
  induction entries generalizing log with
  | nil => exact hlog
  | cons e entries ih =>
      have hfirst : (log.appendEntry e).lastIndex ≤ bound :=
        Nat.max_le.mpr ⟨hlog, hentries e List.mem_cons_self⟩
      exact ih hfirst fun e' he' => hentries e' (List.mem_cons_of_mem _ he')

/-- A request whose entries are stored only where they are within the bound keeps the indexes
within it. -/
theorem within_afterTermCheck (sender : String) (req : AppendEntriesRequest) (currentTerm : Nat)
    (hn : Indexes bound n)
    (hentries : ¬ Mismatch n req → ∀ e ∈ req.entries.toVec, e.index ≤ bound) :
    (afterTermCheck sender req currentTerm).wp
      (fun _ n _ => Indexes bound n) (fun n _ => Indexes bound n) n out := by
  rw [RaftNode.afterTermCheck_eq]
  simp only [Prog.wp_bind, wp_withWrite, wp_get]
  split
  · exact within_of_aside ((RaftNode.aside_sendAppendEntriesResponse _ _ _).bind fun _ =>
      RaftNode.only_unlock _) hn
  · rename_i hfits
    split
    · have hdeleted := lastIndex_deleteConflicting_le hn.1 (hentries hfits)
      have hstored := lastIndex_appendEntries_le hdeleted (hentries hfits)
      exact within_followCommit sender req currentTerm ⟨hstored, hn.2⟩
    · exact within_followCommit sender req currentTerm hn

/-- Only the term check may fail to write, and it comes before the entries. -/
theorem within_handleAppendEntries (sender : String) (req : AppendEntriesRequest)
    (hn : Indexes bound n)
    (hentries : ¬ req.term < n.log.currentTerm → ¬ Mismatch n req →
      ∀ e ∈ req.entries.toVec, e.index ≤ bound) :
    (RaftNode.handleAppendEntries sender req).wp
      (fun _ n _ => Indexes bound n) (fun n _ => Indexes bound n) n out := by
  rw [RaftNode.handleAppendEntries_eq]
  simp only [Prog.wp_bind, wp_lock, wp_get]
  split
  · exact within_of_aside ((RaftNode.aside_sendAppendEntriesResponse _ _ _).bind fun _ =>
      RaftNode.only_unlock _) hn
  · rename_i hfresh
    split
    · simp only [Prog.wp_bind, wp_setCurrentTerm, wp_setRole]
      refine ⟨within_afterTermCheck sender req _ hn (hentries hfresh), fun r _ => ?_⟩
      cases r <;> exact hn
    · exact within_afterTermCheck sender req _ hn (hentries hfresh)

/-- The scan finds no index above the last one. -/
theorem within_tryAdvanceCommitIndex (hn : Indexes bound n) : RaftNode.tryAdvanceCommitIndex.wp
    (fun _ n _ => Indexes bound n) (fun n _ => Indexes bound n) n out := by
  rw [RaftNode.tryAdvanceCommitIndex]
  simp only [Prog.wp_bind, wp_withRead]
  split
  · exact hn
  · simp only [Prog.wp_bind, wp_lock, wp_withRead, wp_readLock, wp_get]
    split
    · rename_i k hk
      have hlast := (RaftNode.findCommit_eq_some_iff.mp hk).1.le_lastIndex
      have hcommitted : Indexes bound { n with commitIndex := k } := ⟨hn.1, hlast.trans hn.1⟩
      have hend : (RaftNode.applyCommittedEntries >>= fun _ =>
          RaftNode.notifyPendingRequests k).wp (fun _ n _ => Indexes bound n)
            (fun n _ => Indexes bound n) { n with commitIndex := k } out :=
        within_of_only (only_applyCommittedEntries.bind fun _ =>
          RaftNode.only_notifyPendingRequests_of (fun _ _ hn => hn) k) hcommitted
      exact hend
    · exact hn

theorem within_handleAppendEntriesResponse (sender : String) (resp : AppendEntriesResponse)
    (hn : Indexes bound n) : (RaftNode.handleAppendEntriesResponse sender resp).wp
      (fun _ n _ => Indexes bound n) (fun n _ => Indexes bound n) n out := by
  rw [RaftNode.handleAppendEntriesResponse_eq]
  simp only [Prog.wp_bind, wp_lock, wp_withRead]
  split
  · exact hn
  · simp only [Prog.wp_bind, wp_get]
    split
    · exact within_of_aside (RaftNode.aside_stepDown _) hn
    · rw [RaftNode.recordAnswer]
      split
      · exact within_tryAdvanceCommitIndex hn
      · simp only [Prog.wp_bind, wp_lock, wp_modify, wp_unlock]
        split <;> exact hn

/-- What holds at every end of a task holds where its run ends. -/
theorem within_run {p : NodeProg Unit}
    (h : p.wp (fun _ n _ => Indexes bound n) (fun n _ => Indexes bound n) n [])
    (ws : List WriteResult) : Indexes bound (p.run ws n).state := by
  have hend := Prog.wp_run h ws
  split at hend <;> exact hend

end

theorem Indexes.mono {b b' : Nat} {n : RaftNode} (h : Indexes b n) (hle : b ≤ b') : Indexes b' n :=
  ⟨h.1.trans hle, h.2.trans hle⟩

/-- No operation takes the indexes past the bound after it. -/
theorem indexes_task {w : HighWater} {n n' : RaftNode} (hn : Indexes w.index n) (op : Operation)
    (ws : List WriteResult) :
    Indexes (w.after n (.operation op ws) n').index (op.task.run ws n).state := by
  cases op with
  | handleMessage env =>
      obtain ⟨sender, recipient, message⟩ := env
      cases message with
      | appendEntries req =>
          refine within_run (within_handleAppendEntries _ req (hn.mono ?_) ?_) ws
          · simp only [after, told]
            split
            · exact Nat.le_refl _
            · exact Nat.le_max_left _ _
          · intro hfresh hfits e he
            simp only [after, told, hfresh, hfits, or_self, if_false]
            have hmem := List.mem_map_of_mem (f := (·.index)) he
            exact (List.le_max_of_le' 0 hmem (Nat.le_refl _)).trans (Nat.le_max_right _ _)
      | appendEntriesResponse resp =>
          have hindex : (w.told n (.appendEntriesResponse resp)).index = w.index := by
            simp only [told]
            split <;> rfl
          rw [after, hindex]
          exact within_run (within_handleAppendEntriesResponse _ resp hn) ws
      | requestVote req =>
          exact within_run (within_of_aside (RaftNode.aside_handleRequestVote _ req) hn) ws
      | requestVoteResponse resp =>
          have hindex : (w.told n (.requestVoteResponse resp)).index = w.index := by
            simp only [told]
            split <;> rfl
          rw [after, hindex]
          exact within_run (within_of_aside (RaftNode.aside_handleRequestVoteResponse _ resp) hn) ws
      | clientRequest req => exact hn
      | clientResponse resp => exact hn
  | startElection => exact within_run (within_of_aside RaftNode.aside_startElection hn) ws
  | sendHeartbeats => exact within_run (within_of_aside RaftNode.aside_sendHeartbeats hn) ws
  | propose command tx =>
      rw [Operation.task, RaftNode.run_propose, after]
      split
      · exact ⟨(addOne_le _).trans (Nat.succ_le_succ hn.1), hn.2.trans (Nat.le_succ _)⟩
      · exact hn
  | addPeer id address =>
      rw [Operation.task, RaftNode.run_addPeer]
      exact hn
  | removePeer id =>
      rw [Operation.task, RaftNode.run_removePeer]
      exact hn
  | getStatus => exact hn
  | getValue key => exact hn
  | getMessages limit sinceIndex => exact hn

/-- A node that has just started has committed nothing. -/
theorem covers_new {id : String} {peers : HashMap String PeerInfo} {dir : DataDir} {n : RaftNode}
    (h : RaftNode.new id peers dir = some n) : (loaded n.log).Covers n := by
  obtain ⟨log, -, rfl⟩ := Option.map_eq_some_iff.mp h
  exact ⟨Nat.le_refl _, Nat.le_refl _, Nat.zero_le _⟩

/-- Each step keeps the node within the bounds. -/
theorem Covers.happen {w : HighWater} {n n' : RaftNode} (hn : w.Covers n) {h : Happening}
    (hstep : n.happen h = some n') : (w.after n h n').Covers n' := by
  cases h with
  | operation op ws =>
      obtain rfl := Option.some.inj hstep
      refine ⟨?_, indexes_task hn.indexes op ws⟩
      rw [(RaftNode.roleChange_task n op ws).2.currentTerm]
      exact raisesTo_le hn.term op ws
  | restart peers => exact covers_new hstep

/-- What an increment is applied to is within its bound. -/
theorem Covers.operand_le {w : HighWater} {n : RaftNode} (hn : w.Covers n) (inc : Increment) :
    n.operand inc ≤ w.bound inc := by
  cases inc with
  | currentTerm => exact hn.term
  | lastIndex => exact hn.indexes.1
  | newMatch lastLogIndex => exact Nat.le_refl _
  | currentCommit => exact hn.indexes.2

end HighWater

namespace Bounded

/-- In each state of a run, whatever happened and whatever was not written, an operation computes
what it means to if the bounds of the election timeout are in order and all that it increments is
known to be below `u64::MAX`. -/
theorem arithmeticHolds_of_leavesRoom {nodeId : String} {peers : HashMap String PeerInfo}
    {dir : DataDir} {n₀ : RaftNode} (hnew : RaftNode.new nodeId peers dir = some n₀)
    {tr : List Bounded} (hrun : Lib.Run step (n₀, .loaded n₀.log) (fun _ _ => True) tr) :
    ∀ s ∈ tr, ∀ timing op, s.LeavesRoom timing op → s.1.ArithmeticHolds timing op := by
  have hcovers := hrun.invariant (I := fun s => s.2.Covers s.1) (HighWater.covers_new hnew)
    fun s h s' hs _ hstep => by
      obtain ⟨n', hn', rfl⟩ := Option.map_eq_some_iff.mp hstep
      exact hs.happen hn'
  intro s hs timing op hroom
  refine ⟨(electionTimeout_isSome_iff timing).mpr hroom.1, fun inc hinc => ?_⟩
  have hbelow : s.1.operand inc < u64Max :=
    ((hcovers s hs).operand_le inc).trans_lt (hroom.2 inc hinc)
  exact addOne_of_lt hbelow

end Bounded

/-- B asks A for its vote, in this term. -/
def askedInTerm (term : Nat) : Happening :=
  .receive "B" (.requestVote ⟨term, .pushStr 64 "B", 0, 0⟩)

/-- An election in the last term but one, which B brought A to. -/
theorem Bounded.arithmeticHolds_of_leavesRoom_lastButOne :
    let n := RaftNode.nodeA ["B", "C"]
    let s := Lib.final step (n, .loaded n.log) (fun _ _ => True) [askedInTerm (u64Max - 1)]
    s.1.log.currentTerm = u64Max - 1 ∧ s.1.ArithmeticHolds .default .startElection :=
  ⟨by decide +kernel,
    arithmeticHolds_of_leavesRoom (RaftNode.new_nodeA ["B", "C"])
      (Lib.run_final (by decide +kernel)) _ List.mem_cons_self _ _ (by decide +kernel)⟩

/-- The message of the operation, if it handles one, decodes to `u64`s. -/
def Operation.Decodable : Operation → Prop
  | .handleMessage env => env.InRange
  | _ => True

/-- Nothing that happens is a message that does not decode. -/
def Happening.Decodable : Happening → Prop
  | .operation op _ => op.Decodable
  | .restart _ => True

/-- B brings A to the last term, and the election of A leads back to term 0. -/
theorem not_arithmeticHolds : ¬ ∀ (timing : TimingConfig) (nodeId : String)
    (peers : HashMap String PeerInfo) (dir : DataDir) (n₀ : RaftNode),
    RaftNode.new nodeId peers dir = some n₀ →
      ∀ tr : List RaftNode, Lib.Run RaftNode.happen n₀ (fun _ h => h.Decodable) tr →
        ∀ n ∈ tr, ∀ op : Operation, op.Decodable → n.ArithmeticHolds timing op := by
  intro h
  have hdecodes : (askedInTerm u64Max).Decodable := by
    show u64Max ≤ u64Max ∧ 0 ≤ u64Max ∧ 0 ≤ u64Max
    decide
  have hrun : Lib.Run RaftNode.happen (RaftNode.nodeA ["B", "C"]) (fun _ h => h.Decodable)
      [Lib.next RaftNode.happen (RaftNode.nodeA ["B", "C"]) (askedInTerm u64Max),
        RaftNode.nodeA ["B", "C"]] :=
    .step .start hdecodes rfl
  have hholds := h .default _ _ _ _ (RaftNode.new_nodeA ["B", "C"]) _ hrun _ List.mem_cons_self
    .startElection trivial
  have hwraps := hholds.2 .currentTerm List.mem_cons_self
  revert hwraps
  decide +kernel

end RaftEbpf
