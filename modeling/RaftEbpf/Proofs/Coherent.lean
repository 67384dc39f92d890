import RaftEbpf.Lib.Run
import RaftEbpf.Proofs.LeaderAccepted

/-!
# `RaftEbpf.Proofs.Coherent`: role, term and vote when writes fail

`set_current_term` stores the term in memory, clears the vote, and then writes. Where the write
fails the handler ends before it has looked at the role, so a Candidate or Leader is left in a
term that it did not stand in.

* `coherent_iff`: in every run each state is coherent exactly if no write that raises the term
  of a Candidate or Leader fails, nor the vote of an election that it starts.
* `not_coherent`: a Candidate of term 1 is left Candidate of term 2, without a vote.
-/

set_option autoImplicit false

namespace RaftEbpf.RaftNode

open RaftEbpf.Lib (HashMap)

/-- The term of the election that the node last started: both writes of `start_election`
succeeded. A restart forgets it. -/
def electionTerm (n : RaftNode) (h : Happening) (_ : RaftNode) (last : Option Nat) : Option Nat :=
  match h with
  | .operation .startElection ws =>
      if ws.headD .ok = .ok ∧ ws.tail.headD .ok = .ok then some (addOne n.log.currentTerm) else last
  | .operation _ _ => last
  | .restart _ => none

/-- A node with the term of its last election. -/
abbrev Elector : Type := RaftNode × Option Nat

/-- One step of a node, with the term of its last election. -/
def Elector.step : Elector → Happening → Option Elector := Lib.withGhost happen electionTerm

/-- A Candidate or Leader has voted for itself in its term, and it started its election in this
term. -/
def Elector.Coherent (s : Elector) : Prop :=
  s.1.role ≠ .follower → s.1.log.votedFor = some s.1.nodeId ∧ s.2 = some s.1.log.currentTerm

instance (s : Elector) : Decidable s.Coherent := inferInstanceAs (Decidable (_ → _))

/-- Where the operation raises the term of a Candidate or Leader, the term is written, and so is
the vote if it is an election. -/
def WritesThrough (n : RaftNode) : Happening → Prop
  | .operation op ws => n.role ≠ .follower → (n.raisesTo op).isSome = true →
      ws.headD .ok = .ok ∧ (op = .startElection → ws.tail.headD .ok = .ok)
  | .restart _ => True

/-- The increment of a term is another term, also where it wraps. -/
theorem addOne_ne (x : Nat) : addOne x ≠ x := by
  unfold addOne
  omega

/-- Only `start_election` starts an election. -/
theorem electionTerm_of_ne {n n' : RaftNode} {op : Operation} {ws : List WriteResult}
    {last : Option Nat} (h : op ≠ .startElection) :
    electionTerm n (.operation op ws) n' last = last := by
  cases op with
  | startElection => exact absurd rfl h
  | _ => rfl

/-- An operation that raises no term is no election. -/
theorem ne_startElection {n : RaftNode} {op : Operation} (h : n.raisesTo op = none) :
    op ≠ .startElection := by
  rintro rfl
  cases h

theorem nodeId_new {id : String} {peers : HashMap String PeerInfo} {dir : DataDir} {n : RaftNode}
    (h : RaftNode.new id peers dir = some n) : n.nodeId = id := by
  obtain ⟨log, -, rfl⟩ := Option.map_eq_some_iff.mp h
  rfl

/-- No step changes the id. -/
theorem nodeId_step {s s' : Elector} {h : Happening} (hs : s.step h = some s') :
    s'.1.nodeId = s.1.nodeId := by
  obtain ⟨n', hn', rfl⟩ := Option.map_eq_some_iff.mp hs
  cases h with
  | restart peers => exact nodeId_new hn'
  | operation op ws =>
      obtain rfl := Option.some.inj hn'
      exact (roleChange_task s.1 op ws).1

section Step
variable {n n' : RaftNode} {last : Option Nat} {op : Operation} {ws : List WriteResult}

/-- A Candidate or Leader whose vote is not its own, or which started its election in another
term. -/
theorem not_coherent_of_vote (hrole : n.role ≠ .follower) (hvote : n.log.votedFor = none) :
    ¬ Elector.Coherent (n, last) := by
  intro h
  have hself := (h hrole).1
  dsimp only at hself
  rw [hvote] at hself
  cases hself

/-- Role and term stay, and so does the vote, or it is cast for the same node again. -/
theorem coherent_of_stays (h : Elector.Coherent (n, last)) (hid : n'.nodeId = n.nodeId)
    (hrole : n'.role = n.role) (hterm : n'.log.currentTerm = n.log.currentTerm)
    (hvote : n.log.votedFor = some n.nodeId → n'.log.votedFor = some n.nodeId) :
    Elector.Coherent (n', last) := by
  intro hr
  obtain ⟨hself, hlast⟩ := h (hrole ▸ hr)
  exact ⟨(hvote hself).trans (congrArg some hid.symm), hlast.trans (congrArg some hterm.symm)⟩

/-- An operation that raises no term keeps a node coherent. -/
theorem coherent_of_raisesTo_none (h : Elector.Coherent (n, last)) (hid : n'.nodeId = n.nodeId)
    (hchange : RoleChange n op ws n') (hop : n.raisesTo op = none) :
    Elector.Coherent (n', last) := by
  have hstart := ne_startElection hop
  cases hchange with
  | stays _ hrole hps =>
      refine coherent_of_stays h hid hrole (congrArg (·.currentTerm) hps) fun hself => ?_
      rw [← hself]
      exact congrArg (fun ps => ps.votedFor.map (·.asStr)) hps
  | @votes name _ hcan hrole hps =>
      refine coherent_of_stays h hid hrole (congrArg (·.currentTerm) hps) fun hself => ?_
      -- A second vote is for the node that has the first one.
      have hsame : name.asStr = n.nodeId := by
        rcases hcan with hnone | hsome
        · rw [hself] at hnone
          cases hnone
        · exact Option.some.inj (hsome.symm.trans hself)
      rw [← hsame]
      exact congrArg (fun ps => ps.votedFor.map (·.asStr)) hps
  | wins _ hcand _ hps =>
      intro _
      obtain ⟨hself, hlast⟩ := h (by rw [hcand]; decide)
      refine ⟨?_, hlast.trans (congrArg some (congrArg (·.currentTerm) hps.symm))⟩
      refine Eq.trans ?_ (hself.trans (congrArg some hid.symm))
      exact congrArg (fun ps => ps.votedFor.map (·.asStr)) hps
  | follows hsome _ _ _ _ => exact absurd (hop.symm.trans hsome) nofun
  | lapses hsome _ _ _ _ => exact absurd (hop.symm.trans hsome) nofun
  | stands hop' _ _ _ _ => exact absurd hop' hstart
  | unstarted hop' _ _ _ => exact absurd hop' hstart
  | unvoted hop' _ _ _ _ => exact absurd hop' hstart

/-- An operation that raises the term keeps a node coherent exactly if what it writes is
written, unless it finds a Follower. -/
theorem coherent_iff_of_raisesTo (hfits : n.nodeId.utf8ByteSize ≤ 64)
    (h : Elector.Coherent (n, last)) (hid : n'.nodeId = n.nodeId)
    (hchange : RoleChange n op ws n') {term : Nat} (hop : n.raisesTo op = some term) :
    Elector.Coherent (n', electionTerm n (.operation op ws) n' last) ↔
      (n.role ≠ .follower →
        ws.headD .ok = .ok ∧ (op = .startElection → ws.tail.headD .ok = .ok)) := by
  cases hchange with
  | stays hnone _ _ => exact absurd (hop.symm.trans hnone) nofun
  | votes hnone _ _ _ => exact absurd (hop.symm.trans hnone) nofun
  | wins hnone _ _ _ => exact absurd (hop.symm.trans hnone) nofun
  | follows _ hmsg hw hrole _ =>
      exact iff_of_true (fun hr => absurd hrole hr) fun _ => ⟨hw, fun hop => absurd hop hmsg⟩
  | lapses _ hmsg hw hrole hps =>
      by_cases hr : n.role = .follower
      · exact iff_of_true (fun hr' => absurd (hrole.trans hr) hr') fun hr' => absurd hr hr'
      · refine iff_of_false (not_coherent_of_vote (hrole ▸ hr) ?_) fun hwritten =>
          hw (hwritten hr).1
        exact congrArg (fun ps => ps.votedFor.map (·.asStr)) hps
  | stands hop' hw hw' _ hps =>
      subst hop'
      refine iff_of_true (fun _ => ⟨?_, ?_⟩) fun _ => ⟨hw, fun _ => hw'⟩
      · refine (congrArg (fun ps => ps.votedFor.map (·.asStr)) hps).trans ?_
        exact congrArg some ((HeaplessString.asStr_pushStr hfits).trans hid.symm)
      · show electionTerm n (.operation .startElection ws) n' last = _
        rw [electionTerm, if_pos ⟨hw, hw'⟩]
        exact congrArg some (congrArg (·.currentTerm) hps.symm)
  | unstarted hop' hw hrole hps =>
      subst hop'
      by_cases hr : n.role = .follower
      · exact iff_of_true (fun hr' => absurd (hrole.trans hr) hr') fun hr' => absurd hr hr'
      · refine iff_of_false (not_coherent_of_vote (hrole ▸ hr) ?_) fun hwritten =>
          hw (hwritten hr).1
        exact congrArg (fun ps => ps.votedFor.map (·.asStr)) hps
  | unvoted hop' hw hw' hrole hps =>
      subst hop'
      by_cases hr : n.role = .follower
      · exact iff_of_true (fun hr' => absurd (hrole.trans hr) hr') fun hr' => absurd hr hr'
      · refine iff_of_false (fun hc => ?_) fun hwritten => hw' ((hwritten hr).2 rfl)
        -- The last election that was started is the one of the term before.
        have hlast := (hc (hrole ▸ hr)).2
        dsimp only at hlast
        rw [electionTerm, if_neg fun hboth => hw' hboth.2,
          show last = some n.log.currentTerm from (h hr).2] at hlast
        have hterm : n'.log.currentTerm = addOne n.log.currentTerm :=
          congrArg (·.currentTerm) hps
        rw [hterm] at hlast
        exact addOne_ne _ (Option.some.inj hlast).symm

/-- One step from a coherent state. -/
theorem coherent_step_iff {s s' : Elector} {h : Happening} (hfits : s.1.nodeId.utf8ByteSize ≤ 64)
    (hs : s.Coherent) (hstep : s.step h = some s') : s'.Coherent ↔ s.1.WritesThrough h := by
  obtain ⟨n, last⟩ := s
  obtain ⟨n', hn', rfl⟩ := Option.map_eq_some_iff.mp hstep
  cases h with
  | restart peers =>
      exact iff_of_true (fun hrole => absurd (new_role_term hn').1 hrole) trivial
  | operation op ws =>
      obtain rfl := Option.some.inj hn'
      obtain ⟨hid, hchange⟩ := roleChange_task n op ws
      cases hop : n.raisesTo op with
      | none =>
          rw [WritesThrough, electionTerm_of_ne (ne_startElection hop), hop]
          exact iff_of_true (coherent_of_raisesTo_none hs hid hchange hop) nofun
      | some term =>
          rw [WritesThrough, hop]
          refine (coherent_iff_of_raisesTo hfits hs hid hchange hop).trans ?_
          exact forall_congr' fun _ => ⟨fun hw _ => hw, fun hw => hw rfl⟩

end Step

/-- In every run of a node, from any data directory and with any writes that fail, all states are
coherent exactly if each operation that raises the term of a Candidate or Leader writes
through. -/
theorem coherent_iff {id : String} {peers : HashMap String PeerInfo} {dir : DataDir}
    {n₀ : RaftNode} (hfits : id.utf8ByteSize ≤ 64) (hnew : RaftNode.new id peers dir = some n₀)
    {ok : Elector → Happening → Prop} {tr : List (Elector × List (Elector × Happening × Elector))}
    (hrun : Lib.Run (Lib.recorded Elector.step) ((n₀, none), []) (fun s h => ok s.1 h) tr) :
    ∀ s ∈ tr, (∀ x ∈ s.2, x.2.2.Coherent) ↔ ∀ x ∈ s.2, x.1.1.WritesThrough x.2.1 := by
  have hid : n₀.nodeId = id := nodeId_new hnew
  -- The id stays, so each step starts from an id that fits.
  have hsame := hrun.invariant
    (I := fun s => s.1.1.nodeId = id ∧ ∀ x ∈ s.2, x.2.2.1.nodeId = id) ⟨hid, by simp⟩ ?_
  · have hiff := hrun.recorded_iff (I := fun s : Elector => s.1.nodeId = id ∧ s.Coherent)
      (Q := fun s : Elector => s.1.WritesThrough)
      ⟨hid, fun hrole => absurd (new_role_term hnew).1 hrole⟩ fun s h s' hs _ hstep => ?_
    · intro s hs
      rw [← hiff s hs]
      exact forall₂_congr fun x hx => (and_iff_right ((hsame s hs).2 x hx)).symm
    · rw [← coherent_step_iff (hs.1 ▸ hfits) hs.2 hstep]
      exact and_iff_right ((nodeId_step hstep).trans hs.1)
  · rintro s h s' ⟨hn, hsteps⟩ - hs
    obtain ⟨e', he', rfl⟩ := Option.map_eq_some_iff.mp hs
    have hn' := (nodeId_step he').trans hn
    refine ⟨hn', fun x hx => ?_⟩
    rcases List.mem_cons.mp hx with rfl | hx
    · exact hn'
    · exact hsteps x hx

/-- A stands for election in term 1, and then B asks for its vote in term 2. The term of the
request is not written. -/
def unwrittenTerm : List Happening :=
  [.operation .startElection [],
    .operation (.handleMessage (.new "B" "A" (.requestVote ⟨2, .pushStr 64 "B", 0, 0⟩))) [.errOld]]

/-- The state that these steps end in, with a record of the steps. -/
def unwrittenTermFinal : Elector × List (Elector × Happening × Elector) :=
  Lib.final (Lib.recorded Elector.step) ((bootedNode, none), []) (fun _ _ => True) unwrittenTerm

theorem run_unwrittenTerm : ∃ tr, Lib.Run (Lib.recorded Elector.step) ((bootedNode, none), [])
    (fun _ _ => True) (unwrittenTermFinal :: tr) :=
  ⟨_, Lib.run_final (by decide +kernel)⟩

theorem coherent_iff_unwrittenTerm : (∀ x ∈ unwrittenTermFinal.2, x.2.2.Coherent) ↔
    ∀ x ∈ unwrittenTermFinal.2, x.1.1.WritesThrough x.2.1 :=
  run_unwrittenTerm.elim fun _ hrun =>
    @coherent_iff "A" _ .empty bootedNode (by decide) rfl (fun _ _ => True) _ hrun _
      List.mem_cons_self

/-- A is Candidate of term 2, in which it has not voted and has started no election. -/
theorem not_coherent : ¬ ∀ (id : String) (peers : HashMap String PeerInfo) (dir : DataDir)
    (n₀ : RaftNode), id.utf8ByteSize ≤ 64 → RaftNode.new id peers dir = some n₀ →
    ∀ tr : List (Elector × List (Elector × Happening × Elector)),
      Lib.Run (Lib.recorded Elector.step) ((n₀, none), []) (fun _ _ => True) tr →
        ∀ s ∈ tr, s.1.Coherent := by
  intro h
  obtain ⟨tr, hrun⟩ := run_unwrittenTerm
  have hlast := h "A" _ .empty bootedNode (by decide) rfl _ hrun _ List.mem_cons_self
    (by decide +kernel)
  have hvote := hlast.1
  revert hvote
  decide +kernel

end RaftEbpf.RaftNode
