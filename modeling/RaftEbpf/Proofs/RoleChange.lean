import RaftEbpf.Lifetime
import RaftEbpf.Proofs.Neutral

/-!
# `RaftEbpf.Proofs.RoleChange`: what one operation does to role, term and vote

Six places raise the term. Each stores it in memory, writes `state.json`, and moves the role
only where the write succeeded. `RoleChange` lists what comes of that, for every operation and
every outcome of its writes, and `roleChange_task` says that there is nothing else. Invariants
over whole runs are proved from its cases.
-/

set_option autoImplicit false

namespace RaftEbpf.RaftNode

open RaftEbpf.Lib (HashMap Prog)

/-- What an operation with these outcomes of its writes does to role, term and vote. -/
inductive RoleChange (n : RaftNode) (op : Operation) (ws : List WriteResult) (n' : RaftNode) :
    Prop where
  /-- Nothing. -/
  | stays (hop : n.raisesTo op = none) (hrole : n'.role = n.role)
      (hps : n'.log.persistentState = n.log.persistentState)
  /-- A vote in the current term. -/
  | votes {name : HeaplessString 64} (hop : n.raisesTo op = none)
      (hcan : n.log.votedFor = none ∨ n.log.votedFor = some name.asStr) (hrole : n'.role = n.role)
      (hps : n'.log.persistentState = { n.log.persistentState with votedFor := some name })
  /-- A Candidate wins. -/
  | wins (hop : n.raisesTo op = none) (hcand : n.role = .candidate) (hrole : n'.role = .leader)
      (hps : n'.log.persistentState = n.log.persistentState)
  /-- A message of a newer term makes the node Follower. -/
  | follows {term : Nat} (hop : n.raisesTo op = some term) (hmsg : op ≠ .startElection)
      (hw : ws.headD .ok = .ok) (hrole : n'.role = .follower) (hterm : n'.log.currentTerm = term)
  /-- The newer term is not written, and the role is not looked at. -/
  | lapses {term : Nat} (hop : n.raisesTo op = some term) (hmsg : op ≠ .startElection)
      (hw : ws.headD .ok ≠ .ok) (hrole : n'.role = n.role)
      (hps : n'.log.persistentState = ⟨term, none⟩)
  /-- An election of the node's own. A node without peers wins at once. -/
  | stands (hop : op = .startElection) (hw : ws.headD .ok = .ok) (hw' : ws.tail.headD .ok = .ok)
      (hrole : n'.role = .candidate ∨ n'.role = .leader)
      (hps : n'.log.persistentState = ⟨addOne n.log.currentTerm, some (.pushStr 64 n.nodeId)⟩)
  /-- An election whose term is not written. -/
  | unstarted (hop : op = .startElection) (hw : ws.headD .ok ≠ .ok) (hrole : n'.role = n.role)
      (hps : n'.log.persistentState = ⟨addOne n.log.currentTerm, none⟩)
  /-- An election whose vote is not written. -/
  | unvoted (hop : op = .startElection) (hw : ws.headD .ok = .ok) (hw' : ws.tail.headD .ok ≠ .ok)
      (hrole : n'.role = n.role)
      (hps : n'.log.persistentState = ⟨addOne n.log.currentTerm, some (.pushStr 64 n.nodeId)⟩)

namespace RoleChange

variable {n n' : RaftNode} {op : Operation} {ws : List WriteResult}

/-- The term is the one that the operation raises it to, if it does. -/
theorem currentTerm (h : RoleChange n op ws n') :
    n'.log.currentTerm = (n.raisesTo op).getD n.log.currentTerm := by
  cases h with
  | stays hop hrole hps => exact hop ▸ congrArg (·.currentTerm) hps
  | votes hop hcan hrole hps => exact hop ▸ congrArg (·.currentTerm) hps
  | wins hop hcand hrole hps => exact hop ▸ congrArg (·.currentTerm) hps
  | follows hop hmsg hw hrole hterm => exact hop ▸ hterm
  | lapses hop hmsg hw hrole hps => exact hop ▸ congrArg (·.currentTerm) hps
  | stands hop hw hw' hrole hps => exact hop ▸ congrArg (·.currentTerm) hps
  | unstarted hop hw hrole hps => exact hop ▸ congrArg (·.currentTerm) hps
  | unvoted hop hw hw' hrole hps => exact hop ▸ congrArg (·.currentTerm) hps

/-- In a term that the operation does not raise, the role stays, or a Candidate wins. -/
theorem role (h : RoleChange n op ws n') (hop : n.raisesTo op = none) :
    n'.role = n.role ∨ n.role = .candidate ∧ n'.role = .leader := by
  cases h with
  | stays _ hrole _ => exact Or.inl hrole
  | votes _ _ hrole _ => exact Or.inl hrole
  | wins _ hcand hrole _ => exact Or.inr ⟨hcand, hrole⟩
  | follows hsome _ _ _ _ =>
      rw [hop] at hsome
      cases hsome
  | lapses hsome _ _ _ _ =>
      rw [hop] at hsome
      cases hsome
  | stands hop' _ _ _ _ =>
      subst hop'
      cases hop
  | unstarted hop' _ _ _ =>
      subst hop'
      cases hop
  | unvoted hop' _ _ _ _ =>
      subst hop'
      cases hop

/-- In a term that the operation does not raise, a Follower stays one. -/
theorem follower (h : RoleChange n op ws n') (hop : n.raisesTo op = none)
    (hrole : n.role = .follower) : n'.role = .follower := by
  rcases h.role hop with hsame | ⟨hcand, -⟩
  · exact hsame.trans hrole
  · rw [hcand] at hrole
    cases hrole

/-- In a term that the operation does not raise, a Leader stays one. -/
theorem leader (h : RoleChange n op ws n') (hop : n.raisesTo op = none)
    (hrole : n.role = .leader) : n'.role = .leader := by
  rcases h.role hop with hsame | ⟨-, hwon⟩
  · exact hsame.trans hrole
  · exact hwon

/-- A message of a newer term makes the node Follower, if the term is written. -/
theorem follower_of_written (h : RoleChange n op ws n') {term : Nat}
    (hop : n.raisesTo op = some term) (hmsg : op ≠ .startElection) (hw : ws.headD .ok = .ok) :
    n'.role = .follower := by
  cases h with
  | follows _ _ _ hrole _ => exact hrole
  | lapses _ _ hw' _ _ => exact absurd hw hw'
  | stands hop' _ _ _ _ => exact absurd hop' hmsg
  | unstarted hop' _ _ _ => exact absurd hop' hmsg
  | unvoted hop' _ _ _ _ => exact absurd hop' hmsg
  | stays hnone _ _ =>
      rw [hop] at hnone
      cases hnone
  | votes hnone _ _ _ =>
      rw [hop] at hnone
      cases hnone
  | wins hnone _ _ _ =>
      rw [hop] at hnone
      cases hnone

end RoleChange

/-- A message raises the term to a newer one. -/
theorem lt_of_raisesTo {n : RaftNode} {op : Operation} {term : Nat} (hmsg : op ≠ .startElection)
    (h : n.raisesTo op = some term) : n.log.currentTerm < term := by
  cases op with
  | startElection => exact absurd rfl hmsg
  | handleMessage env =>
      unfold raisesTo at h
      dsimp only at h
      split at h
      · obtain ⟨hlt, ⟨⟩⟩ := Option.ite_none_right_eq_some.mp h
        exact hlt
      · obtain ⟨hlt, ⟨⟩⟩ := Option.ite_none_right_eq_some.mp h
        exact hlt.2
      · obtain ⟨hlt, ⟨⟩⟩ := Option.ite_none_right_eq_some.mp h
        exact hlt
      · obtain ⟨hlt, ⟨⟩⟩ := Option.ite_none_right_eq_some.mp h
        exact hlt.2
      · cases h
  | _ => cases h

/-! ### The writes of `state.json` -/

section Writes
variable {n : RaftNode} {ws : List WriteResult}

/-- `set_current_term` and what follows it: its end where the write succeeds, and nothing more
where it fails. -/
theorem run_setCurrentTerm_bind (term : Nat) (p : Unit → NodeProg Unit) :
    (setCurrentTerm term >>= p).run ws n =
      if ws.headD .ok = .ok then
        (p ()).run ws.tail { n with log := n.log.setCurrentTerm term .ok }
      else
        ⟨none, { n with log := n.log.setCurrentTerm term (ws.headD .ok) }, [], ws.tail⟩ := by
  rw [Prog.run_bind]
  show Prog.Result.andThen ((checkWrite (ws.headD .ok)).run ws.tail
    { n with log := n.log.setCurrentTerm term (ws.headD .ok) }) _ = _
  cases ws.headD .ok with
  | ok => simp [checkWrite, Prog.run]
  | errOld => simp [checkWrite, Prog.run]
  | errUnparsable => simp [checkWrite, Prog.run]

/-- `set_voted_for` and what follows it. -/
theorem run_setVotedFor_bind (name : String) (p : Unit → NodeProg Unit) :
    (setVotedFor name >>= p).run ws n =
      if ws.headD .ok = .ok then
        (p ()).run ws.tail { n with log := n.log.setVotedFor (some name) .ok }
      else
        ⟨none, { n with log := n.log.setVotedFor (some name) (ws.headD .ok) }, [], ws.tail⟩ := by
  rw [Prog.run_bind]
  show Prog.Result.andThen ((checkWrite (ws.headD .ok)).run ws.tail
    { n with log := n.log.setVotedFor (some name) (ws.headD .ok) }) _ = _
  cases ws.headD .ok with
  | ok => simp [checkWrite, Prog.run]
  | errOld => simp [checkWrite, Prog.run]
  | errUnparsable => simp [checkWrite, Prog.run]

end Writes

/-! ### The handlers -/

section Handlers
variable {n : RaftNode} {ws : List WriteResult}

/-- What is steady leaves the id, role, term and vote. -/
theorem steady_run {p : NodeProg Unit} (h : p.Only LogExclusive Steady Inert) (n : RaftNode)
    (ws : List WriteResult) : (p.run ws n).state.nodeId = n.nodeId ∧
      (p.run ws n).state.role = n.role ∧
      (p.run ws n).state.log.persistentState = n.log.persistentState :=
  h.run (I := fun n' => n'.nodeId = n.nodeId ∧ n'.role = n.role ∧
      n'.log.persistentState = n.log.persistentState)
    (fun _ hf _ hI => ⟨(hf.nodeId _).trans hI.1, (hf.role _).trans hI.2.1,
      (hf.persistentState _).trans hI.2.2⟩) ⟨rfl, rfl, rfl⟩ ws

/-- A steady operation. -/
theorem roleChange_steady {op : Operation} {p : NodeProg Unit}
    (h : p.Only LogExclusive Steady Inert) (hop : n.raisesTo op = none) :
    (p.run ws n).state.nodeId = n.nodeId ∧ RoleChange n op ws (p.run ws n).state := by
  obtain ⟨hid, hrole, hps⟩ := steady_run h n ws
  exact ⟨hid, .stays hop hrole hps⟩

/-- A message of a newer term: the term is stored and written, then the node is Follower, then
come parts that leave role and term. -/
theorem roleChange_newer {op : Operation} {term : Nat} {p : NodeProg Unit}
    (hop : n.raisesTo op = some term) (hmsg : op ≠ .startElection)
    (hp : ∀ ws n, (p.run ws n).state.nodeId = n.nodeId ∧ (p.run ws n).state.role = n.role ∧
      (p.run ws n).state.log.currentTerm = n.log.currentTerm) :
    let r := Prog.run (do
      setCurrentTerm term
      setRole .follower
      p) ws n
    r.state.nodeId = n.nodeId ∧ RoleChange n op ws r.state := by
  intro r
  have hr : r = _ := run_setCurrentTerm_bind term _
  by_cases hw : ws.headD .ok = .ok
  · rw [if_pos hw] at hr
    simp only [Prog.run_bind, run_setRole, Prog.Result.andThen_some] at hr
    obtain ⟨hid, hrole, hterm⟩ := hp ws.tail
      { n with log := n.log.setCurrentTerm term .ok, role := .follower }
    rw [hr]
    exact ⟨hid, .follows hop hmsg hw hrole hterm⟩
  · rw [if_neg hw] at hr
    rw [hr]
    exact ⟨rfl, .lapses hop hmsg hw rfl (persistentState_setCurrentTerm _ _ _)⟩

theorem roleChange_handleAppendEntries {env : MessageEnvelope} {req : AppendEntriesRequest}
    (hmsg : env.message = .appendEntries req) (sender : String) :
    ((handleAppendEntries sender req).run ws n).state.nodeId = n.nodeId ∧
      RoleChange n (.handleMessage env) ws ((handleAppendEntries sender req).run ws n).state := by
  have hop : n.raisesTo (.handleMessage env) =
      if req.term > n.log.currentTerm then some req.term else none := by
    rw [raisesTo, hmsg]
  rw [handleAppendEntries_eq]
  simp only [Prog.run_bind, run_lock, run_get, Prog.Result.andThen_some]
  split
  · rename_i hold
    rw [if_neg (Nat.not_lt.mpr (Nat.le_of_lt hold))] at hop
    exact roleChange_steady ((only_sendAppendEntriesResponse _ _ _).bind fun _ =>
      only_unlock _) hop
  · split
    · rename_i hnew
      rw [if_pos hnew] at hop
      refine roleChange_newer hop nofun fun ws n' => ?_
      obtain ⟨hid, hrole, hps⟩ :=
        steady_run (only_afterTermCheck sender req n.log.currentTerm) n' ws
      exact ⟨hid, hrole, congrArg (·.currentTerm) hps⟩
    · rename_i hnew
      rw [if_neg hnew] at hop
      exact roleChange_steady (only_afterTermCheck _ _ _) hop

/-- A response of a newer term. -/
theorem roleChange_stepDown {op : Operation} {term : Nat} (hop : n.raisesTo op = some term)
    (hmsg : op ≠ .startElection) : ((stepDown term).run ws n).state.nodeId = n.nodeId ∧
      RoleChange n op ws ((stepDown term).run ws n).state := by
  have hrun : (stepDown term).run ws n = (do
      setCurrentTerm term
      setRole .follower
      unlock .log : NodeProg Unit).run ws n := rfl
  rw [hrun]
  exact roleChange_newer (p := unlock .log) hop hmsg fun _ _ => ⟨rfl, rfl, rfl⟩

theorem roleChange_handleAppendEntriesResponse {env : MessageEnvelope}
    {resp : AppendEntriesResponse} (hmsg : env.message = .appendEntriesResponse resp)
    (sender : String) :
    ((handleAppendEntriesResponse sender resp).run ws n).state.nodeId = n.nodeId ∧
      RoleChange n (.handleMessage env) ws
        ((handleAppendEntriesResponse sender resp).run ws n).state := by
  have hop : n.raisesTo (.handleMessage env) =
      if n.role = .leader ∧ resp.term > n.log.currentTerm then some resp.term else none := by
    rw [raisesTo, hmsg]
  rw [handleAppendEntriesResponse_eq]
  simp only [Prog.run_bind, run_lock, run_withRead, Prog.Result.andThen_some]
  split
  · rename_i hrole
    rw [if_neg fun h => hrole h.1] at hop
    exact roleChange_steady (only_unlock _) hop
  · rename_i hrole
    simp only [Prog.run_bind, run_get, Prog.Result.andThen_some]
    split
    · rename_i hnew
      rw [if_pos ⟨not_not.mp hrole, hnew⟩] at hop
      exact roleChange_stepDown hop nofun
    · rename_i hnew
      rw [if_neg fun h => hnew h.2] at hop
      exact roleChange_steady (only_recordAnswer _ _) hop

/-- The part of `handle_request_vote` that votes: the vote is refused, or stored, and the write
may fail. -/
theorem castVote_cases (sender : String) (req : RequestVoteRequest) (n : RaftNode)
    (ws : List WriteResult) :
    let n' := ((castVote sender req).run ws n).state
    n'.nodeId = n.nodeId ∧ n'.role = n.role ∧ n'.leaderId = n.leaderId ∧
      (n'.log.persistentState = n.log.persistentState ∨
        (n.log.votedFor = none ∨ n.log.votedFor = some req.candidateId.asStr) ∧
          n'.log.persistentState =
            { n.log.persistentState with votedFor := some req.candidateId }) := by
  intro n'
  have hn' : n' = ((castVote sender req).run ws n).state := rfl
  simp only [castVote, Prog.run_bind, run_get, Prog.Result.andThen_some] at hn'
  split at hn'
  · rename_i hcan
    have hstored : ∀ w, (n.log.setVotedFor (some req.candidateId.asStr) w).persistentState
        = { n.log.persistentState with votedFor := some req.candidateId } := by
      intro w
      rw [persistentState_setVotedFor, HeaplessString.pushStr_asStr]
    rw [run_setVotedFor_bind] at hn'
    split at hn'
    · simp only [Prog.run_bind, run_get, run_sendRequestVoteResponse, run_unlock,
        Prog.Result.andThen_some] at hn'
      rw [hn']
      exact ⟨rfl, rfl, rfl, Or.inr ⟨hcan.1, hstored .ok⟩⟩
    · rw [hn']
      exact ⟨rfl, rfl, rfl, Or.inr ⟨hcan.1, hstored _⟩⟩
  · simp only [Prog.run_bind, run_sendRequestVoteResponse, run_unlock,
      Prog.Result.andThen_some] at hn'
    rw [hn']
    exact ⟨rfl, rfl, rfl, Or.inl rfl⟩

theorem roleChange_handleRequestVote {env : MessageEnvelope} {req : RequestVoteRequest}
    (hmsg : env.message = .requestVote req) (sender : String) :
    ((handleRequestVote sender req).run ws n).state.nodeId = n.nodeId ∧
      RoleChange n (.handleMessage env) ws ((handleRequestVote sender req).run ws n).state := by
  have hop : n.raisesTo (.handleMessage env) =
      if req.term > n.log.currentTerm then some req.term else none := by
    rw [raisesTo, hmsg]
  rw [handleRequestVote_eq]
  simp only [Prog.run_bind, run_lock, run_get, Prog.Result.andThen_some]
  split
  · rename_i hold
    rw [if_neg (Nat.not_lt.mpr (Nat.le_of_lt hold))] at hop
    exact roleChange_steady ((only_sendRequestVoteResponse _ _).bind fun _ => only_unlock _) hop
  · split
    · rename_i hnew
      rw [if_pos hnew] at hop
      refine roleChange_newer hop nofun fun ws n' => ?_
      obtain ⟨hid, hrole, -, hps | ⟨-, hps⟩⟩ := castVote_cases sender req n' ws
      · exact ⟨hid, hrole, congrArg (·.currentTerm) hps⟩
      · exact ⟨hid, hrole, congrArg (·.currentTerm) hps⟩
    · rename_i hnew
      rw [if_neg hnew] at hop
      obtain ⟨hid, hrole, -, hps | ⟨hcan, hps⟩⟩ := castVote_cases sender req n ws
      · exact ⟨hid, .stays hop hrole hps⟩
      · exact ⟨hid, .votes hop hcan hrole hps⟩

/-- Counting a grant. -/
theorem run_countVote (sender : String) (n : RaftNode) (ws : List WriteResult) :
    (countVote sender).run ws n =
      if ReachesThreshold (counted n sender) then
        ⟨some (), leaderOf (counted n sender), .elected (counted n sender).log.currentTerm ::
          heartbeats (leaderOf (counted n sender)), ws⟩
      else ⟨some (), counted n sender, [], ws⟩ := by
  have hcount : (countVote sender).run ws n =
      (if ReachesThreshold (counted n sender) then do
        .emit (.elected (counted n sender).log.currentTerm) (.done ())
        unlock .votesReceived
        unlock .peers
        unlock .log
        becomeLeader
      else do
        unlock .peers
        unlock .votesReceived
        unlock .log : NodeProg Unit).run ws (counted n sender) := rfl
  rw [hcount]
  split
  · simp [Prog.run_bind]
  · simp [Prog.run_bind]

theorem roleChange_handleRequestVoteResponse {env : MessageEnvelope} {resp : RequestVoteResponse}
    (hmsg : env.message = .requestVoteResponse resp) (sender : String) :
    ((handleRequestVoteResponse sender resp).run ws n).state.nodeId = n.nodeId ∧
      RoleChange n (.handleMessage env) ws
        ((handleRequestVoteResponse sender resp).run ws n).state := by
  have hop : n.raisesTo (.handleMessage env) =
      if n.role = .candidate ∧ resp.term > n.log.currentTerm then some resp.term else none := by
    rw [raisesTo, hmsg]
  rw [handleRequestVoteResponse_eq]
  simp only [Prog.run_bind, run_lock, run_withRead, Prog.Result.andThen_some]
  split
  · rename_i hrole
    rw [if_neg fun h => hrole h.1] at hop
    exact roleChange_steady (only_unlock _) hop
  · rename_i hrole
    simp only [Prog.run_bind, run_get, Prog.Result.andThen_some]
    split
    · rename_i hnew
      rw [if_pos ⟨not_not.mp hrole, hnew⟩] at hop
      exact roleChange_stepDown hop nofun
    · rename_i hnew
      rw [if_neg fun h => hnew h.2] at hop
      split
      · -- The vote is counted, and it may be the last one needed.
        have hcounted : (counted n sender).nodeId = n.nodeId ∧ (counted n sender).role = n.role ∧
            (counted n sender).log = n.log := by
          unfold counted
          split <;> exact ⟨rfl, rfl, rfl⟩
        rw [run_countVote]
        split
        · exact ⟨hcounted.1, .wins hop (not_not.mp hrole) rfl
            (congrArg (·.persistentState) hcounted.2.2)⟩
        · exact ⟨hcounted.1, .stays hop hcounted.2.1 (congrArg (·.persistentState) hcounted.2.2)⟩
      · exact roleChange_steady (only_unlock _) hop

/-- `start_election` once term and vote are stored. -/
theorem run_campaign (n : RaftNode) (ws : List WriteResult) :
    (campaign (addOne n.log.currentTerm)).run ws { n with
        log := (n.log.setCurrentTerm (addOne n.log.currentTerm) .ok).setVotedFor
          (some n.nodeId) .ok } =
      if n.peers.keys = [] then
        ⟨some (), leaderOf (candidateOf n),
          .elected (addOne n.log.currentTerm) :: heartbeats (leaderOf (candidateOf n)), ws⟩
      else
        ⟨some (), candidateOf n,
          n.peers.keys.map fun peerId =>
            .send (.new n.nodeId peerId (.requestVote (voteRequest n))), ws⟩ := by
  by_cases h : n.peers.keys = []
  · have hc : (candidateOf n).peers.keys = [] := h
    simp [campaign, Prog.run_bind, candidateOf, h]
  · simp [campaign, Prog.run_bind, candidateOf, h, voteRequest, Function.comp_def]
    exact fun _ _ => rfl

/-- `start_election` alone, with any outcome of its two writes. -/
theorem run_startElection_writes (n : RaftNode) (ws : List WriteResult) :
    startElection.run ws n =
      if ws.headD .ok = .ok then
        if ws.tail.headD .ok = .ok then
          if n.peers.keys = [] then
            ⟨some (), leaderOf (candidateOf n),
              .elected (addOne n.log.currentTerm) :: heartbeats (leaderOf (candidateOf n)),
              ws.tail.tail⟩
          else
            ⟨some (), candidateOf n,
              n.peers.keys.map fun peerId =>
                .send (.new n.nodeId peerId (.requestVote (voteRequest n))), ws.tail.tail⟩
        else
          ⟨none, { n with
            log := (n.log.setCurrentTerm (addOne n.log.currentTerm) .ok).setVotedFor
              (some n.nodeId) (ws.tail.headD .ok) }, [], ws.tail.tail⟩
      else
        ⟨none, { n with
          log := n.log.setCurrentTerm (addOne n.log.currentTerm) (ws.headD .ok) },
          [], ws.tail⟩ := by
  have hrun : startElection.run ws n = (do
      setCurrentTerm (addOne n.log.currentTerm)
      setVotedFor n.nodeId
      campaign (addOne n.log.currentTerm) : NodeProg Unit).run ws n := rfl
  rw [hrun, run_setCurrentTerm_bind, run_setVotedFor_bind]
  split
  · split
    · exact run_campaign n ws.tail.tail
    · rfl
  · rfl

/-- `start_election`: two writes, then the node is Candidate, or Leader if it has no peers. -/
theorem roleChange_startElection : (startElection.run ws n).state.nodeId = n.nodeId ∧
    RoleChange n .startElection ws (startElection.run ws n).state := by
  rw [run_startElection_writes]
  split
  · rename_i hw
    split
    · rename_i hw'
      split
      · exact ⟨rfl, .stands rfl hw hw' (Or.inr rfl) rfl⟩
      · exact ⟨rfl, .stands rfl hw hw' (Or.inl rfl) rfl⟩
    · rename_i hw'
      exact ⟨rfl, .unvoted rfl hw hw' rfl (persistentState_setVotedFor _ _ _)⟩
  · rename_i hw
    exact ⟨rfl, .unstarted rfl hw rfl (persistentState_setCurrentTerm _ _ _)⟩

end Handlers

/-- There is nothing else that an operation does to role, term and vote. It does not change the
id. -/
theorem roleChange_task (n : RaftNode) (op : Operation) (ws : List WriteResult) :
    (op.task.run ws n).state.nodeId = n.nodeId ∧ RoleChange n op ws (op.task.run ws n).state := by
  cases op with
  | handleMessage env =>
      obtain ⟨sender, recipient, message⟩ := env
      cases message with
      | appendEntries req => exact roleChange_handleAppendEntries rfl _
      | appendEntriesResponse resp => exact roleChange_handleAppendEntriesResponse rfl _
      | requestVote req => exact roleChange_handleRequestVote rfl _
      | requestVoteResponse resp => exact roleChange_handleRequestVoteResponse rfl _
      | clientRequest req => exact ⟨rfl, .stays rfl rfl rfl⟩
      | clientResponse resp => exact ⟨rfl, .stays rfl rfl rfl⟩
  | startElection => exact roleChange_startElection
  | sendHeartbeats =>
      rw [Operation.task, run_sendHeartbeats]
      exact ⟨rfl, .stays rfl rfl rfl⟩
  | propose command tx =>
      rw [Operation.task, run_propose]
      split
      · exact ⟨rfl, .stays rfl rfl rfl⟩
      · exact ⟨rfl, .stays rfl rfl rfl⟩
  | addPeer id address =>
      rw [Operation.task, run_addPeer]
      exact ⟨rfl, .stays rfl rfl rfl⟩
  | removePeer id =>
      rw [Operation.task, run_removePeer]
      exact ⟨rfl, .stays rfl rfl rfl⟩
  | getStatus => exact ⟨rfl, .stays rfl rfl rfl⟩
  | getValue key => exact ⟨rfl, .stays rfl rfl rfl⟩
  | getMessages limit sinceIndex => exact ⟨rfl, .stays rfl rfl rfl⟩

end RaftEbpf.RaftNode
