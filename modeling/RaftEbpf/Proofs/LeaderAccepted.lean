import RaftEbpf.Interleaving
import RaftEbpf.Proofs.LogList
import RaftEbpf.Proofs.RoleChange

/-!
# `RaftEbpf.Proofs.LeaderAccepted`: a node that has heard the leader of a term

`handle_append_entries` takes the sender for the leader, but makes the node Follower only where
the term of the request is newer. A Candidate that hears the winner of its own term stays
Candidate, and the next vote makes it Leader.

* `followsAccepted_of_noContest`: in every run in which a request of the node's own term finds
  it Follower, a node that has accepted a leader is Follower for the rest of the term.
* `not_followsAccepted`: a Candidate of term 1 accepts the leader of term 1 and becomes Leader
  of term 1.
-/

set_option autoImplicit false

namespace RaftEbpf

open RaftEbpf.Lib (Prog)

/-- The term that a start from this file begins with. -/
def StateFile.term : StateFile → Nat
  | .json ps => ps.currentTerm
  | _ => 0

namespace RaftNode

/-- A step of a node: the state before, what happened, and the state after. -/
abbrev Step : Type := RaftNode × Happening × RaftNode

/-- The node accepts a leader of this term: it gets an `AppendEntries` request from another
node, of this term, which is not below its own, and the handler returns `Ok`. -/
def Accepts (x : Step) (term : Nat) : Prop :=
  match x.2.1 with
  | .operation (.handleMessage env) ws =>
      match env.message with
      | .appendEntries req => req.term = term ∧ x.1.log.currentTerm ≤ term ∧
          env.sender.asStr ≠ x.1.nodeId ∧ x.1.Processed (.handleMessage env) ws
      | _ => False
  | _ => False

/-- Whoever accepts a leader is Follower, and stays Follower for the rest of the term. The steps
are listed newest first. -/
def FollowsAccepted (steps : List Step) : Prop :=
  (∀ x ∈ steps, ∀ term, Accepts x term → x.2.2.role = .follower) ∧
    steps.Pairwise fun later earlier => ∀ term, Accepts earlier term →
      later.2.2.log.currentTerm = term → later.2.2.role = .follower

/-- A request of the node's own term, from another node, finds it Follower. An election does
not wrap the term, and a restart does not lose it. -/
def NoContest (n : RaftNode) : Happening → Prop
  | .operation (.handleMessage env) _ =>
      match env.message with
      | .appendEntries req => env.sender.asStr ≠ n.nodeId → req.term = n.log.currentTerm →
          n.role = .follower
      | _ => True
  | .operation .startElection _ => n.log.currentTerm < u64Max
  | .operation _ _ => True
  | .restart _ => n.log.currentTerm ≤ n.log.dataDir.stateJson.term

instance (x : Step) (term : Nat) : Decidable (Accepts x term) := by
  unfold Accepts
  exact match x.2.1 with
    | .operation (.handleMessage ⟨_, _, message⟩) _ =>
        match message with
        | .appendEntries _ | .appendEntriesResponse _ | .requestVote _ | .requestVoteResponse _
        | .clientRequest _ | .clientResponse _ => inferInstance
    | .operation .startElection _ | .operation .sendHeartbeats _ | .operation (.propose _ _) _
    | .operation (.addPeer _ _) _ | .operation (.removePeer _) _ | .operation .getStatus _
    | .operation (.getValue _) _ | .operation (.getMessages _ _) _ => inferInstance
    | .restart _ => inferInstance

instance (n : RaftNode) (h : Happening) : Decidable (n.NoContest h) := by
  unfold NoContest
  exact match h with
    | .operation (.handleMessage ⟨_, _, message⟩) _ =>
        match message with
        | .appendEntries _ | .appendEntriesResponse _ | .requestVote _ | .requestVoteResponse _
        | .clientRequest _ | .clientResponse _ => inferInstance
    | .operation .startElection _ | .operation .sendHeartbeats _ | .operation (.propose _ _) _
    | .operation (.addPeer _ _) _ | .operation (.removePeer _) _ | .operation .getStatus _
    | .operation (.getValue _) _ | .operation (.getMessages _ _) _ => inferInstance
    | .restart _ => inferInstance

section Step
variable {n n' : RaftNode} {op : Operation} {ws : List WriteResult}

/-- A start from a data directory begins as Follower, in the term of its file. -/
theorem new_role_term {id : String} {peers : Lib.HashMap String PeerInfo} {dir : DataDir}
    (h : RaftNode.new id peers dir = some n) :
    n.role = .follower ∧ n.log.currentTerm = dir.stateJson.term := by
  obtain ⟨log, hlog, rfl⟩ := Option.map_eq_some_iff.mp h
  refine ⟨rfl, ?_⟩
  obtain ⟨file, lines⟩ := dir
  cases file with
  | absent =>
      obtain rfl := Option.some.inj hlog
      exact congrArg (·.currentTerm) (RaftLog.foldl_loadLine_frame lines _).2
  | json ps =>
      obtain rfl := Option.some.inj hlog
      exact congrArg (·.currentTerm) (RaftLog.foldl_loadLine_frame lines _).2
  | unparsable => cases hlog

/-- The term never falls, and as long as it stays a Follower stays one. -/
theorem term_role_of_happen {h : Happening} (hok : n.NoContest h) (hs : n.happen h = some n') :
    n.log.currentTerm ≤ n'.log.currentTerm ∧
      (n'.log.currentTerm = n.log.currentTerm → n.role = .follower → n'.role = .follower) := by
  cases h with
  | restart peers =>
      obtain ⟨hrole, hterm⟩ := new_role_term hs
      exact ⟨hterm ▸ hok, fun _ _ => hrole⟩
  | operation op ws =>
      obtain rfl := Option.some.inj hs
      obtain ⟨-, hchange⟩ := roleChange_task n op ws
      have hterm := hchange.currentTerm
      cases hop : n.raisesTo op with
      | none =>
          rw [hop, Option.getD_none] at hterm
          exact ⟨Nat.le_of_eq hterm.symm, fun _ => hchange.follower hop⟩
      | some term =>
          rw [hop, Option.getD_some] at hterm
          have hlt : n.log.currentTerm < term := by
            by_cases hstart : op = .startElection
            · subst hstart
              obtain rfl := Option.some.inj hop
              rw [addOne_of_lt hok]
              exact Nat.lt_succ_self _
            · exact lt_of_raisesTo hstart hop
          exact ⟨by omega, fun hsame => absurd hsame (by omega)⟩

/-- A term that is not written is an `Err` of `handle_append_entries`. -/
theorem value_handleAppendEntries {sender : String} {req : AppendEntriesRequest}
    (hnew : req.term > n.log.currentTerm) (hw : ws.headD .ok ≠ .ok) :
    ((handleAppendEntries sender req).run ws n).value = none := by
  have hold : ¬ req.term < n.log.currentTerm := Nat.not_lt.mpr (Nat.le_of_lt hnew)
  rw [handleAppendEntries_eq]
  simp only [Prog.run_bind, run_lock, run_get, Prog.Result.andThen_some]
  rw [if_neg hold, if_pos hnew, run_setCurrentTerm_bind, if_neg hw]

/-- Whoever accepts a leader is Follower in the leader's term. -/
theorem follower_of_accepts {h : Happening} {term : Nat} (hok : n.NoContest h)
    (hacc : Accepts (n, h, n') term) (hs : n.happen h = some n') :
    n'.role = .follower ∧ n'.log.currentTerm = term := by
  cases h with
  | restart peers => exact hacc.elim
  | operation op ws =>
      cases op with
      | handleMessage env =>
          obtain ⟨sender, recipient, message⟩ := env
          cases message with
          | appendEntries req =>
              obtain ⟨rfl, hle, hother, hproc⟩ := hacc
              obtain rfl := Option.some.inj hs
              have hchange := (roleChange_task n
                (.handleMessage ⟨sender, recipient, .appendEntries req⟩) ws).2
              have hterm := hchange.currentTerm
              by_cases hnew : req.term > n.log.currentTerm
              · have hop : n.raisesTo (.handleMessage ⟨sender, recipient, .appendEntries req⟩)
                    = some req.term := if_pos hnew
                rw [hop] at hterm
                refine ⟨hchange.follower_of_written hop nofun ?_, hterm⟩
                -- A term that is not written is no `Ok`.
                by_contra hw
                have hnone : ((handleAppendEntries sender.asStr req).run ws n).value = none :=
                  value_handleAppendEntries hnew hw
                rw [Processed] at hproc
                change ((handleAppendEntries sender.asStr req).run ws n).value.isSome = true
                  at hproc
                rw [hnone] at hproc
                cases hproc
              · have hop : n.raisesTo (.handleMessage ⟨sender, recipient, .appendEntries req⟩)
                    = none := if_neg hnew
                rw [hop] at hterm
                have hsame : req.term = n.log.currentTerm := le_antisymm (Nat.not_lt.mp hnew) hle
                exact ⟨hchange.follower hop (hok hother hsame), hterm.trans hsame.symm⟩
          | _ => exact hacc.elim
      | _ => exact hacc.elim

end Step

/-- In every run, also with writes that fail and with restarts, whoever has accepted a leader of
a term is Follower for the rest of the term, if requests of a node's own term find it
Follower. -/
theorem followsAccepted_of_noContest {n₀ : RaftNode} {tr : List (RaftNode × List Step)}
    (hrun : Lib.Run (Lib.recorded happen) (n₀, []) (fun s h => s.1.NoContest h) tr) :
    ∀ s ∈ tr, FollowsAccepted s.2 := by
  -- The terms accepted so far are not above the current one, and if one is the current one the
  -- node is Follower.
  have hinv := hrun.invariant (I := fun s => FollowsAccepted s.2 ∧ ∀ x ∈ s.2, ∀ term,
    Accepts x term → term ≤ s.1.log.currentTerm ∧
      (s.1.log.currentTerm = term → s.1.role = .follower)) ⟨⟨by simp, .nil⟩, by simp⟩ ?_
  · exact fun s hs => (hinv s hs).1
  rintro ⟨n, steps⟩ h s' ⟨⟨hnow, hlater⟩, hpast⟩ hok hs
  obtain ⟨n', hn', rfl⟩ := Option.map_eq_some_iff.mp hs
  obtain ⟨hle, hkeeps⟩ := term_role_of_happen hok hn'
  have hpast' : ∀ x ∈ steps, ∀ term, Accepts x term → term ≤ n'.log.currentTerm ∧
      (n'.log.currentTerm = term → n'.role = .follower) := by
    intro x hx term hacc
    obtain ⟨hterm, hrole⟩ := hpast x hx term hacc
    refine ⟨Nat.le_trans hterm hle, fun heq => ?_⟩
    have hsame : n.log.currentTerm = term := le_antisymm (heq ▸ hle) hterm
    exact hkeeps (heq.trans hsame.symm) (hrole hsame)
  have hnow' : ∀ term, Accepts (n, h, n') term → n'.role = .follower ∧ n'.log.currentTerm = term :=
    fun term hacc => follower_of_accepts hok hacc hn'
  refine ⟨⟨?_, ?_⟩, ?_⟩
  · intro x hx term hacc
    rcases List.mem_cons.mp hx with rfl | hx
    · exact (hnow' term hacc).1
    · exact hnow x hx term hacc
  · exact List.pairwise_cons.mpr
      ⟨fun x hx term hacc => (hpast' x hx term hacc).2, hlater⟩
  · intro x hx term hacc
    rcases List.mem_cons.mp hx with rfl | hx
    · obtain ⟨hrole, hterm⟩ := hnow' term hacc
      exact ⟨Nat.le_of_eq hterm.symm, fun _ => hrole⟩
    · exact hpast' x hx term hacc

/-- The state that these steps of node A, with peers B and C, end in, and the steps. -/
def bootedFinal (ok : RaftNode → Happening → Prop) [∀ n h, Decidable (ok n h)]
    (hs : List Happening) : RaftNode × List Step :=
  Lib.final (Lib.recorded happen) (bootedNode, []) (fun s h => ok s.1 h) hs

/-- A hears the leader B of term 1, then stands for election itself. -/
def electionAfterLeader : List Happening :=
  [.receive "B" (.heartbeat "B" 1), .operation .startElection []]

theorem followsAccepted_of_noContest_electionAfterLeader :
    Accepts ((bootedFinal NoContest electionAfterLeader).2.getLast (by decide +kernel)) 1 ∧
      FollowsAccepted (bootedFinal NoContest electionAfterLeader).2 :=
  ⟨by decide +kernel, followsAccepted_of_noContest (Lib.run_final (by decide +kernel)) _
    List.mem_cons_self⟩

/-- A stands for election in term 1, hears B, who won it, and gets the vote of C. -/
def voteAfterLeader : List Happening :=
  [.operation .startElection [], .receive "B" (.heartbeat "B" 1), .receive "C" (.grant "C" 1)]

/-- After it has heard B, A is Candidate in term 1, and then Leader. No write fails. -/
theorem not_followsAccepted : ¬ ∀ (id : String) (peers : Lib.HashMap String PeerInfo)
    (dir : DataDir) (n₀ : RaftNode), RaftNode.new id peers dir = some n₀ →
    ∀ tr : List (RaftNode × List Step), Lib.Run (Lib.recorded happen) (n₀, [])
      (fun _ h => h.Undisturbed) tr → ∀ s ∈ tr, FollowsAccepted s.2 := by
  intro h
  have hrun : Lib.Run (Lib.recorded happen) (bootedNode, []) (fun _ h => h.Undisturbed)
      (bootedFinal (fun _ h => h.Undisturbed) voteAfterLeader :: _) :=
    Lib.run_final (by decide +kernel)
  have hlater := (h "A" _ .empty bootedNode rfl _ hrun _ List.mem_cons_self).2
  -- The newest step makes A Leader in the term in which the step before accepted B.
  have hrole := List.pairwise_iff_getElem.mp hlater 0 1 (by decide +kernel) (by decide +kernel)
    (by decide) 1 (by decide +kernel) (by decide +kernel)
  revert hrole
  decide +kernel

end RaftNode

end RaftEbpf
