import RaftEbpf.Proofs.LeaderAccepted

/-!
# `RaftEbpf.Proofs.LeaderHint`: whom a node takes for the leader

`leader_id` is set by `become_leader` and by `handle_append_entries`, and cleared nowhere. Where
the term rises in another way, the leader of an older term is still named in the newer one.

A `Watch` is a node with a record of the leaders: who became Leader in which term, this node or
another one, and who sent this node an `AppendEntries` request of which term. What the other
nodes do is left open.

* `hintSound_of_hintFresh`: in every run in which such a rise finds no leader named, or another
  node that is on record as a leader of the newer term, the hint is sound throughout.
* `not_hintSound`: a deposed leader sends its clients to itself.
-/

set_option autoImplicit false

namespace RaftEbpf

open RaftEbpf.Lib (HashMap Prog)

/-- One thing that happens to a node or around it. -/
inductive Occurrence where
  /-- Something happens to the node. -/
  | here (h : Happening)
  /-- Another node becomes Leader. -/
  | elsewhere (id : String) (term : Nat)

/-- A node, with the leaders so far. -/
structure Watch where
  node : RaftNode
  /-- Who became Leader, and in which term. -/
  won : List (String × Nat)
  /-- Who sent this node an `AppendEntries` request, and of which term. -/
  heard : List (String × Nat)

/-- The sender and the term of an `AppendEntries` request. -/
def Operation.heard : Operation → List (String × Nat)
  | .handleMessage env =>
      match env.message with
      | .appendEntries req => [(env.sender.asStr, req.term)]
      | _ => []
  | _ => []

/-- The elections among these outputs of a node. -/
def elections (id : String) (out : List Output) : List (String × Nat) :=
  out.filterMap fun
    | .elected term => some (id, term)
    | _ => none

namespace RaftNode

/-- The operation sets the hint where it raises the term: it is an `AppendEntries` request, or the
election of a node without peers, and its writes succeed. -/
def SetsHint (n : RaftNode) (op : Operation) (ws : List WriteResult) : Prop :=
  match op with
  | .handleMessage env =>
      match env.message with
      | .appendEntries _ => ws.headD .ok = .ok
      | _ => False
  | .startElection => n.peers.keys = [] ∧ ws.headD .ok = .ok ∧ ws.tail.headD .ok = .ok
  | _ => False

instance (n : RaftNode) (op : Operation) (ws : List WriteResult) :
    Decidable (n.SetsHint op ws) := by
  unfold SetsHint
  exact match op with
    | .handleMessage ⟨_, _, message⟩ =>
        match message with
        | .appendEntries _ | .appendEntriesResponse _ | .requestVote _ | .requestVoteResponse _
        | .clientRequest _ | .clientResponse _ => inferInstance
    | .startElection | .sendHeartbeats | .propose _ _ | .addPeer _ _ | .removePeer _ | .getStatus
    | .getValue _ | .getMessages _ _ => inferInstance

/-- An `AppendEntries` request comes from another node and names its sender as leader, as those
of `send_heartbeats` do. -/
def NamesSender (n : RaftNode) : Operation → Prop
  | .handleMessage env =>
      match env.message with
      | .appendEntries req => req.leaderId = env.sender ∧ env.sender.asStr ≠ n.nodeId
      | _ => True
  | _ => True

instance (n : RaftNode) (op : Operation) : Decidable (n.NamesSender op) := by
  unfold NamesSender
  exact match op with
    | .handleMessage ⟨_, _, message⟩ =>
        match message with
        | .appendEntries _ | .appendEntriesResponse _ | .requestVote _ | .requestVoteResponse _
        | .clientRequest _ | .clientResponse _ => inferInstance
    | .startElection | .sendHeartbeats | .propose _ _ | .addPeer _ _ | .removePeer _ | .getStatus
    | .getValue _ | .getMessages _ _ => inferInstance

end RaftNode

namespace Watch

/-- A node that has just been built, before anybody became Leader. -/
def start (id : String) (peers : HashMap String PeerInfo) (log : RaftLog) : Watch :=
  ⟨.withLog id peers log, [], []⟩

/-- One step. `none`: the log does not load, or the other node is this one. -/
def step (w : Watch) : Occurrence → Option Watch
  | .here (.operation op ws) =>
      let r := op.task.run ws w.node
      some ⟨r.state, elections w.node.nodeId r.out ++ w.won, op.heard ++ w.heard⟩
  | .here (.restart peers) =>
      (RaftNode.new w.node.nodeId peers w.node.log.dataDir).map fun n => { w with node := n }
  | .elsewhere id term =>
      if id = w.node.nodeId then none else some { w with won := (id, term) :: w.won }

/-- Node `x` became Leader in this term, or sent this node an `AppendEntries` request of it. -/
def LeaderIn (w : Watch) (x : String) (term : Nat) : Prop := (x, term) ∈ w.won ∨ (x, term) ∈ w.heard

instance (w : Watch) (x : String) (term : Nat) : Decidable (w.LeaderIn x term) :=
  inferInstanceAs (Decidable (_ ∨ _))

/-- The hint names a leader of the node's term, and no answer to a client names the node that
answers. -/
structure HintSound (w : Watch) : Prop where
  hint : ∀ x ∈ w.node.leaderId, w.LeaderIn x w.node.log.currentTerm
  replies : ∀ command tx ws, .reply tx (.notLeader (some w.node.nodeId)) ∉
    ((RaftNode.propose command tx).run ws w.node).out

/-- Where the term rises and the operation does not set the hint, the hint is none, or it names
another node that is a leader of the newer term. -/
def HintFresh (w : Watch) : Occurrence → Prop
  | .here (.operation op ws) =>
      w.node.NamesSender op ∧
        ∀ term ∈ w.node.raisesTo op, ¬ w.node.SetsHint op ws →
          ∀ x ∈ w.node.leaderId, x ≠ w.node.nodeId ∧ w.LeaderIn x term
  | _ => True

instance (w : Watch) (o : Occurrence) : Decidable (w.HintFresh o) := by
  unfold HintFresh
  exact match o with
    | .here (.operation _ _) => inferInstance
    | .here (.restart _) => inferInstance
    | .elsewhere _ _ => inferInstance

end Watch

/-! ### One operation -/

namespace RaftNode

/-- What an operation with these outcomes of its writes does to the hint. -/
inductive HintChange (n : RaftNode) (op : Operation) (ws : List WriteResult)
    (r : Prog.Result RaftNode Output WriteResult Unit) : Prop where
  /-- Nothing. If the term rises, the operation is one that does not set the hint. -/
  | keeps (hop : n.raisesTo op ≠ none → ¬ n.SetsHint op ws) (hhint : r.state.leaderId = n.leaderId)
  /-- A request of the term names its sender. -/
  | follows {env : MessageEnvelope} {req : AppendEntriesRequest} (hop : op = .handleMessage env)
      (hmsg : env.message = .appendEntries req) (hhint : r.state.leaderId = some req.leaderId.asStr)
      (hterm : req.term = (n.raisesTo op).getD n.log.currentTerm)
  /-- The node wins and names itself. -/
  | wins (hhint : r.state.leaderId = some n.nodeId) (hrole : r.state.role = .leader)
      (hout : .elected ((n.raisesTo op).getD n.log.currentTerm) ∈ r.out)

/-- A write that leaves the hint as it is. -/
def KeepsHint (f : RaftNode → RaftNode) : Prop := ∀ n, (f n).leaderId = n.leaderId

theorem Committing.keepsHint {f : RaftNode → RaftNode} (hf : Committing f) : KeepsHint f := by
  intro n
  obtain ⟨_, _, _, _, heq⟩ := hf n
  rw [heq]

section Handlers
variable {n : RaftNode} {ws : List WriteResult}

/-- After its term check an `AppendEntries` request has set the hint. -/
theorem leaderId_afterTermCheck (sender : String) (req : AppendEntriesRequest) (term : Nat)
    (n : RaftNode) (ws : List WriteResult) :
    ((afterTermCheck sender req term).run ws n).state.leaderId = some req.leaderId.asStr := by
  -- No write before the one of the hint: it may as well be done twice.
  have hrun : (afterTermCheck sender req term).run ws n = (afterTermCheck sender req term).run ws
      { n with leaderId := some req.leaderId.asStr } := rfl
  rw [hrun]
  exact (only_afterTermCheck_of (W := fun f => ∀ n, n.leaderId = some req.leaderId.asStr →
      (f n).leaderId = some req.leaderId.asStr) sender req term (fun _ _ => rfl) (fun _ => id)
      (fun _ => id) fun _ hf n hn => (hf.keepsHint n).trans hn).run
    (I := fun n => n.leaderId = some req.leaderId.asStr) (fun _ hf n => hf n) rfl ws

theorem hintChange_handleAppendEntries {env : MessageEnvelope} {req : AppendEntriesRequest}
    (hmsg : env.message = .appendEntries req) (sender : String) :
    HintChange n (.handleMessage env) ws ((handleAppendEntries sender req).run ws n) := by
  have hop : n.raisesTo (.handleMessage env) =
      if req.term > n.log.currentTerm then some req.term else none := by
    rw [raisesTo, hmsg]
  have hsets : n.SetsHint (.handleMessage env) ws ↔ ws.headD .ok = .ok := by
    rw [SetsHint, hmsg]
  rw [handleAppendEntries_eq]
  simp only [Prog.run_bind, run_lock, run_get, Prog.Result.andThen_some]
  split
  · rename_i hold
    rw [if_neg (Nat.not_lt.mpr (Nat.le_of_lt hold))] at hop
    exact .keeps (absurd hop) (by simp [Prog.run_bind])
  · rename_i hold
    split
    · rename_i hnew
      rw [if_pos hnew] at hop
      rw [run_setCurrentTerm_bind]
      split
      · simp only [Prog.run_bind, run_setRole, Prog.Result.andThen_some]
        exact .follows rfl hmsg (leaderId_afterTermCheck _ _ _ _ _) (by rw [hop, Option.getD_some])
      · rename_i hw
        exact .keeps (fun _ => mt hsets.mp hw) rfl
    · rename_i hnew
      rw [if_neg hnew] at hop
      exact .follows rfl hmsg (leaderId_afterTermCheck _ _ _ _ _)
        (by rw [hop, Option.getD_none]; exact le_antisymm (Nat.not_lt.mp hnew) (Nat.not_lt.mp hold))

/-- A response of a newer term leaves the hint. -/
theorem leaderId_stepDown (term : Nat) :
    ((stepDown term).run ws n).state.leaderId = n.leaderId := by
  have hrun : (stepDown term).run ws n = (do
      setCurrentTerm term
      setRole .follower
      unlock .log : NodeProg Unit).run ws n := rfl
  rw [hrun, run_setCurrentTerm_bind]
  split
  · rfl
  · rfl

theorem hintChange_handleAppendEntriesResponse {env : MessageEnvelope}
    {resp : AppendEntriesResponse} (hmsg : env.message = .appendEntriesResponse resp)
    (sender : String) :
    HintChange n (.handleMessage env) ws ((handleAppendEntriesResponse sender resp).run ws n) := by
  have hsets : ¬ n.SetsHint (.handleMessage env) ws := by
    rw [SetsHint, hmsg]
    exact not_false
  refine .keeps (fun _ => hsets) ?_
  rw [handleAppendEntriesResponse_eq]
  simp only [Prog.run_bind, run_lock, run_withRead, Prog.Result.andThen_some]
  split
  · rfl
  · simp only [Prog.run_bind, run_get, Prog.Result.andThen_some]
    split
    · exact leaderId_stepDown resp.term
    · refine (only_recordAnswer_of (W := KeepsHint) sender resp (fun f hf n => ?_) fun _ =>
        Committing.keepsHint).run (I := fun n' => n'.leaderId = n.leaderId)
        (fun f hf n' hn' => (hf n').trans hn') rfl ws
      obtain ⟨_, _, heq⟩ := hf n
      rw [heq]

theorem hintChange_handleRequestVote {env : MessageEnvelope} {req : RequestVoteRequest}
    (hmsg : env.message = .requestVote req) (sender : String) :
    HintChange n (.handleMessage env) ws ((handleRequestVote sender req).run ws n) := by
  have hsets : ¬ n.SetsHint (.handleMessage env) ws := by
    rw [SetsHint, hmsg]
    exact not_false
  refine .keeps (fun _ => hsets) ?_
  rw [handleRequestVote_eq]
  simp only [Prog.run_bind, run_lock, run_get, Prog.Result.andThen_some]
  split
  · simp [Prog.run_bind]
  · split
    · rw [run_setCurrentTerm_bind]
      split
      · simp only [Prog.run_bind, run_setRole, Prog.Result.andThen_some]
        exact (castVote_cases sender req _ _).2.2.1
      · rfl
    · exact (castVote_cases sender req _ _).2.2.1

theorem hintChange_handleRequestVoteResponse {env : MessageEnvelope} {resp : RequestVoteResponse}
    (hmsg : env.message = .requestVoteResponse resp) (sender : String) :
    HintChange n (.handleMessage env) ws ((handleRequestVoteResponse sender resp).run ws n) := by
  have hop : n.raisesTo (.handleMessage env) =
      if n.role = .candidate ∧ resp.term > n.log.currentTerm then some resp.term else none := by
    rw [raisesTo, hmsg]
  have hsets : ¬ n.SetsHint (.handleMessage env) ws := by
    rw [SetsHint, hmsg]
    exact not_false
  rw [handleRequestVoteResponse_eq]
  simp only [Prog.run_bind, run_lock, run_withRead, Prog.Result.andThen_some]
  split
  · exact .keeps (fun _ => hsets) rfl
  · simp only [Prog.run_bind, run_get, Prog.Result.andThen_some]
    split
    · exact .keeps (fun _ => hsets) (leaderId_stepDown resp.term)
    · rename_i hnew
      rw [if_neg fun h => hnew h.2] at hop
      split
      · -- The vote is counted, and it may be the last one needed.
        have hcounted : (counted n sender).nodeId = n.nodeId ∧
            (counted n sender).leaderId = n.leaderId ∧ (counted n sender).log = n.log := by
          unfold counted
          split <;> exact ⟨rfl, rfl, rfl⟩
        rw [run_countVote]
        split
        · refine .wins (congrArg some hcounted.1) rfl ?_
          rw [hop, Option.getD_none, hcounted.2.2]
          exact List.mem_cons_self
        · exact .keeps (fun _ => hsets) hcounted.2.1
      · exact .keeps (fun _ => hsets) rfl

theorem hintChange_startElection : HintChange n .startElection ws (startElection.run ws n) := by
  rw [run_startElection_writes]
  split
  · split
    · split
      · exact .wins rfl rfl List.mem_cons_self
      · rename_i hpeers
        exact .keeps (fun _ h => hpeers h.1) rfl
    · rename_i hw'
      exact .keeps (fun _ h => hw' h.2.2) rfl
  · rename_i hw
    exact .keeps (fun _ h => hw h.2.1) rfl

end Handlers

/-- There is nothing else that an operation does to the hint. -/
theorem hintChange_task (n : RaftNode) (op : Operation) (ws : List WriteResult) :
    HintChange n op ws (op.task.run ws n) := by
  cases op with
  | handleMessage env =>
      obtain ⟨sender, recipient, message⟩ := env
      cases message with
      | appendEntries req => exact hintChange_handleAppendEntries rfl _
      | appendEntriesResponse resp => exact hintChange_handleAppendEntriesResponse rfl _
      | requestVote req => exact hintChange_handleRequestVote rfl _
      | requestVoteResponse resp => exact hintChange_handleRequestVoteResponse rfl _
      | clientRequest req => exact .keeps (absurd rfl) rfl
      | clientResponse resp => exact .keeps (absurd rfl) rfl
  | startElection => exact hintChange_startElection
  | sendHeartbeats =>
      rw [Operation.task, run_sendHeartbeats]
      exact .keeps (absurd rfl) rfl
  | propose command tx =>
      rw [Operation.task, run_propose]
      split
      · exact .keeps (absurd rfl) rfl
      · exact .keeps (absurd rfl) rfl
  | addPeer id address =>
      rw [Operation.task, run_addPeer]
      exact .keeps (absurd rfl) rfl
  | removePeer id =>
      rw [Operation.task, run_removePeer]
      exact .keeps (absurd rfl) rfl
  | getStatus => exact .keeps (absurd rfl) rfl
  | getValue key => exact .keeps (absurd rfl) rfl
  | getMessages limit sinceIndex => exact .keeps (absurd rfl) rfl

end RaftNode

/-! ### Runs -/

namespace Watch

/-- The hint names a leader of the node's term, and itself only as Leader. -/
structure Named (w : Watch) : Prop where
  hint : ∀ x ∈ w.node.leaderId, w.LeaderIn x w.node.log.currentTerm
  self : w.node.leaderId = some w.node.nodeId → w.node.role = .leader

theorem Named.unnamed {w : Watch} (h : w.node.leaderId = none) : w.Named := by
  constructor <;> simp [h]

/-- Only a node that is not Leader answers with its hint. -/
theorem Named.hintSound {w : Watch} (h : w.Named) : w.HintSound where
  hint := h.hint
  replies command tx ws hreply := by
    rw [RaftNode.run_propose] at hreply
    split at hreply
    · rcases List.mem_cons.mp hreply with heq | hreply
      · cases heq
      · obtain ⟨env, henv⟩ := RaftNode.exists_send_of_mem_heartbeats hreply
        cases henv
    · rename_i hrole
      have hself := (Output.reply.inj (List.mem_singleton.mp hreply)).2
      exact hrole (h.self (ProposeResult.notLeader.inj hself).symm)

/-- An operation keeps the hint sound: where the hint stays, the term stays too or the new one has
the same leader. -/
theorem Named.operation {w : Watch} (h : w.Named) {op : Operation} {ws : List WriteResult}
    {w' : Watch} (hok : w.HintFresh (.here (.operation op ws)))
    (hs : w.step (.here (.operation op ws)) = some w') : w'.Named := by
  obtain rfl := Option.some.inj hs
  obtain ⟨hsender, hfresh⟩ := hok
  obtain ⟨hid, hrole⟩ := RaftNode.roleChange_task w.node op ws
  have hterm := hrole.currentTerm
  cases RaftNode.hintChange_task w.node op ws with
  | keeps hop hhint =>
      have hcases : ∀ x ∈ w.node.leaderId,
          w.LeaderIn x ((w.node.raisesTo op).getD w.node.log.currentTerm) ∧
            (w.node.raisesTo op = none ∨ x ≠ w.node.nodeId) := by
        intro x hx
        cases hraises : w.node.raisesTo op with
        | none => exact ⟨h.hint x hx, Or.inl rfl⟩
        | some term =>
            have hsets : ¬ w.node.SetsHint op ws := hop (by rw [hraises]; nofun)
            obtain ⟨hne, hleader⟩ := hfresh term hraises hsets x hx
            exact ⟨hleader, Or.inr hne⟩
      refine ⟨fun x hx => ?_, fun hself => ?_⟩
      · have hleader := (hcases x (hhint ▸ hx)).1
        rw [← hterm] at hleader
        exact hleader.imp (List.mem_append_right _) (List.mem_append_right _)
      · have hx : w.node.leaderId = some w.node.nodeId := hhint.symm.trans (hself.trans
          (congrArg some hid))
        rcases (hcases _ hx).2 with hnone | hne
        · exact hrole.leader hnone (h.self hx)
        · exact absurd rfl hne
  | @follows env req hop hmsg hhint hreq =>
      subst hop
      simp only [RaftNode.NamesSender, hmsg] at hsender
      refine ⟨fun x hx => Or.inr ?_, fun hself => ?_⟩
      · obtain rfl := Option.some.inj (hhint.symm.trans hx)
        simp [hterm, ← hreq, hsender.1, Operation.heard, hmsg]
      · have hx : req.leaderId.asStr = w.node.nodeId :=
          (Option.some.inj (hhint.symm.trans hself)).trans hid
        rw [hsender.1] at hx
        exact absurd hx hsender.2
  | wins hhint hlead hout =>
      refine ⟨fun x hx => Or.inl (List.mem_append_left _ ?_), fun _ => hlead⟩
      obtain rfl := Option.some.inj (hhint.symm.trans hx)
      rw [hterm]
      exact List.mem_filterMap.mpr ⟨_, hout, rfl⟩

end Watch

/-- In every run of a node in any surroundings, also with writes that fail, with restarts and with
peers that come and go, the hint is sound if no rise of the term leaves an old one behind. -/
theorem hintSound_of_hintFresh {id : String} {peers : HashMap String PeerInfo} {log : RaftLog}
    {tr : List Watch}
    (hrun : Lib.Run Watch.step (Watch.start id peers log) Watch.HintFresh tr) :
    ∀ w ∈ tr, w.HintSound := by
  have hinv := hrun.invariant (I := Watch.Named) (.unnamed rfl) ?_
  · exact fun w hw => (hinv w hw).hintSound
  intro w o w' h hok hs
  cases o with
  | elsewhere x term =>
      obtain ⟨-, ⟨⟩⟩ := Option.ite_none_left_eq_some.mp hs
      exact ⟨fun y hy => (h.hint y hy).imp_left (List.mem_cons_of_mem _), h.self⟩
  | here happening =>
      cases happening with
      | operation op ws => exact h.operation hok hs
      | restart peers' =>
          -- A new start names nobody.
          obtain ⟨n, hn, rfl⟩ := Option.map_eq_some_iff.mp hs
          obtain ⟨log', -, rfl⟩ := Option.map_eq_some_iff.mp hn
          exact .unnamed rfl

/-- The state that node A, with peers B and C and an empty log, ends in. -/
def watchedFinal (ok : Watch → Occurrence → Prop) [∀ w o, Decidable (ok w o)]
    (os : List Occurrence) : Watch :=
  Lib.final Watch.step (Watch.start "A" bootedNode.peers bootedNode.log) ok os

/-- A hears B as leader of term 1. B becomes Leader of term 2 as well, and then its request for a
vote in term 2 arrives at A. -/
def leaderAgain : List Occurrence :=
  [.here (.receive "B" (.heartbeat "B" 1)), .elsewhere "B" 2,
    .here (.receive "B" (.requestVote ⟨2, .pushStr 64 "B", 0, 0⟩))]

theorem hintSound_of_hintFresh_leaderAgain :
    (watchedFinal Watch.HintFresh leaderAgain).node.leaderId = some "B" ∧
      (watchedFinal Watch.HintFresh leaderAgain).node.log.currentTerm = 2 ∧
      (watchedFinal Watch.HintFresh leaderAgain).HintSound :=
  ⟨by decide +kernel, by decide +kernel,
    hintSound_of_hintFresh (Lib.run_final (by decide +kernel)) _ List.mem_cons_self⟩

/-- No write fails, the node does not crash, and every request names its sender. -/
def Watch.Orderly (w : Watch) : Occurrence → Prop
  | .here (.operation op ws) => ws = [] ∧ w.node.NamesSender op
  | .here (.restart _) => False
  | .elsewhere _ _ => True

instance (w : Watch) (o : Occurrence) : Decidable (w.Orderly o) := by
  unfold Watch.Orderly
  exact match o with
    | .here (.operation _ _) => inferInstance
    | .here (.restart _) => inferInstance
    | .elsewhere _ _ => inferInstance

/-- A becomes Leader of term 1 with the vote of B, and C answers from term 2. -/
def deposed : List Occurrence :=
  [.here (.operation .startElection []), .here (.receive "B" (.grant "B" 1)),
    .here (.receive "C" (.appendEntriesResponse ⟨2, false, 0, .pushStr 64 "C"⟩))]

/-- The deposed leader is Follower in term 2, and sends its clients to itself. -/
theorem not_hintSound : ¬ ∀ (id : String) (peers : HashMap String PeerInfo) (log : RaftLog)
    (tr : List Watch), Lib.Run Watch.step (Watch.start id peers log) Watch.Orderly tr →
    ∀ w ∈ tr, w.HintSound := by
  intro h
  have hrun : Lib.Run Watch.step (Watch.start "A" bootedNode.peers bootedNode.log) Watch.Orderly
      (watchedFinal Watch.Orderly deposed :: _) :=
    Lib.run_final (by decide +kernel)
  refine (h _ _ _ _ hrun _ List.mem_cons_self).replies .noop 0 [] ?_
  decide +kernel

end RaftEbpf
