import RaftEbpf.Operations
import RaftEbpf.Proofs.Carried

/-!
# `RaftEbpf.Proofs.CommitRule`: the commit rule under membership changes

`peers` and `match_index` change in five places: an election, a success, a join, a leave and
the next election. Four of them keep the keys of `match_index` among the peers.
`handle_append_entries_response` inserts the sender, peer or not, and `become_leader` resets
the keys of present peers only.

* `commitsByRule_of_answersFromPeers`: where the successes that a Leader records come from
  current peers, it commits by the rule, in each state it reaches.
* `not_commitsByRule`: the answer of a peer that left commits an entry that no majority has.
-/

set_option autoImplicit false

namespace RaftEbpf.RaftNode

open RaftEbpf.Lib (HashMap Prog)

/-- A success that a Leader records comes from a current peer. -/
def AnswersFromPeers (n : RaftNode) : Operation → Prop
  | .handleMessage env =>
      match env.message with
      | .appendEntriesResponse resp => n.role = .leader → resp.term ≤ n.log.currentTerm →
          resp.success = true → env.sender.asStr ∈ n.peers
      | _ => True
  | _ => True

instance (n : RaftNode) (op : Operation) : Decidable (n.AnswersFromPeers op) := by
  unfold AnswersFromPeers
  exact match op with
    | .handleMessage ⟨_, _, message⟩ =>
        match message with
        | .appendEntries _ | .appendEntriesResponse _ | .requestVote _ | .requestVoteResponse _
        | .clientRequest _ | .clientResponse _ => inferInstance
    | .startElection | .sendHeartbeats | .propose _ _ | .addPeer _ _ | .removePeer _ | .getStatus
    | .getValue _ | .getMessages _ _ => inferInstance

namespace MatchesPeers
variable {n n' : RaftNode}

theorem same (h : n.MatchesPeers) (hpeers : n'.peers = n.peers)
    (hmatch : n'.matchIndex = n.matchIndex) : n'.MatchesPeers := by
  intro id hid
  rw [hmatch] at hid
  rw [hpeers]
  exact h id hid

theorem raiseTerm (h : n.MatchesPeers) (term : Nat) : (raiseTerm n term).MatchesPeers := by
  unfold RaftNode.raiseTerm
  split
  · exact h
  · exact h

theorem counted (h : n.MatchesPeers) (sender : String) : (counted n sender).MatchesPeers := by
  unfold RaftNode.counted
  split
  · exact h
  · exact h

/-- An election adds the present peers. -/
theorem leaderOf (h : n.MatchesPeers) : (leaderOf n).MatchesPeers := by
  intro id hid
  rw [← AList.lookup_isSome, RaftNode.leaderOf] at hid
  dsimp only at hid
  rw [HashMap.lookup_foldl_insert] at hid
  split at hid
  · rename_i hpeer
    exact AList.mem_keys.mp hpeer
  · exact h id (AList.lookup_isSome.mp hid)

/-- A success adds its sender. -/
theorem acknowledged (h : n.MatchesPeers) {sender : String} (hsender : sender ∈ n.peers)
    (last : Nat) : (acknowledged n sender last).MatchesPeers := by
  intro id hid
  rcases (AList.mem_insert _).mp hid with rfl | hid
  · exact hsender
  · exact h id hid

theorem backedOff (h : n.MatchesPeers) (sender : String) : (backedOff n sender).MatchesPeers := by
  unfold RaftNode.backedOff
  split
  · exact h
  · exact h

theorem joined (h : n.MatchesPeers) (id address : String) : (joined n id address).MatchesPeers := by
  intro p hp
  show p ∈ n.peers.insert id _
  rw [AList.mem_insert]
  -- Only a Leader inserts the new peer into `match_index`.
  rw [RaftNode.joined] at hp
  dsimp only at hp
  split at hp
  · exact ((AList.mem_insert _).mp hp).imp_right (h p)
  · exact Or.inr (h p hp)

theorem departed (h : n.MatchesPeers) (id : String) : (departed n id).MatchesPeers := by
  intro p hp
  obtain ⟨hne, hp⟩ := AList.mem_erase.mp hp
  exact AList.mem_erase.mpr ⟨hne, h p hp⟩

theorem tryAdvanceCommitIndex (h : n.MatchesPeers) :
    (tryAdvanceCommitIndex.run [] n).state.MatchesPeers := by
  rcases run_tryAdvanceCommitIndex [] n with ⟨hrun, -⟩ | ⟨k, n', out, -, -, hrun, hc⟩
  · rw [hrun]
    exact h
  · rw [hrun]
    exact h.same (by rw [hc.state]) (by rw [hc.state])

theorem handleAppendEntries (h : n.MatchesPeers) (sender : String) (req : AppendEntriesRequest) :
    ((handleAppendEntries sender req).run [] n).state.MatchesPeers := by
  rcases run_handleAppendEntries_cases n sender req with
    ⟨hold, hrun⟩ | ⟨hold, hm, hrun⟩ | ⟨hold, hm, n', out, hrun, ha⟩
  · rw [hrun]
    exact h
  · rw [hrun]
    exact (h.raiseTerm req.term).same rfl rfl
  · rw [hrun]
    exact (h.raiseTerm req.term).same (by rw [ha.state]; rfl) (by rw [ha.state]; rfl)

theorem handleAppendEntriesResponse (h : n.MatchesPeers) {sender : String}
    {resp : AppendEntriesResponse} (hsender : n.role = .leader → resp.term ≤ n.log.currentTerm →
      resp.success = true → sender ∈ n.peers) :
    ((handleAppendEntriesResponse sender resp).run [] n).state.MatchesPeers := by
  rw [run_handleAppendEntriesResponse]
  split
  · exact h
  · rename_i hrole
    split
    · exact h.raiseTerm resp.term
    · rename_i hterm
      split
      · rename_i hsuccess
        exact (h.acknowledged (hsender (not_not.mp hrole) (Nat.not_lt.mp hterm) hsuccess)
          _).tryAdvanceCommitIndex
      · exact h.backedOff sender

theorem handleRequestVote (h : n.MatchesPeers) (sender : String) (req : RequestVoteRequest) :
    ((handleRequestVote sender req).run [] n).state.MatchesPeers := by
  rw [run_handleRequestVote]
  split
  · exact h
  · split
    · exact (h.raiseTerm req.term).same rfl rfl
    · exact h.raiseTerm req.term

theorem handleRequestVoteResponse (h : n.MatchesPeers) (sender : String)
    (resp : RequestVoteResponse) :
    ((handleRequestVoteResponse sender resp).run [] n).state.MatchesPeers := by
  rw [run_handleRequestVoteResponse]
  split
  · exact h
  · split
    · exact h.raiseTerm resp.term
    · split
      · split
        · exact (h.counted sender).leaderOf
        · exact h.counted sender
      · exact h

/-- Each operation that records no success of another node keeps the keys of `match_index`
among the peers. -/
theorem task (h : n.MatchesPeers) {op : Operation} (hop : n.AnswersFromPeers op) :
    (op.task.run [] n).state.MatchesPeers := by
  cases op with
  | handleMessage env =>
      unfold AnswersFromPeers at hop
      unfold Operation.task handleMessage
      dsimp only at hop ⊢
      cases hmsg : env.message with
      | appendEntries req => exact h.handleAppendEntries _ req
      | appendEntriesResponse resp =>
          rw [hmsg] at hop
          exact h.handleAppendEntriesResponse hop
      | requestVote req => exact h.handleRequestVote _ req
      | requestVoteResponse resp => exact h.handleRequestVoteResponse _ resp
      | clientRequest req => exact h
      | clientResponse resp => exact h
  | startElection =>
      rw [Operation.task, run_startElection]
      split
      · exact leaderOf (n := candidateOf n) h
      · exact h
  | sendHeartbeats =>
      rw [Operation.task, run_sendHeartbeats]
      exact h
  | propose command tx =>
      rw [Operation.task, run_propose]
      split
      · exact h
      · exact h
  | addPeer id address =>
      rw [Operation.task, run_addPeer]
      exact h.joined id address
  | removePeer id =>
      rw [Operation.task, run_removePeer]
      exact h.departed id
  | getStatus => exact h
  | getValue key => exact h
  | getMessages limit sinceIndex => exact h

end MatchesPeers

/-- A Leader commits by the rule in each state it reaches from a data directory, and when it
handles the success of a current peer, if all successes it recorded came from current peers.
-/
theorem commitsByRule_of_answersFromPeers {nodeId : String} {peers : HashMap String PeerInfo}
    {dir : DataDir} {n₀ : RaftNode} (hnew : RaftNode.new nodeId peers dir = some n₀)
    {tr : List RaftNode} (hrun : Lib.Run perform n₀ AnswersFromPeers tr) :
    ∀ n ∈ tr, n.role = .leader → n.commitIndex < u64Max →
      n.CommitsByRule ∧ ∀ sender ∈ n.peers, ∀ last, (acknowledged n sender last).CommitsByRule := by
  have hinit : n₀.MatchesPeers := by
    obtain ⟨log, -, rfl⟩ := Option.map_eq_some_iff.mp hnew
    exact fun id hid => absurd hid (AList.notMem_empty id)
  have hinv := hrun.invariant (I := MatchesPeers) hinit fun n op n' hn hop hstep => by
    obtain rfl := Option.some.inj hstep
    exact hn.task hop
  intro n hn hrole hshort
  have hmatch := hinv n hn
  exact ⟨hmatch.commitsByRule hrole hshort, fun sender hsender last =>
    (hmatch.acknowledged hsender last).commitsByRule hrole hshort⟩

/-- A vote for A in term 1. -/
def voteFrom (sender : String) : Operation :=
  .handleMessage (.new sender "A" (.requestVoteResponse ⟨1, true, .pushStr 64 sender⟩))

/-- An answer to A in term 1, from a node with this last index. -/
def successFrom (sender : String) (last : Nat) : Operation :=
  .handleMessage (.new sender "A" (.appendEntriesResponse ⟨1, true, last, .pushStr 64 sender⟩))

/-- Node A on an empty data directory, with these peers. -/
def nodeA (peers : List String) : RaftNode :=
  .withLog "A" (peerMap (peers.map fun p => (p, p))) (.unloaded .empty)

theorem new_nodeA (peers : List String) :
    RaftNode.new "A" (peerMap (peers.map fun p => (p, p))) .empty = some (nodeA peers) := rfl

/-- B elects A, A appends an entry, D joins and has the entry, C leaves, and B has the entry. -/
def joinAndLeave : List Operation :=
  [.startElection, voteFrom "B", .propose .noop 0, .addPeer "D" "d", successFrom "D" 1,
    .removePeer "C", successFrom "B" 1]

theorem commitsByRule_of_answersFromPeers_joinAndLeave :
    let n := Lib.final perform (nodeA ["B", "C"]) AnswersFromPeers joinAndLeave
    n.commitIndex = 1 ∧ n.CommitsByRule ∧
      ∀ sender ∈ n.peers, ∀ last, (acknowledged n sender last).CommitsByRule :=
  ⟨by decide +kernel,
    commitsByRule_of_answersFromPeers (new_nodeA ["B", "C"])
      (Lib.run_final (by decide +kernel)) _ List.mem_cons_self (by decide +kernel)
      (by decide +kernel)⟩

/-- A, elected by B, appends an entry. D leaves and its answer arrives, then E leaves. -/
def answerAfterLeave : List Operation :=
  [.startElection, voteFrom "B", .propose .noop 0, .removePeer "D", successFrom "D" 1,
    .removePeer "E"]

/-- The scan counts D, which is not a peer any more, and commits an entry that only A holds
of A, B and C. -/
theorem not_commitsByRule : ¬ ∀ (nodeId : String) (peers : HashMap String PeerInfo)
    (dir : DataDir) (n₀ : RaftNode), RaftNode.new nodeId peers dir = some n₀ →
    ∀ tr : List RaftNode, Lib.Run perform n₀ (fun _ _ => True) tr →
      ∀ n ∈ tr, n.role = .leader → n.commitIndex < u64Max → n.CommitsByRule := by
  intro h
  have hrun : Lib.Run perform (nodeA ["B", "C", "D", "E"]) (fun _ _ => True)
      (Lib.final perform (nodeA ["B", "C", "D", "E"]) (fun _ _ => True) answerAfterLeave ::
        (Lib.trace perform (nodeA ["B", "C", "D", "E"]) (fun _ _ => True) answerAfterLeave).tail) :=
    Lib.run_final (by decide +kernel)
  have hrule := h _ _ _ _ (new_nodeA ["B", "C", "D", "E"]) _ hrun _ List.mem_cons_self
    (by decide +kernel) (by decide +kernel)
  have hlast : (Lib.final perform (nodeA ["B", "C", "D", "E"]) (fun _ _ => True)
      answerAfterLeave).log.lastIndex = 1 := by decide +kernel
  -- The log ends at index 1, which neither B nor C has.
  have hkept := hrule.2 fun k hk => by
    obtain rfl : k = 1 := by
      have habove := hk.above
      have hle := hk.le_lastIndex
      omega
    revert hk
    decide +kernel
  revert hkept
  decide +kernel

end RaftEbpf.RaftNode
