import RaftEbpf.Proofs.CommitRule

/-!
# `RaftEbpf.Proofs.CommitClosed`: a leader does not sit on an entry that is carried

Only `handle_append_entries_response` calls `try_advance_commit_index`. Two other operations
can make an entry carried: `propose`, where a majority needs no answer, and `remove_peer`,
which makes the majority smaller. A node that is elected without peers is a majority too, but
an entry of its new term is not in a log that went through the same terms.

* `closed_task_iff`: each operation leaves a Leader without such an entry exactly if
  `Restores` holds before it.
* `leaderClosed_iff`: so does each operation of a run exactly if each meets the condition.
* `not_leaderClosed`: the proposal of a single node is never committed.
-/

set_option autoImplicit false

namespace RaftEbpf.RaftNode

open RaftEbpf.Lib (HashMap)

/-- An entry of this term is above `commit_index` at `k`. -/
def Uncommitted (n : RaftNode) (term k : Nat) : Prop :=
  n.commitIndex < k ∧ k ≤ n.log.lastIndex ∧ n.log.termAt k = some term

/-- The operation leaves nothing carried behind, if nothing was before it.

* The index that a Leader's proposal gets is not held by a majority already.
* The peer that leaves is not one of an odd number, half of the others holding an entry.
* A node that becomes leader without peers has no entry of its term. -/
def Restores (n : RaftNode) : Operation → Prop
  | .propose _ _ => n.role = .leader → n.commitIndex < addOne n.log.lastIndex →
      1 + (n.holders (addOne n.log.lastIndex)).length < majority n.peers
  | .removePeer id => n.role = .leader → id ∈ n.peers → n.peers.keys.length % 2 = 1 →
      ∀ k, n.Uncommitted n.log.currentTerm k →
        ((n.holders k).erase id).length ≠ n.peers.keys.length / 2
  | .startElection => n.peers.keys = [] → ∀ k, ¬ n.Uncommitted (addOne n.log.currentTerm) k
  | .handleMessage env =>
      match env.message with
      | .requestVoteResponse resp => n.role = .candidate → resp.term ≤ n.log.currentTerm →
          resp.voteGranted = true → n.peers.keys = [] →
          ∀ k, ¬ n.Uncommitted n.log.currentTerm k
      | _ => True
  | _ => True

/-- The operation is no `AppendEntries` request that a Leader gets from another leader of its
own term. -/
def NoRival (n : RaftNode) : Operation → Prop
  | .handleMessage env =>
      match env.message with
      | .appendEntries req => n.role = .leader → req.term ≠ n.log.currentTerm
      | _ => True
  | _ => True

instance (n : RaftNode) (op : Operation) : Decidable (n.NoRival op) := by
  unfold NoRival
  exact match op with
    | .handleMessage ⟨_, _, message⟩ =>
        match message with
        | .appendEntries _ | .appendEntriesResponse _ | .requestVote _ | .requestVoteResponse _
        | .clientRequest _ | .clientResponse _ => inferInstance
    | .startElection | .sendHeartbeats | .propose _ _ | .addPeer _ _ | .removePeer _ | .getStatus
    | .getValue _ | .getMessages _ _ => inferInstance

variable {n n' : RaftNode}

theorem carried_iff_uncommitted {k : Nat} : n.Carried k ↔
    n.Uncommitted n.log.currentTerm k ∧ majority n.peers ≤ 1 + (n.holders k).length :=
  ⟨fun h => ⟨⟨h.above, h.le_lastIndex, h.termAt⟩, h.held⟩,
    fun h => ⟨h.1.1, h.1.2.1, h.1.2.2, h.2⟩⟩

/-- A node that is not Leader has nothing to close. -/
theorem Closed.of_role (h : n.role ≠ .leader) : n.Closed := fun hr => absurd hr h

namespace Closed

theorem raiseTerm (h : n.Closed) (term : Nat) : (raiseTerm n term).Closed := by
  unfold RaftNode.raiseTerm
  split
  · exact .of_role nofun
  · exact h

/-- A vote changes nothing that is carried. -/
theorem voted (h : n.Closed) (req : RequestVoteRequest) : (voted n req).Closed :=
  fun hr k hk => h.raiseTerm req.term hr k ⟨hk.above, hk.le_lastIndex, hk.termAt, hk.held⟩

theorem backedOff (h : n.Closed) (sender : String) : (backedOff n sender).Closed := by
  unfold RaftNode.backedOff
  split
  · exact fun hr k hk => h hr k ⟨hk.above, hk.le_lastIndex, hk.termAt, hk.held⟩
  · exact h

end Closed

/-- The new leader's peers start from 0, so only a node without peers carries anything. -/
theorem closed_leaderOf_iff : (leaderOf n).Closed ↔
    (n.peers.keys = [] → ∀ k, ¬ n.Uncommitted n.log.currentTerm k) := by
  constructor
  · intro h hnone k hk
    refine h rfl k (carried_iff_uncommitted.mpr ⟨hk, ?_⟩)
    show (n.peers.keys.length + 1) / 2 + 1 ≤ _
    rw [hnone]
    simp
  · intro h _ k hk
    obtain ⟨hun, hheld⟩ := carried_iff_uncommitted.mp hk
    have hpeers : n.peers.keys ≠ [] := fun hnone => h hnone k hun
    -- A peer that was reset to 0 does not reach an index above `commit_index`.
    have hempty : (leaderOf n).holders k = [] := by
      refine List.eq_nil_iff_forall_not_mem.mpr fun p hp => ?_
      obtain ⟨hpeer, idx, hidx, hle⟩ := mem_holders.mp hp
      rw [leaderOf] at hidx
      dsimp only at hidx
      have hpeer' : p ∈ n.peers.keys := AList.mem_keys.mp hpeer
      rw [HashMap.lookup_foldl_insert, if_pos hpeer'] at hidx
      have := Option.some.inj hidx
      have := hun.1
      omega
    have hone : 1 ≤ n.peers.keys.length := List.length_pos_iff.mpr hpeers
    rw [hempty] at hheld
    change (n.peers.keys.length + 1) / 2 + 1 ≤ 1 at hheld
    omega

/-- A proposal of a Leader adds one entry, and that entry is carried or nothing is. -/
theorem closed_append_iff {command : Command} {tx : Sender} (h : n.Closed)
    (hrole : n.role = .leader) :
    Closed { n with
      log := (n.log.append n.log.currentTerm command).1
      pendingRequests := n.pendingRequests.insert (n.log.append n.log.currentTerm command).2 tx } ↔
      (n.commitIndex < addOne n.log.lastIndex →
        1 + (n.holders (addOne n.log.lastIndex)).length < majority n.peers) := by
  constructor
  · intro hc habove
    by_contra hheld
    refine hc hrole (addOne n.log.lastIndex) ⟨habove, le_rfl, ?_, Nat.not_lt.mp hheld⟩
    simp [RaftLog.append, RaftLog.termAt, RaftLog.get, RaftLog.currentTerm]
  · intro hfew _ k hk
    have hlast : k ≤ addOne n.log.lastIndex := hk.le_lastIndex
    by_cases hnew : k = addOne n.log.lastIndex
    · subst hnew
      exact absurd hk.held (Nat.not_le.mpr (hfew hk.above))
    · -- An index below the new one was there before, as the index did not wrap.
      have hle : k ≤ n.log.lastIndex := by
        have := Nat.mod_le (n.log.lastIndex + 1) (2 ^ 64)
        unfold addOne at hlast hnew
        omega
      have hterm : n.log.termAt k = some n.log.currentTerm := by
        have := hk.termAt
        simp only [RaftLog.append, RaftLog.termAt, RaftLog.get, AList.lookup_insert_ne hnew] at this
        exact this
      exact h hrole k ⟨hk.above, hle, hterm, hk.held⟩

/-- A peer that joins makes the majority no smaller, and starts from 0. -/
theorem Closed.joined (h : n.Closed) (id address : String) : (joined n id address).Closed := by
  intro hrole k hk
  change n.role = .leader at hrole
  obtain ⟨hun, hheld⟩ := carried_iff_uncommitted.mp hk
  have hmatch : (RaftNode.joined n id address).matchIndex = n.matchIndex.insert id 0 := if_pos hrole
  have hholders : ((RaftNode.joined n id address).holders k).length ≤ (n.holders k).length := by
    refine (nodup_holders _ k).length_le_of_subset fun p hp => ?_
    obtain ⟨hpeer, idx, hidx, hle⟩ := mem_holders.mp hp
    rw [hmatch] at hidx
    have hpos : 0 < k := Nat.zero_lt_of_lt hun.1
    have hne : p ≠ id := by
      rintro rfl
      rw [AList.lookup_insert] at hidx
      have := Option.some.inj hidx
      omega
    rw [AList.lookup_insert_ne hne] at hidx
    exact mem_holders.mpr ⟨((AList.mem_insert _).mp hpeer).resolve_left hne, idx, hidx, hle⟩
  have hlength : n.peers.keys.length ≤ (RaftNode.joined n id address).peers.keys.length := by
    refine n.peers.keys_nodup.length_le_of_subset fun p hp => ?_
    exact AList.mem_keys.mp ((AList.mem_insert _).mpr (Or.inr (AList.mem_keys.mpr hp)))
  have hmajority : majority n.peers ≤ majority (RaftNode.joined n id address).peers :=
    Nat.add_le_add_right (Nat.div_le_div_right (Nat.add_le_add_right hlength 1)) 1
  exact h hrole k (carried_iff_uncommitted.mpr ⟨hun, by omega⟩)

/-- Without a peer the others hold what they held. -/
theorem holders_departed (id : String) (k : Nat) :
    ((departed n id).holders k).length = ((n.holders k).erase id).length := by
  refine List.Perm.length_eq ((List.perm_ext_iff_of_nodup (nodup_holders _ k)
    ((nodup_holders n k).erase id)).mpr fun p => ?_)
  rw [(nodup_holders n k).mem_erase_iff, mem_holders, mem_holders]
  constructor
  · rintro ⟨hpeer, idx, hidx, hle⟩
    obtain ⟨hne, hpeer⟩ := AList.mem_erase.mp hpeer
    refine ⟨hne, hpeer, idx, ?_, hle⟩
    rwa [departed, AList.lookup_erase_ne hne] at hidx
  · rintro ⟨hne, hpeer, idx, hidx, hle⟩
    refine ⟨AList.mem_erase.mpr ⟨hne, hpeer⟩, idx, ?_, hle⟩
    rwa [departed, AList.lookup_erase_ne hne]

/-- The majority gets smaller only where one of an odd number of peers leaves, and then half of
the others are one. -/
theorem closed_departed_iff {id : String} (h : n.Closed) (hrole : n.role = .leader) :
    (departed n id).Closed ↔ (id ∈ n.peers → n.peers.keys.length % 2 = 1 →
      ∀ k, n.Uncommitted n.log.currentTerm k →
        ((n.holders k).erase id).length ≠ n.peers.keys.length / 2) := by
  have hmajority :
      majority (departed n id).peers = ((n.peers.keys.erase id).length + 1) / 2 + 1 := by
    rw [majority, departed, AList.keys_erase]
  constructor
  · intro hc hid hodd k hun heq
    refine hc hrole k (carried_iff_uncommitted.mpr ⟨hun, ?_⟩)
    rw [hmajority, holders_departed, heq, List.length_erase_of_mem (AList.mem_keys.mp hid)]
    omega
  · intro hcond _ k hk
    obtain ⟨hun, hheld⟩ := carried_iff_uncommitted.mp hk
    rw [hmajority, holders_departed] at hheld
    have hbefore : 1 + (n.holders k).length < (n.peers.keys.length + 1) / 2 + 1 :=
      Nat.not_le.mp fun hge => h hrole k (carried_iff_uncommitted.mpr ⟨hun, hge⟩)
    have hfewer : ((n.holders k).erase id).length ≤ (n.holders k).length := List.length_erase_le
    by_cases hid : id ∈ n.peers
    · rw [List.length_erase_of_mem (AList.mem_keys.mp hid)] at hheld
      have hhalf := fun hodd => hcond hid hodd k hun
      omega
    · rw [List.erase_of_not_mem fun hmem => hid (AList.mem_keys.mpr hmem)] at hheld
      omega

/-! ### The operations -/

/-- A request that a node accepts makes it a Follower, or finds it one, unless it is Leader in
the term of the request. -/
theorem Closed.handleAppendEntries (h : n.Closed) (sender : String) {req : AppendEntriesRequest}
    (hrival : n.role = .leader → req.term ≠ n.log.currentTerm) :
    ((handleAppendEntries sender req).run [] n).state.Closed := by
  have hrole (hold : ¬ req.term < n.log.currentTerm) :
      (RaftNode.raiseTerm n req.term).role ≠ .leader := by
    unfold RaftNode.raiseTerm
    split
    · nofun
    · exact fun hr => hrival hr (by omega)
  rcases run_handleAppendEntries_cases n sender req with
    ⟨hold, hrun⟩ | ⟨hold, hm, hrun⟩ | ⟨hold, hm, n', out, hrun, ha⟩
  · rw [hrun]
    exact h
  · rw [hrun]
    exact .of_role (hrole hold)
  · rw [hrun]
    refine .of_role ?_
    change n'.role ≠ .leader
    rw [ha.state]
    exact hrole hold

theorem Closed.handleAppendEntriesResponse (h : n.Closed) (sender : String)
    (resp : AppendEntriesResponse) :
    ((handleAppendEntriesResponse sender resp).run [] n).state.Closed := by
  rw [run_handleAppendEntriesResponse]
  split
  · exact h
  · split
    · exact h.raiseTerm resp.term
    · split
      · exact closed_tryAdvanceCommitIndex _
      · exact h.backedOff sender

theorem Closed.handleRequestVote (h : n.Closed) (sender : String) (req : RequestVoteRequest) :
    ((handleRequestVote sender req).run [] n).state.Closed := by
  rw [run_handleRequestVote]
  split
  · exact h
  · split
    · exact h.voted req
    · exact h.raiseTerm req.term

theorem closed_handleRequestVoteResponse_iff (h : n.Closed) (sender : String)
    (resp : RequestVoteResponse) :
    ((handleRequestVoteResponse sender resp).run [] n).state.Closed ↔
      (n.role = .candidate → resp.term ≤ n.log.currentTerm → resp.voteGranted = true →
        n.peers.keys = [] → ∀ k, ¬ n.Uncommitted n.log.currentTerm k) := by
  rw [run_handleRequestVoteResponse]
  split
  · rename_i hrole
    exact iff_of_true h fun hr => absurd hr hrole
  · rename_i hrole
    have hr : n.role = .candidate := not_not.mp hrole
    split
    · rename_i hterm
      exact iff_of_true (h.raiseTerm resp.term) fun _ hle => absurd hle (Nat.not_le.mpr hterm)
    · rename_i hterm
      split
      · rename_i hgrant
        rw [forall_prop_of_true hr, forall_prop_of_true (Nat.not_lt.mp hterm),
          forall_prop_of_true hgrant]
        split
        · -- Counting the vote moves neither the peers nor the log.
          rw [closed_leaderOf_iff]
          unfold counted
          split
          · exact Iff.rfl
          · exact Iff.rfl
        · rename_i hreach
          refine iff_of_true (.of_role ?_) fun hnone => absurd ?_ hreach
          · unfold counted
            split
            · simp [hr]
            · simp [hr]
          · -- One vote is a majority of one.
            have hpeers : (counted n sender).peers = n.peers := by
              unfold counted
              split <;> rfl
            rw [ReachesThreshold, hpeers, majority, hnone]
            exact Nat.le_add_left _ _
      · rename_i hgrant
        exact iff_of_true h fun _ _ hg => absurd hg hgrant

/-- One operation. -/
theorem closed_task_iff (h : n.Closed) {op : Operation} (hop : n.NoRival op) :
    (op.task.run [] n).state.Closed ↔ n.Restores op := by
  cases op with
  | handleMessage env =>
      unfold NoRival at hop
      unfold Operation.task handleMessage Restores
      dsimp only at hop ⊢
      cases hmsg : env.message with
      | appendEntries req =>
          rw [hmsg] at hop
          exact iff_of_true (h.handleAppendEntries _ hop) trivial
      | appendEntriesResponse resp =>
          exact iff_of_true (h.handleAppendEntriesResponse _ resp) trivial
      | requestVote req => exact iff_of_true (h.handleRequestVote _ req) trivial
      | requestVoteResponse resp => exact closed_handleRequestVoteResponse_iff h _ resp
      | clientRequest req => exact iff_of_true h trivial
      | clientResponse resp => exact iff_of_true h trivial
  | startElection =>
      rw [Operation.task, run_startElection, Restores]
      split
      · rename_i hpeers
        exact closed_leaderOf_iff
      · rename_i hpeers
        have hcandidate : (candidateOf n).role ≠ .leader := by
          show NodeRole.candidate ≠ .leader
          decide
        exact iff_of_true (.of_role hcandidate) fun hnone => absurd hnone hpeers
  | sendHeartbeats =>
      rw [Operation.task, run_sendHeartbeats]
      exact iff_of_true h trivial
  | propose command tx =>
      rw [Operation.task, run_propose, Restores]
      split
      · rename_i hrole
        rw [closed_append_iff h hrole, forall_prop_of_true hrole]
      · rename_i hrole
        exact iff_of_true h fun hr => absurd hr hrole
  | addPeer id address =>
      rw [Operation.task, run_addPeer]
      exact iff_of_true (h.joined id address) trivial
  | removePeer id =>
      rw [Operation.task, run_removePeer, Restores]
      by_cases hrole : n.role = .leader
      · rw [closed_departed_iff h hrole, forall_prop_of_true hrole]
      · exact iff_of_true (.of_role hrole) fun hr => absurd hr hrole
  | getStatus => exact iff_of_true h trivial
  | getValue key => exact iff_of_true h trivial
  | getMessages limit sinceIndex => exact iff_of_true h trivial

/-- In every run of a node from a data directory, each operation leaves no Leader on an entry
that a majority of it and its peers hold exactly if each meets the condition. -/
theorem leaderClosed_iff {nodeId : String} {peers : HashMap String PeerInfo} {dir : DataDir}
    {n₀ : RaftNode} (hnew : RaftNode.new nodeId peers dir = some n₀)
    {tr : List (RaftNode × List (RaftNode × Operation × RaftNode))}
    (hrun : Lib.Run (Lib.recorded perform) (n₀, []) (fun s op => s.1.NoRival op) tr) :
    ∀ s ∈ tr, (∀ x ∈ s.2, x.2.2.Closed) ↔ ∀ x ∈ s.2, x.1.Restores x.2.1 := by
  have hinit : n₀.Closed := by
    obtain ⟨log, -, rfl⟩ := Option.map_eq_some_iff.mp hnew
    exact .of_role nofun
  refine hrun.recorded_iff (Q := Restores) hinit fun n op n' hn hop hstep => ?_
  obtain rfl := Option.some.inj hstep
  exact closed_task_iff hn hop

/-- The node after `joinAndLeave`, with a record of the steps. -/
def joinAndLeaveFinal : RaftNode × List (RaftNode × Operation × RaftNode) :=
  Lib.final (Lib.recorded perform) (nodeA ["B", "C"], []) (fun s op => s.1.NoRival op)
    joinAndLeave

theorem leaderClosed_iff_joinAndLeave : joinAndLeaveFinal.1.role = .leader ∧
    ((∀ x ∈ joinAndLeaveFinal.2, x.2.2.Closed) ↔ ∀ x ∈ joinAndLeaveFinal.2, x.1.Restores x.2.1) :=
  ⟨by decide +kernel,
    leaderClosed_iff (new_nodeA ["B", "C"]) (Lib.run_final (by decide +kernel)) _
      List.mem_cons_self⟩

/-- A node without peers elects itself and gets a proposal. -/
def proposalOfOne : List Operation := [.startElection, .propose .noop 0]

/-- The proposal of a single node is held by all of the cluster, and is not committed. -/
theorem not_leaderClosed : ¬ ∀ (nodeId : String) (peers : HashMap String PeerInfo)
    (dir : DataDir) (n₀ : RaftNode), RaftNode.new nodeId peers dir = some n₀ →
    ∀ tr : List RaftNode, Lib.Run perform n₀ NoRival tr → ∀ n ∈ tr, n.Closed := by
  intro h
  have hrun : Lib.Run perform (nodeA []) NoRival
      (Lib.final perform (nodeA []) NoRival proposalOfOne ::
        (Lib.trace perform (nodeA []) NoRival proposalOfOne).tail) :=
    Lib.run_final (by decide +kernel)
  have hclosed := h _ _ _ _ (new_nodeA []) _ hrun _ List.mem_cons_self (by decide +kernel) 1
  revert hclosed
  decide +kernel

end RaftEbpf.RaftNode
