import RaftEbpf.Proofs.Simulation

/-!
# `RaftEbpf.Proofs.Refinement`: each handler is a number of protocol steps

One theorem for each handler and timer action: from a node related to the protocol's state,
the run of the handler alone `Refines` it. `simulates` puts them together for one message.
-/

set_option autoImplicit false

namespace RaftEbpf

open RaftEbpf.Lib (HashMap Prog Majority)
open RaftEbpf.Lib.Replication
open RaftNode

/-! ### Members and peers -/

section Members
variable {m : Membership}

theorem mem_peerMap (peers : List (String × String)) (p : String) :
    p ∈ (peerMap peers).keys ↔ p ∈ peers.map Prod.fst := by
  have hfold : ∀ (l : List (String × String)) (start : HashMap String PeerInfo),
      p ∈ l.foldl (fun map q => map.insert q.1 (PeerInfo.new q.1 q.2)) start ↔
        p ∈ l.map Prod.fst ∨ p ∈ start := by
    intro l
    induction l with
    | nil => intro start; simp
    | cons q l ih =>
        intro start
        rw [List.foldl_cons, ih, AList.mem_insert, List.map_cons, List.mem_cons]
        tauto
  rw [AList.mem_keys.symm, peerMap, hfold]
  simp

/-- The peers of a member are the other members. -/
theorem mem_peersOf (id p : String) : p ∈ (m.peersOf id).keys ↔ p ∈ m.ids ∧ p ≠ id := by
  rw [Membership.peersOf, mem_peerMap]
  simp

/-- A member and its peers are all members, each once. -/
theorem peersOf_perm {id : String} (hid : id ∈ m.ids) :
    (id :: (m.peersOf id).keys).Perm m.ids := by
  have hnd : (id :: (m.peersOf id).keys).Nodup :=
    List.nodup_cons.mpr ⟨fun h => ((mem_peersOf id id).mp h).2 rfl, AList.keys_nodup _⟩
  rw [List.perm_ext_iff_of_nodup hnd m.nodup]
  intro p
  rw [List.mem_cons, mem_peersOf]
  constructor
  · rintro (rfl | ⟨h, -⟩)
    · exact hid
    · exact h
  · intro h
    by_cases hp : p = id
    · exact Or.inl hp
    · exact Or.inr ⟨h, hp⟩

/-- `total_nodes / 2 + 1` counts the members. -/
theorem majority_peersOf {id : String} (hid : id ∈ m.ids) :
    majority (m.peersOf id) = m.ids.length / 2 + 1 := by
  rw [majority, ← (peersOf_perm hid).length_eq, List.length_cons]

/-- The id of a member survives its copy into 64 bytes. -/
theorem asStr_member {id : String} (hid : id ∈ m.ids) :
    (HeaplessString.pushStr 64 id).asStr = id :=
  HeaplessString.asStr_pushStr (m.fits id hid)

end Members

/-! ### Small facts about related nodes -/

section Facts
variable {m : Membership} {f : Tracks} {s : Past} {id : String} {n : RaftNode}

theorem RaftLog.Holds.lastTerm {log : RaftLog} {l : List LogEntry} (h : log.Holds l) :
    log.lastTerm = Lib.Replication.lastTerm l := by
  rw [RaftLog.lastTerm, h.lastIndex, Lib.Replication.lastTerm, List.getLast?_eq_getElem?, h.get]
  by_cases hl : l.length = 0
  · have hnil : l = [] := List.eq_nil_of_length_eq_zero hl
    simp [hnil]
  · rw [if_neg hl]
    rfl

/-- Entries of an anchored log have a positive term. -/
theorem term_pos (hinv : Inv s) {l : List LogEntry} (hl : Anchored s l) {i : Nat} {e : LogEntry}
    (he : l[i]? = some e) : 0 < e.term := by
  obtain ⟨hlt, rfl⟩ := List.getElem?_eq_some_iff.mp he
  have hpre : l.take i ++ [l[i]] <+: l := by
    rw [← List.take_succ_eq_append_getElem hlt]
    exact List.take_prefix _ _
  obtain ⟨w, hw⟩ := Option.ne_none_iff_exists'.mp (hl _ _ hpre).1
  exact (hinv.reached hw).1

/-- Log matching, by index. -/
theorem take_eq_take {l l' : List LogEntry} (hl : Anchored s l) (hl' : Anchored s l') {i : Nat}
    {e e' : LogEntry} (he : l[i]? = some e) (he' : l'[i]? = some e') (hterm : e.term = e'.term) :
    l.take (i + 1) = l'.take (i + 1) := by
  obtain ⟨hlt, rfl⟩ := List.getElem?_eq_some_iff.mp he
  obtain ⟨hlt', rfl⟩ := List.getElem?_eq_some_iff.mp he'
  rw [List.take_succ_eq_append_getElem hlt, List.take_succ_eq_append_getElem hlt']
  have hp : l.take i ++ [l[i]] <+: l := by
    rw [← List.take_succ_eq_append_getElem hlt]
    exact List.take_prefix _ _
  have hp' : l'.take i ++ [l'[i]] <+: l' := by
    rw [← List.take_succ_eq_append_getElem hlt']
    exact List.take_prefix _ _
  obtain ⟨h1, h2⟩ := hl.matching hl' hp hp'
    (by rw [List.length_take, List.length_take]; omega) hterm
  rw [h1, h2]

/-- What a node has committed and finds in its log, it may apply. -/
theorem CommittedIn.applied {t c i : Nat} {l : List LogEntry} {e : LogEntry}
    (h : CommittedIn m s t l c) (hi : 0 < i) (hic : i ≤ c) (he : l[i - 1]? = some e) :
    AppliedRel m s i e := by
  rcases h with rfl | ⟨u, P, hP, -, hlen, hpre⟩
  · omega
  · refine ⟨hi, u, P, hP, ?_⟩
    have hget := List.prefix_iff_getElem?.mp hpre (i - 1) (by rw [List.length_take]; omega)
    rw [he] at hget
    rw [List.getElem?_eq_getElem (by omega), Option.some.inj hget, List.getElem_take]

theorem NodeRel.leads_log (h : NodeRel m f s id n) (hinv : Inv s) (hr : n.role = .leader) :
    s.log id = s.llog (s.term id) := hinv.leads _ id (h.leader hr) rfl

end Facts

/-! ### What a handler finds, and what it leaves -/

/-- What the cluster gives a handler of node `id` to start from. -/
structure Setting (m : Membership) (f : Tracks) (s : Past) (id : String) : Prop where
  inv : Inv s
  ackInv : AckInv s
  quorate : f.votes → Quorate m.ids s
  commits_votes : f.commits → f.votes
  commits_acks : f.commits → f.acks
  member : id ∈ m.ids

/-- What a message that node `id` addresses to `p` says of the protocol's past. -/
def MessageRel (m : Membership) (f : Tracks) (s : Past) (id p : String)
    (cause : Option RaftMessage) (n : RaftNode) : RaftMessage → Prop
  | .appendEntries req => AppendRel m f s id n req
  | .appendEntriesResponse resp => AckRel s id cause n resp
  | .requestVote req => VoteRequestRel s id req
  | .requestVoteResponse resp => resp.voteGranted = true → s.vote id resp.term = some p
  | .clientRequest _ => True
  | .clientResponse _ => True

section Setting
variable {m : Membership} {f : Tracks} {s s' : Past} {id : String} {n : RaftNode}
  {cause : Option RaftMessage}

/-- Steps that elect no leader keep all of it. -/
theorem Setting.steps (hs : Setting m f s id) (hsteps : Steps id s s')
    (hlead : s'.leader = s.leader) (hvoters : s'.voters = s.voters) : Setting m f s' id :=
  { hs with
    inv := Steps.inv hsteps hs.inv
    ackInv := Steps.ackInv hsteps hs.inv hs.ackInv
    quorate := fun hv => by
      rw [Quorate, hlead, hvoters]
      exact hs.quorate hv }

theorem Setting.reached {t : Nat} (hs : Setting m f s id) (h : Reached id t s s') :
    Setting m f s' id := hs.steps h.steps h.leader h.voters

/-- What a node knows to be committed it still knows after a step. -/
theorem Setting.commit (hs : Setting m f s id) (hstep : Step id s s') {c : Nat}
    (h : f.commits → CommittedIn m s (s.term id) (s.log id) c) (hc : f.commits) :
    CommittedIn m s' (s'.term id) (s'.log id) c :=
  hstep.committedAt hs.inv hs.ackInv (hs.quorate (hs.commits_votes hc)) (h hc)

/-- The relation reads six fields of the node. -/
theorem NodeRel.same (h : NodeRel m f s id n) {n' : RaftNode} (hid : n'.nodeId = n.nodeId)
    (hpeers : n'.peers = n.peers) (hlog : n'.log = n.log) (hrole : n'.role = n.role)
    (hmatch : n'.matchIndex = n.matchIndex) (hcommit : n'.commitIndex = n.commitIndex) :
    NodeRel m f s id n' where
  nodeId := hid.trans h.nodeId
  peers := hpeers.trans h.peers
  log := hlog ▸ h.log
  term := hlog ▸ h.term
  vote := hlog ▸ h.vote
  leader hr := h.leader (hrole ▸ hr)
  candidate hr := h.candidate (hrole ▸ hr)
  matchKeys := hmatch ▸ h.matchKeys
  matched ha hr := hmatch ▸ h.matched ha (hrole ▸ hr)
  commit := hcommit ▸ h.commit

/-- A member's message for another member, as an envelope in flight. -/
theorem MessageRel.packet {p : String} {msg : RaftMessage}
    (h : MessageRel m f s id p cause n msg) (hn : n.nodeId = id) (hid : id ∈ m.ids)
    (hp : p ∈ m.ids) (hne : p ≠ id) : PacketRel m f s ⟨.new n.nodeId p msg, cause, n⟩ := by
  have hself : (HeaplessString.pushStr 64 n.nodeId).asStr = id := by
    rw [hn]
    exact asStr_member hid
  exact {
    sender := by
      rw [MessageEnvelope.new, hself]
      exact hid
    recipient := by
      rw [MessageEnvelope.new, asStr_member hp]
      exact hp
    apart := by
      rw [MessageEnvelope.new, hself, asStr_member hp]
      exact Ne.symm hne
    append := fun req hreq => by
      obtain rfl : msg = .appendEntries req := hreq
      rw [MessageEnvelope.new, hself]
      exact h
    ack := fun resp hresp => by
      obtain rfl : msg = .appendEntriesResponse resp := hresp
      rw [MessageEnvelope.new, hself]
      exact h
    voteRequest := fun req hreq => by
      obtain rfl : msg = .requestVote req := hreq
      rw [MessageEnvelope.new, hself]
      exact h
    grant := fun resp hresp hgr => by
      obtain rfl : msg = .requestVoteResponse resp := hresp
      rw [MessageEnvelope.new, hself, asStr_member hp]
      exact h hgr }

/-- A handler that elects no leader and applies nothing. -/
theorem NodeRel.settled (h : NodeRel m f s' id n) (hs' : Setting m f s' id)
    (hsteps : Steps id s s') (hlead : s'.leader = s.leader) {out : List Output}
    (hsent : ∀ env, .send env ∈ out → PacketRel m f s' ⟨env, cause, n⟩)
    (happ : ∀ i e, .applied i e ∉ out) : Refines m f s s' id cause ⟨some (), n, out, []⟩ where
  steps := hsteps
  node := h
  sent := hsent
  applied _ i e he := absurd he (happ i e)
  won t w hw := by
    rw [hlead] at hw
    exact Or.inl hw
  quorate := hs'.quorate

/-- A handler that changes nothing of the relation and sends nothing. -/
theorem NodeRel.idle (h : NodeRel m f s id n) (hs : Setting m f s id) {out : List Output}
    (hsent : ∀ env, .send env ∉ out) (happ : ∀ i e, .applied i e ∉ out) :
    Refines m f s s id cause ⟨some (), n, out, []⟩ :=
  h.settled hs .refl rfl (fun env he => absurd he (hsent env)) happ

/-- A handler that ends by sending one message to another member. -/
theorem NodeRel.answers (h : NodeRel m f s' id n) (hs' : Setting m f s' id)
    (hsteps : Steps id s s') (hlead : s'.leader = s.leader) {p : String} {msg : RaftMessage}
    (hmsg : MessageRel m f s' id p cause n msg) (hp : p ∈ m.ids) (hne : p ≠ id) :
    Refines m f s s' id cause ⟨some (), n, [.send (.new n.nodeId p msg)], []⟩ := by
  refine h.settled hs' hsteps hlead ?_ (by simp)
  intro env henv
  obtain rfl : env = .new n.nodeId p msg := by simpa using henv
  exact hmsg.packet h.nodeId hs'.member hp hne

/-- A node that sees a newer term moves to it. -/
theorem NodeRel.raiseTerm (h : NodeRel m f s id n) (hs : Setting m f s id) {term : Nat}
    (hge : ¬ term < n.log.currentTerm) :
    ∃ s', Reached id term s s' ∧ NodeRel m f s' id (raiseTerm n term) := by
  rw [RaftNode.raiseTerm]
  split
  · rename_i hgt
    have hlt : s.term id < term := by
      rw [← h.term]
      exact hgt
    have hstep : Step id s (s.advance id term) := .advance term hlt
    have hterm : (s.advance id term).term id = term := by simp [State.advance]
    refine ⟨s.advance id term, .advance hlt, ?_⟩
    exact { h with
      log := h.log.setCurrentTerm _
      term := hterm.symm
      vote := by
        rw [hterm]
        show none = s.vote id term
        symm
        -- A vote in a term is cast by a node that has reached it.
        by_contra hne
        obtain ⟨c, hc⟩ := Option.ne_none_iff_exists'.mp hne
        have := (hs.inv.voted id term c hc).1
        omega
      leader := fun hr => by cases hr
      candidate := fun hr => by cases hr
      matched := fun _ hr => by cases hr
      commit := hs.commit hstep h.commit }
  · have heq : term = s.term id := by
      rw [← h.term]
      omega
    rw [heq]
    exact ⟨s, .refl id s, h⟩

/-- A node that only moves to the term of a message it got. -/
theorem NodeRel.stepDown (h : NodeRel m f s id n) (hs : Setting m f s id) {term : Nat}
    (hgt : term > n.log.currentTerm) :
    ∃ s', Refines m f s s' id cause ⟨some (), RaftNode.raiseTerm n term, [], []⟩ := by
  obtain ⟨s', hreach, h'⟩ := h.raiseTerm hs (show ¬ term < n.log.currentTerm by omega)
  exact ⟨s', h'.settled (hs.reached hreach) hreach.steps hreach.leader (by simp) (by simp)⟩

end Setting

/-! ### Leadership -/

section Leadership
variable {m : Membership} {f : Tracks} {s : Past} {id : String} {n : RaftNode}
  {cause : Option RaftMessage}

/-- Heartbeats describe the leader's log as it is. -/
theorem NodeRel.heartbeats (h : NodeRel m f s id n) (hinv : Inv s) (hid : id ∈ m.ids)
    {env : MessageEnvelope} (henv : .send env ∈ heartbeats n) :
    PacketRel m f s ⟨env, cause, n⟩ := by
  unfold RaftNode.heartbeats at henv
  split at henv
  · rename_i hr
    obtain ⟨p, hp, heq⟩ := List.mem_map.mp henv
    obtain rfl := Output.send.inj heq
    rw [h.peers, mem_peersOf] at hp
    refine MessageRel.packet ?_ h.nodeId hid hp.1 hp.2
    refine ⟨s.log id, h.log, ?_, ?_, ?_, ?_, ?_⟩
    · show s.leader n.log.currentTerm = some id
      rw [h.term]
      exact h.leader hr
    · show s.log id <+: s.llog n.log.currentTerm
      rw [h.term, h.leads_log hinv hr]
    · show (n.log.getEntries _ n.log.lastIndex).take 64 = _
      rw [h.log.getEntries]
      rfl
    · intro hpos
      show (n.log.termAt (heartbeatRequest n n.log.currentTerm n.commitIndex p).prevLogIndex).getD
        0 = _
      rw [RaftLog.termAt, h.log.get, if_neg (Nat.pos_iff_ne_zero.mp hpos)]
    · intro hc
      show CommittedIn m s n.log.currentTerm (s.log id) n.commitIndex
      rw [h.term]
      exact h.commit hc
  · simp at henv

/-- `send_heartbeats`. -/
theorem NodeRel.sendHeartbeats (h : NodeRel m f s id n) (hs : Setting m f s id) :
    Refines m f s s id cause (sendHeartbeats.run [] n) := by
  rw [run_sendHeartbeats]
  refine h.settled hs .refl rfl ?_ (applied_notMem_heartbeats n)
  intro env henv
  exact h.heartbeats hs.inv hs.member henv

/-- `propose`: the leader's log grows by the new entry. -/
theorem NodeRel.propose (h : NodeRel m f s id n) (hs : Setting m f s id) {command : Command}
    {tx : Sender} (hshort : n.log.lastIndex < u64Max) :
    ∃ s', Refines m f s s' id cause ((propose command tx).run [] n) := by
  rw [run_propose]
  by_cases hr : n.role = .leader
  · obtain ⟨hidx, hlog⟩ := h.log.append n.log.currentTerm command hshort
    have hstep : Step id s (s.append id ⟨(s.log id).length + 1, n.log.currentTerm, command⟩) :=
      .append _ (h.leader hr) h.term
    have hs' := hs.steps (.single hstep) rfl rfl
    refine ⟨s.append id ⟨(s.log id).length + 1, n.log.currentTerm, command⟩, ?_⟩
    simp only [if_pos hr, hidx]
    have hnode : NodeRel m f (s.append id ⟨(s.log id).length + 1, n.log.currentTerm, command⟩) id
        { n with
          log := (n.log.append n.log.currentTerm command).1
          pendingRequests := n.pendingRequests.insert ((s.log id).length + 1) tx } :=
      { h with
        log := by simpa [State.append] using hlog
        commit := hs.commit hstep h.commit }
    refine hnode.settled hs' (.single hstep) rfl ?_ ?_
    · intro env henv
      exact hnode.heartbeats hs'.inv hs.member (by simpa using henv)
    · intro i e he
      rcases List.mem_cons.mp he with he | he
      · cases he
      · exact applied_notMem_heartbeats _ i e he
  · rw [if_neg hr]
    exact ⟨s, h.idle hs (by simp) (by simp)⟩

/-- Every peer's match index starts from 0. -/
theorem lookup_resetMatch {peers : List String} {map : HashMap String Nat} {p : String} {k : Nat}
    (hk : (peers.foldl (fun acc q => acc.insert q 0) map).lookup p = some k) :
    (p ∈ peers ∧ k = 0) ∨ (p ∉ peers ∧ map.lookup p = some k) := by
  rw [HashMap.lookup_foldl_insert] at hk
  split at hk
  · rename_i hp
    exact Or.inl ⟨hp, (Option.some.inj hk).symm⟩
  · rename_i hp
    exact Or.inr ⟨hp, hk⟩

/-- The node after `become_leader`. -/
theorem NodeRel.leaderOf (h : NodeRel m f s id n) (hs : Setting m f s id)
    (hstep : Step id s (s.win id)) : NodeRel m f (s.win id) id (leaderOf n) :=
  { h with
    leader := fun _ => by simp [State.win]
    candidate := fun hr => by cases hr
    matchKeys := fun p k hk => by
      rcases lookup_resetMatch hk with ⟨hp, -⟩ | ⟨-, hold⟩
      · rwa [h.peers, mem_peersOf] at hp
      · exact h.matchKeys p k hold
    matched := fun _ _ p k hk => by
      rcases lookup_resetMatch hk with ⟨-, h0⟩ | ⟨hp, hold⟩
      · exact Or.inl h0
      · -- Every key is a peer, and every peer was reset.
        have := h.matchKeys p k hold
        rw [h.peers, mem_peersOf] at hp
        exact absurd this hp
    commit := hs.commit hstep h.commit }

/-- `become_leader`, of a candidate whose term has no other leader. -/
theorem NodeRel.becomeLeader (h : NodeRel m f s id n) (hs : Setting m f s id)
    (hcand : n.role = .candidate) (hnone : s.leader (s.term id) = none)
    (hvotes : f.votes → Majority m.ids {v | s.vote v (s.term id) = some id}) :
    Refines m f s (s.win id) id cause ⟨some (), RaftNode.leaderOf n,
      .elected n.log.currentTerm :: RaftNode.heartbeats (RaftNode.leaderOf n), []⟩ := by
  have hstep : Step id s (s.win id) := .win (h.candidate hcand).1 hnone
  have hnode := h.leaderOf hs hstep
  exact {
    steps := .single hstep
    node := hnode
    sent := fun env henv => by
      exact hnode.heartbeats (hstep.inv hs.inv) hs.member (by simpa using henv)
    applied := fun _ i e he => by
      rcases List.mem_cons.mp he with he | he
      · cases he
      · exact absurd he (applied_notMem_heartbeats _ i e)
    won := fun t w hw => by
      by_cases ht : t = s.term id
      · right
        subst ht
        simp only [State.win, Function.update_self, Option.some.injEq] at hw
        exact ⟨hw.symm, rfl, h.term⟩
      · left
        simpa [State.win, ht] using hw
    quorate := fun hv t ht => by
      by_cases htt : t = s.term id
      · subst htt
        simpa [State.win] using hvotes hv
      · simp only [State.win, Function.update_of_ne htt] at ht ⊢
        exact hs.quorate hv t ht }

end Leadership

/-! ### Elections -/

section Elections
variable {m : Membership} {f : Tracks} {s : Past} {id : String} {n : RaftNode}
  {cause : Option RaftMessage}

/-- A node that starts an election stands for the next term. -/
theorem NodeRel.candidateOf (h : NodeRel m f s id n) (hs : Setting m f s id)
    (hshort : n.log.currentTerm < u64Max) :
    NodeRel m f (s.stand id (s.term id + 1)) id (candidateOf n) := by
  have hstep : Step id s (s.stand id (s.term id + 1)) := .stand _ (Nat.lt_succ_self _)
  have hterm : addOne n.log.currentTerm = s.term id + 1 := by rw [addOne_of_lt hshort, h.term]
  have hself : (s.stand id (s.term id + 1)).term id = s.term id + 1 := by simp [State.stand]
  exact { h with
    log := (h.log.setCurrentTerm _).setVotedFor _
    term := by
      rw [hself, ← hterm]
      rfl
    vote := by
      rw [hself]
      show some (HeaplessString.pushStr 64 n.nodeId).asStr = _
      rw [h.nodeId, asStr_member hs.member]
      simp [State.stand, State.set₂]
    leader := fun hr => by cases hr
    candidate := fun _ => by
      rw [hself]
      refine ⟨by simp [State.stand, State.set₂], ?_⟩
      -- It cannot lead a term that it had not reached.
      intro hl
      have := (hs.inv.reached (show s.leader (s.term id + 1) = some id from hl)).2
      omega
    matched := fun _ hr => by cases hr
    commit := hs.commit hstep h.commit }

/-- In a cluster of one the node's own vote is a majority, and no other node can lead. -/
theorem NodeRel.alone (h : NodeRel m f s id n) (hs : Setting m f s id)
    (hmem : ∀ t w, s.leader t = some w → w ∈ m.ids) (hpeers : n.peers.keys = []) {t : Nat}
    (ht : s.leader t ≠ some id) (hvote : s.vote id t = some id) :
    s.leader t = none ∧ Majority m.ids {v | s.vote v t = some id} := by
  have hperm := peersOf_perm hs.member
  rw [← h.peers, hpeers] at hperm
  constructor
  · by_contra hne
    obtain ⟨w, hw⟩ := Option.ne_none_iff_exists'.mp hne
    obtain rfl : w = id := by simpa using hperm.symm.subset (hmem t w hw)
    exact ht hw
  · refine ⟨[id], List.nodup_singleton id, ?_, ?_⟩
    · intro v hv
      obtain rfl : v = id := by simpa using hv
      exact ⟨hs.member, hvote⟩
    · rw [← hperm.length_eq]
      simp

/-- `start_election`. A cluster of one elects its node at once. -/
theorem NodeRel.startElection (h : NodeRel m f s id n) (hs : Setting m f s id)
    (hmem : ∀ t w, s.leader t = some w → w ∈ m.ids) (hshort : n.log.currentTerm < u64Max) :
    ∃ s', Refines m f s s' id cause (startElection.run [] n) := by
  have hstep : Step id s (s.stand id (s.term id + 1)) := .stand _ (Nat.lt_succ_self _)
  have hnode := h.candidateOf hs hshort
  have hs' := hs.steps (.single hstep) rfl rfl
  rw [run_startElection]
  by_cases hpeers : n.peers.keys = []
  · rw [if_pos hpeers]
    have hlead := (hnode.candidate rfl).2
    obtain ⟨lc, hlc⟩ := Option.ne_none_iff_exists'.mp (hnode.candidate rfl).1
    obtain ⟨hnone, hvotes⟩ := hnode.alone hs' hmem hpeers hlead
      (hs'.inv.stood id _ lc hlc).2.2.1
    have hwin : Refines m f _ _ id cause _ :=
      hnode.becomeLeader hs' rfl hnone (fun _ => hvotes)
    exact ⟨(s.stand id (s.term id + 1)).win id, { hwin with steps := .head hstep hwin.steps }⟩
  · rw [if_neg hpeers]
    refine ⟨s.stand id (s.term id + 1), hnode.settled hs' (.single hstep) rfl ?_ (by simp)⟩
    intro env henv
    obtain ⟨p, hp, heq⟩ := List.mem_map.mp henv
    obtain rfl := Output.send.inj heq
    rw [h.peers, mem_peersOf] at hp
    refine MessageRel.packet ?_ hnode.nodeId hs.member hp.1 hp.2
    refine ⟨s.log id, ?_, ?_, h.log.lastIndex, h.log.lastTerm⟩
    · show (s.stand id (s.term id + 1)).cand id (addOne n.log.currentTerm) = _
      rw [addOne_of_lt hshort, h.term]
      simp [State.stand, State.set₂]
    · show (HeaplessString.pushStr 64 n.nodeId).asStr = id
      rw [h.nodeId, asStr_member hs.member]

/-- A vote that the check of `handle_request_vote` allows, cast now or before. -/
theorem NodeRel.voted {req : RequestVoteRequest}
    (h : NodeRel m f s id (RaftNode.raiseTerm n req.term)) (hs : Setting m f s id)
    (hterm : s.term id = req.term) {sender : String} (hreq : VoteRequestRel s sender req)
    (hcan : CanVote (RaftNode.raiseTerm n req.term) req) :
    ∃ s', Steps id s s' ∧ NodeRel m f s' id (voted n req) ∧ s'.vote id req.term = some sender ∧
      s'.leader = s.leader ∧ s'.voters = s.voters := by
  obtain ⟨hvf, hlogok⟩ := hcan
  obtain ⟨lc, hlc, hcid, hlast, hlt⟩ := hreq
  rw [h.vote, hcid, hterm] at hvf
  have hstr : some (HeaplessString.pushStr 64 req.candidateId.asStr).asStr = some sender := by
    rw [HeaplessString.pushStr_asStr, hcid]
  rcases hvf with hnone | hsome
  · have hstep : Step id s (s.grant id sender) := by
      refine .grant sender lc ?_ ?_ (hterm ▸ hnone)
      · rw [hterm]
        exact hlc
      · rw [UpToDate, ← h.log.lastTerm, ← h.log.lastIndex, ← hlast, ← hlt]
        exact hlogok
    have hvote : (s.grant id sender).vote id req.term = some sender := by
      simp [State.grant, State.set₂, hterm]
    refine ⟨s.grant id sender, .single hstep, ?_, hvote, rfl, rfl⟩
    exact { h with
      log := h.log.setVotedFor _
      vote := by
        show some _ = (s.grant id sender).vote id (s.term id)
        rw [hterm, hvote, hstr]
      commit := hs.commit hstep h.commit }
  · refine ⟨s, .refl, ?_, hsome, rfl, rfl⟩
    exact { h with
      log := h.log.setVotedFor _
      vote := by
        show some _ = s.vote id (s.term id)
        rw [hterm, hsome, hstr] }

/-- `handle_request_vote`: the node moves to the term of the request and may vote. -/
theorem NodeRel.handleRequestVote (h : NodeRel m f s id n) (hs : Setting m f s id)
    {sender : String} {req : RequestVoteRequest} (hmem : sender ∈ m.ids) (hne : sender ≠ id)
    (hreq : VoteRequestRel s sender req) :
    ∃ s', Refines m f s s' id cause ((handleRequestVote sender req).run [] n) := by
  rw [run_handleRequestVote]
  by_cases hold : req.term < n.log.currentTerm
  · rw [if_pos hold]
    exact ⟨s, h.answers hs .refl rfl (fun hgr => by cases hgr) hmem hne⟩
  · rw [if_neg hold]
    obtain ⟨s₁, hreach, h₁⟩ := h.raiseTerm hs hold
    have hs₁ := hs.reached hreach
    by_cases hcan : CanVote (RaftNode.raiseTerm n req.term) req
    · rw [if_pos hcan]
      have hreq₁ : VoteRequestRel s₁ sender req := by
        rw [VoteRequestRel, hreach.cand]
        exact hreq
      obtain ⟨s₂, hsteps, h₂, hvote, hlead, hvoters⟩ := h₁.voted hs₁ hreach.term hreq₁ hcan
      have hterm : (RaftNode.voted n req).log.currentTerm = req.term := by
        show (RaftNode.raiseTerm n req.term).log.currentTerm = req.term
        rw [h₁.term, hreach.term]
      refine ⟨s₂, h₂.answers (hs₁.steps hsteps hlead hvoters) (hreach.steps.trans hsteps)
        (hlead.trans hreach.leader) (fun _ => ?_) hmem hne⟩
      show s₂.vote id (RaftNode.voted n req).log.currentTerm = some sender
      rw [hterm]
      exact hvote
    · rw [if_neg hcan]
      exact ⟨s₁, h₁.answers hs₁ hreach.steps hreach.leader (fun hgr => by cases hgr) hmem hne⟩

/-- The tally is no part of the relation. -/
theorem NodeRel.counted (h : NodeRel m f s id n) (sender : String) :
    NodeRel m f s id (counted n sender) := by
  unfold RaftNode.counted
  split
  · exact h
  · exact h.same rfl rfl rfl rfl rfl rfl

/-- Where a majority voted for a node, no other node leads its term. -/
theorem unique_of_votes (hinv : Inv s) (hq : Quorate m.ids s) {t : Nat}
    (hvotes : Majority m.ids {v | s.vote v t = some id}) {w : String}
    (hw : s.leader t = some w) : w = id := by
  obtain ⟨v, hv, hv'⟩ := (hq t (hw ▸ Option.some_ne_none w)).inter hvotes
  have hvw := (hinv.won t w hw).2 v hv
  exact Option.some.inj (hvw.symm.trans hv')

/-- `handle_request_vote_response`. Where the threshold is passed, the votes must be a
majority or the term must have no other leader. -/
theorem NodeRel.handleRequestVoteResponse (h : NodeRel m f s id n) (hs : Setting m f s id)
    {sender : String} {resp : RequestVoteResponse}
    (hvotes : f.votes → n.role = .candidate → resp.term ≤ n.log.currentTerm →
      resp.voteGranted = true → ReachesThreshold (RaftNode.counted n sender) →
      Majority m.ids {v | s.vote v (s.term id) = some id})
    (hone : f.votes ∨
      (∀ t, ((handleRequestVoteResponse sender resp).run [] n).state.role = .leader →
      ((handleRequestVoteResponse sender resp).run [] n).state.log.currentTerm = t →
      ∀ w, s.leader t = some w → w = id)) :
    ∃ s', Refines m f s s' id cause ((handleRequestVoteResponse sender resp).run [] n) := by
  rw [run_handleRequestVoteResponse] at hone ⊢
  by_cases hr : n.role = .candidate
  · rw [if_neg (not_not.mpr hr)] at hone ⊢
    by_cases ht : resp.term > n.log.currentTerm
    · rw [if_pos ht]
      exact h.stepDown hs ht
    · rw [if_neg ht] at hone ⊢
      by_cases hg : resp.voteGranted = true
      · rw [if_pos hg] at hone ⊢
        by_cases hm : ReachesThreshold (RaftNode.counted n sender)
        · rw [if_pos hm] at hone ⊢
          have hmaj := fun hv => hvotes hv hr (Nat.le_of_not_lt ht) hg hm
          have hc := h.counted sender
          have hrole : (RaftNode.counted n sender).role = .candidate := by
            rw [RaftNode.counted]
            split <;> exact hr
          have hnone : s.leader (s.term id) = none := by
            by_contra hne
            obtain ⟨w, hw⟩ := Option.ne_none_iff_exists'.mp hne
            -- Any leader of the term is this node, which is still a candidate.
            have hwid : w = id := by
              rcases hone with hv | hone
              · exact unique_of_votes hs.inv (hs.quorate hv) (hmaj hv) hw
              · exact hone _ rfl hc.term w hw
            exact (hc.candidate hrole).2 (hwid ▸ hw)
          exact ⟨s.win id, hc.becomeLeader hs hrole hnone hmaj⟩
        · rw [if_neg hm]
          exact ⟨s, (h.counted sender).idle hs (by simp) (by simp)⟩
      · rw [if_neg hg]
        exact ⟨s, h.idle hs (by simp) (by simp)⟩
  · rw [if_pos hr]
    exact ⟨s, h.idle hs (by simp) (by simp)⟩

end Elections

end RaftEbpf
