import RaftEbpf.Conditions
import RaftEbpf.Lib.Replication.Safety
import RaftEbpf.Proofs.StoreEntries

/-!
# `RaftEbpf.Proofs.Simulation`: the cluster refines the replication protocol

The state of the cluster refines a state of `RaftEbpf.Lib.Replication`: each node has the
term, the vote and the log that the protocol gives it (`NodeRel`), and each envelope in
flight says something true of the protocol's past (`PacketRel`). Each handler is a number
of protocol steps of its node.

The code decides three things with numbers that need not be true of the past: who has a
majority, what a peer has acknowledged, and what is committed. `Tracks` says which of the
three the relation covers. Each of them rests on a condition of `RaftEbpf.Conditions`.
-/

set_option autoImplicit false

namespace RaftEbpf

open RaftEbpf.Lib (HashMap Prog Majority)
open RaftEbpf.Lib.Replication

instance : Termed LogEntry := ⟨LogEntry.term⟩

/-- The protocol's state: nodes are ids, entries are log entries. -/
abbrev Past : Type := State String LogEntry

/-- The parts of the relation that rest on a condition. -/
structure Tracks where
  /-- Leaders have the votes of a majority. -/
  votes : Prop
  /-- Match indexes were acknowledged. -/
  acks : Prop
  /-- Commit indexes are committed by a majority. -/
  commits : Prop

/-- The first `c` entries of `l` are committed in a term up to `t`. -/
def CommittedIn (m : Membership) (s : Past) (t : Nat) (l : List LogEntry) (c : Nat) : Prop :=
  c = 0 ∨ ∃ u P, Committed m.ids s u P ∧ u ≤ t ∧ c ≤ P.length ∧ P.take c <+: l

/-- A node is what the protocol says of it. -/
structure NodeRel (m : Membership) (f : Tracks) (s : Past) (id : String) (n : RaftNode) :
    Prop where
  nodeId : n.nodeId = id
  peers : n.peers = m.peersOf id
  log : n.log.Holds (s.log id)
  term : n.log.currentTerm = s.term id
  vote : n.log.votedFor = s.vote id (s.term id)
  leader : n.role = .leader → s.leader (s.term id) = some id
  candidate : n.role = .candidate →
    s.cand id (s.term id) ≠ none ∧ s.leader (s.term id) ≠ some id
  matchKeys : ∀ p k, n.matchIndex.lookup p = some k → p ∈ m.ids ∧ p ≠ id
  matched : f.acks → n.role = .leader → ∀ p k, n.matchIndex.lookup p = some k →
    k = 0 ∨ s.acked (s.term id) p k
  commit : f.commits → CommittedIn m s (s.term id) (s.log id) n.commitIndex

/-- A request in flight holds a stretch of its sender's log, which the leader's log of its
term begins with. -/
def AppendRel (m : Membership) (f : Tracks) (s : Past) (sender : String) (origin : RaftNode)
    (req : AppendEntriesRequest) : Prop :=
  ∃ O, origin.log.Holds O ∧ s.leader req.term = some sender ∧ O <+: s.llog req.term ∧
    req.entries.toVec = (O.drop req.prevLogIndex).take 64 ∧
    (0 < req.prevLogIndex →
      req.prevLogTerm = ((O[req.prevLogIndex - 1]?).map (·.term)).getD 0) ∧
    (f.commits → CommittedIn m s req.term O req.leaderCommit)

/-- A success in flight acknowledged what its sender's log then shared with the leader's
log of the term of the request. -/
def AckRel (s : Past) (sender : String) (cause : Option RaftMessage) (origin : RaftNode)
    (resp : AppendEntriesResponse) : Prop :=
  resp.success = true → ∃ req O, cause = some (.appendEntries req) ∧ origin.log.Holds O ∧
    resp.lastLogIndex = O.length ∧ Anchored s O ∧ s.leader req.term ≠ none ∧
    ∀ k, k ≤ O.length → O.take k <+: s.llog req.term → s.acked req.term sender k

/-- A vote request in flight describes the log its sender stood with. -/
def VoteRequestRel (s : Past) (sender : String) (req : RequestVoteRequest) : Prop :=
  ∃ lc, s.cand sender req.term = some lc ∧ req.candidateId.asStr = sender ∧
    req.lastLogIndex = lc.length ∧ req.lastLogTerm = Lib.Replication.lastTerm lc

/-- A grant in flight is a vote. -/
def GrantRel (s : Past) (env : MessageEnvelope) : Prop :=
  ∀ resp, env.message = .requestVoteResponse resp → resp.voteGranted = true →
    s.vote env.sender.asStr resp.term = some env.recipient.asStr

/-- An envelope in flight says something true of the past. -/
structure PacketRel (m : Membership) (f : Tracks) (s : Past) (p : Packet) : Prop where
  sender : p.envelope.sender.asStr ∈ m.ids
  recipient : p.envelope.recipient.asStr ∈ m.ids
  apart : p.envelope.sender.asStr ≠ p.envelope.recipient.asStr
  append : ∀ req, p.envelope.message = .appendEntries req →
    AppendRel m f s p.envelope.sender.asStr p.origin req
  ack : ∀ resp, p.envelope.message = .appendEntriesResponse resp →
    AckRel s p.envelope.sender.asStr p.cause p.origin resp
  voteRequest : ∀ req, p.envelope.message = .requestVote req →
    VoteRequestRel s p.envelope.sender.asStr req
  grant : GrantRel s p.envelope

/-- An entry applied at index `i` is the entry there of some committed prefix. -/
def AppliedRel (m : Membership) (s : Past) (i : Nat) (e : LogEntry) : Prop :=
  0 < i ∧ ∃ t P, Committed m.ids s t P ∧ P[i - 1]? = some e

/-- The cluster `c`, reached through the states `tr`, refines the protocol's state. -/
structure Sim (m : Membership) (f : Tracks) (tr : List Cluster) (c : Cluster) (s : Past) :
    Prop where
  inv : Inv s
  ackInv : AckInv s
  quorate : f.votes → Quorate m.ids s
  nodes : ∀ id ∈ m.ids, NodeRel m f s id (c.nodes id)
  packets : ∀ p ∈ c.network, PacketRel m f s p
  applied : f.commits → ∀ em ∈ c.history, ∀ i e, em.output = .applied i e → AppliedRel m s i e
  grants : ∀ em ∈ c.history, ∀ env, em.output = .send env → GrantRel s env
  /-- Leaders of the protocol led in the run, and the other way round. -/
  led : ∀ t w, s.leader t = some w → w ∈ m.ids ∧ ∃ c₀ ∈ tr, c₀.Leads w t
  leads : ∀ c₀ ∈ tr, ∀ id ∈ m.ids, ∀ t, c₀.Leads id t → s.leader t = some id

/-! ### Across the steps of another node -/

section Grows
variable {m : Membership} {f : Tracks} {i : String} {s s' : Past}

theorem CommittedIn.grows (hg : Grows i s s') {t : Nat} {l : List LogEntry} {c : Nat}
    (h : CommittedIn m s t l c) : CommittedIn m s' t l c := by
  rcases h with h0 | ⟨u, P, hc, hrest⟩
  · exact Or.inl h0
  · exact Or.inr ⟨u, P, hc.grows hg, hrest⟩

/-- A node's relation survives the steps of another node. -/
theorem NodeRel.grows (hg : Grows i s s') {id : String} {n : RaftNode} (hid : id ≠ i)
    (h : NodeRel m f s id n) : NodeRel m f s' id n := by
  obtain ⟨hterm, hlog, hpast⟩ := hg.others id hid
  exact {
    nodeId := h.nodeId
    peers := h.peers
    log := hlog ▸ h.log
    term := hterm ▸ h.term
    vote := by rw [hterm, (hpast _).1]; exact h.vote
    leader := fun hr => by rw [hterm]; exact hg.leader _ _ (h.leader hr)
    candidate := fun hr => by
      obtain ⟨h1, h2⟩ := h.candidate hr
      rw [hterm, (hpast _).2.2]
      refine ⟨h1, fun hl => ?_⟩
      rcases hg.fresh _ _ hl with hl | hl
      · exact h2 hl
      · exact hid hl
    matchKeys := h.matchKeys
    matched := fun ha hr p k hk => by
      rw [hterm]
      exact (h.matched ha hr p k hk).imp_right (hg.acked _ _ _)
    commit := fun hc => by
      rw [hterm, hlog]
      exact (h.commit hc).grows hg }

/-- Prefixes of an anchored list that the leader's log has now it had before. -/
theorem prefix_llog_back (hg : Grows i s s') {t : Nat} (ht : s.leader t ≠ none)
    {l : List LogEntry} (hl : Anchored s l) (h : l <+: s'.llog t) : l <+: s.llog t := by
  obtain ⟨es, hes, hterm⟩ := hg.llog t ht
  rw [hes] at h
  rcases List.prefix_or_prefix_of_prefix h (List.prefix_append (s.llog t) es) with h' | h'
  · exact h'
  · obtain ⟨r, rfl⟩ := h'
    rcases List.eq_nil_or_concat r with rfl | ⟨q, e, rfl⟩
    · simp
    · -- The last entry is one of the new ones, so its term is `t`.
      have hr : q ++ [e] <+: es := by simpa [List.append_assoc] using h
      have he : termOf e = t := hterm e (hr.subset (by simp))
      have hpre := (hl (s.llog t ++ q) e (by simp)).2
      rw [he] at hpre
      simpa [List.append_assoc] using hpre

theorem PacketRel.grows (hg : Grows i s s') {p : Packet} (h : PacketRel m f s p) :
    PacketRel m f s' p where
  sender := h.sender
  recipient := h.recipient
  apart := h.apart
  append req hreq := by
    obtain ⟨O, hO, hled, hpre, hes, hprev, hc⟩ := h.append req hreq
    obtain ⟨es, hes', -⟩ := hg.llog req.term (hled ▸ Option.some_ne_none _)
    exact ⟨O, hO, hg.leader _ _ hled, hpre.trans ⟨es, hes'.symm⟩, hes, hprev,
      fun hf => (hc hf).grows hg⟩
  ack resp hresp hsucc := by
    obtain ⟨req, O, hcause, hO, hlast, hanch, hled, hack⟩ := h.ack resp hresp hsucc
    refine ⟨req, O, hcause, hO, hlast, hanch.grows hg, hg.led hled, fun k hk hpre => ?_⟩
    refine hg.acked _ _ _ (hack k hk ?_)
    exact prefix_llog_back hg hled (hanch.shorten (List.take_prefix k O)) hpre
  voteRequest req hreq := by
    obtain ⟨lc, hlc, hrest⟩ := h.voteRequest req hreq
    exact ⟨lc, hg.cand _ _ _ hlc, hrest⟩
  grant resp hresp hgr := hg.vote _ _ _ (h.grant resp hresp hgr)

theorem AppliedRel.grows (hg : Grows i s s') {k : Nat} {e : LogEntry}
    (h : AppliedRel m s k e) : AppliedRel m s' k e := by
  obtain ⟨hk, t, P, hP, he⟩ := h
  exact ⟨hk, t, P, hP.grows hg, he⟩

end Grows

/-! ### One handler -/

/-- A program that node `id` runs to its end is a number of protocol steps of the node. -/
structure Refines (m : Membership) (f : Tracks) (s s' : Past) (id : String)
    (cause : Option RaftMessage) (r : Prog.Result RaftNode Output WriteResult Unit) : Prop where
  steps : Steps id s s'
  node : NodeRel m f s' id r.state
  sent : ∀ env, .send env ∈ r.out → PacketRel m f s' ⟨env, cause, r.state⟩
  applied : f.commits → ∀ i e, .applied i e ∈ r.out → AppliedRel m s' i e
  /-- A new leader is the node itself, and it leads when it ends. -/
  won : ∀ t w, s'.leader t = some w → s.leader t = some w ∨
    (w = id ∧ r.state.role = .leader ∧ r.state.log.currentTerm = t)
  quorate : f.votes → Quorate m.ids s'

namespace Sim

variable {m : Membership} {f : Tracks} {tr : List Cluster} {c : Cluster} {s : Past}

/-- Envelopes may be lost, and duplicated ones say nothing new. -/
theorem network (h : Sim m f tr c s) {net : List Packet} (hnet : ∀ p ∈ net, p ∈ c.network) :
    Sim m f tr { c with network := net } s :=
  { h with packets := fun p hp => h.packets p (hnet p hp) }

/-- A cluster that differs in no node, envelope or output, after one more state. -/
theorem record (h : Sim m f tr c s) {c₀ : Cluster} (hc : c₀.nodes = c.nodes) :
    Sim m f (c₀ :: tr) c s :=
  { h with
    led := fun t w hw => by
      obtain ⟨hmem, c₁, hc₁, hl⟩ := h.led t w hw
      exact ⟨hmem, c₁, List.mem_cons_of_mem _ hc₁, hl⟩
    leads := fun c₁ hc₁ id hid t hl => by
      rcases List.mem_cons.mp hc₁ with rfl | hc₁
      · obtain ⟨hrole, hterm⟩ := hl
        rw [hc] at hrole hterm
        have hn := h.nodes id hid
        rw [← hterm, hn.term]
        exact hn.leader hrole
      · exact h.leads c₁ hc₁ id hid t hl }

/-- One node runs one program. -/
theorem runAt (h : Sim m f tr c s) {id : String} (hid : id ∈ m.ids) {cause : Option RaftMessage}
    {p : NodeProg Unit} {s' : Past} (hr : Refines m f s s' id cause (p.run [] (c.nodes id)))
    (c₀ : Cluster) (hc₀ : c₀.nodes = (c.runAt id cause p).nodes) :
    Sim m f (c₀ :: tr) (c.runAt id cause p) s' := by
  have hg := Steps.grows hr.steps h.inv
  have hself : (c.runAt id cause p).nodes id = (p.run [] (c.nodes id)).state := by
    simp [Cluster.runAt]
  have hnodes : ∀ v ∈ m.ids, NodeRel m f s' v ((c.runAt id cause p).nodes v) := by
    intro v hv
    by_cases hvi : v = id
    · rw [hvi, hself]
      exact hr.node
    · have hother : (c.runAt id cause p).nodes v = c.nodes v := by simp [Cluster.runAt, hvi]
      rw [hother]
      exact (h.nodes v hv).grows hg hvi
  exact {
    inv := Steps.inv hr.steps h.inv
    ackInv := Steps.ackInv hr.steps h.inv h.ackInv
    quorate := hr.quorate
    nodes := hnodes
    packets := fun q hq => by
      rcases List.mem_append.mp hq with hq | hq
      · exact (h.packets q hq).grows hg
      · obtain ⟨o, ho, hpo⟩ := List.mem_filterMap.mp hq
        cases o with
        | send env =>
            obtain rfl := Option.some.inj hpo
            exact hr.sent env ho
        | _ => cases hpo
    applied := fun hf em hem i e he => by
      rcases List.mem_append.mp hem with hem | hem
      · exact (h.applied hf em hem i e he).grows hg
      · obtain ⟨o, ho, rfl⟩ := List.mem_map.mp hem
        exact hr.applied hf i e (he ▸ ho)
    grants := fun em hem env he => by
      rcases List.mem_append.mp hem with hem | hem
      · exact fun resp hm hgr => hg.vote _ _ _ (h.grants em hem env he resp hm hgr)
      · obtain ⟨o, ho, rfl⟩ := List.mem_map.mp hem
        exact (hr.sent env (he ▸ ho)).grant
    led := fun t w hw => by
      rcases hr.won t w hw with hw | ⟨rfl, hrole, hterm⟩
      · obtain ⟨hmem, c₁, hc₁, hl⟩ := h.led t w hw
        exact ⟨hmem, c₁, List.mem_cons_of_mem _ hc₁, hl⟩
      · refine ⟨hid, c₀, List.mem_cons_self, ?_⟩
        rw [Cluster.Leads, hc₀, hself]
        exact ⟨hrole, hterm⟩
    leads := fun c₁ hc₁ v hv t hl => by
      rcases List.mem_cons.mp hc₁ with rfl | hc₁
      · obtain ⟨hrole, hterm⟩ := hl
        rw [hc₀] at hrole hterm
        have hn := hnodes v hv
        rw [← hterm, hn.term]
        exact hn.leader hrole
      · exact hg.leader _ _ (h.leads c₁ hc₁ v hv t hl) }

end Sim

end RaftEbpf
