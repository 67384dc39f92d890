import RaftEbpf.Proofs.RefinementEntries

/-!
# `RaftEbpf.Proofs.ClusterRun`: runs of the cluster refine the replication protocol

`Sim.step` puts the handlers together: each step of the cluster keeps the relation `Sim`.
`run_simulated` is the induction over a run. Its conditions are those of
`RaftEbpf.Conditions`, each for the part of the relation that rests on it, and that no two
nodes lead one term, or that leaders have a majority of votes.
-/

set_option autoImplicit false

namespace RaftEbpf

open RaftEbpf.Lib (HashMap Prog Majority)
open RaftEbpf.Lib.Replication
open RaftNode

/-- Each tracked part of the relation has its condition on every step. -/
structure Tracks.Sound (m : Membership) (f : Tracks) (ok : Cluster → Action → Prop) : Prop where
  short : ∀ c a, ok c a → c.Short a
  votes : f.votes → ∀ c a, ok c a → c.ElectionSound m a
  acks : f.acks → ∀ c a, ok c a → c.AckSound a
  commits : f.commits → ∀ c a, ok c a → c.CommitSound a
  commits_votes : f.commits → f.votes
  commits_acks : f.commits → f.acks

/-- A node that starts again on its data directory. -/
theorem NodeRel.restart {m : Membership} {f : Tracks} {s : Past} {id : String} {n n' : RaftNode}
    (h : NodeRel m f s id n) (hnew : RaftNode.new id (m.peersOf id) n.log.dataDir = some n') :
    NodeRel m f s id n' := by
  obtain ⟨log', hload, hlog, hps⟩ := h.log.reload
  rw [RaftNode.new, hload] at hnew
  obtain rfl := Option.some.inj hnew
  exact {
    nodeId := rfl
    peers := rfl
    log := hlog
    term := by
      show log'.persistentState.currentTerm = _
      rw [hps]
      exact h.term
    vote := by
      show log'.persistentState.votedFor.map (·.asStr) = _
      rw [hps]
      exact h.vote
    leader := fun hr => by cases hr
    candidate := fun hr => by cases hr
    matchKeys := fun p k hk => by simp [withLog] at hk
    matched := fun _ hr => by cases hr
    commit := fun _ => Or.inl rfl }

/-- Empty data directories are related to the protocol's first state. -/
theorem Sim.initial (m : Membership) (f : Tracks) : Sim m f [m.initial] m.initial State.init where
  inv := Inv.init
  ackInv := AckInv.init
  quorate _ t ht := absurd rfl ht
  nodes id _ := {
    nodeId := rfl
    peers := rfl
    log := RaftLog.Holds.empty
    term := rfl
    vote := rfl
    leader := fun hr => by cases hr
    candidate := fun hr => by cases hr
    matchKeys := fun p k hk => by simp [Membership.initial, withLog] at hk
    matched := fun _ hr => by cases hr
    commit := fun _ => Or.inl rfl }
  packets p hp := by simp [Membership.initial] at hp
  applied _ em hem := by simp [Membership.initial] at hem
  grants em hem := by simp [Membership.initial] at hem
  led t w hw := by cases hw
  leads c₀ hc₀ id _ t hl := by
    obtain rfl : c₀ = m.initial := by simpa using hc₀
    cases hl.1

namespace Sim

variable {m : Membership} {f : Tracks} {ok : Cluster → Action → Prop} {tr : List Cluster}
  {c c' : Cluster} {s : Past}

/-- The relation does not read the proposal counter. -/
theorem proposals (h : Sim m f tr c s) (k : Nat) : Sim m f tr { c with proposals := k } s :=
  ⟨h.inv, h.ackInv, h.quorate, h.nodes, h.packets, h.applied, h.grants, h.led, h.leads⟩

/-- The members that really voted for a candidate voted for it in the protocol. -/
theorem majority_votesFor (h : Sim m f tr c s) {id : String} (hid : id ∈ m.ids)
    (hr : (c.nodes id).role = .candidate)
    (hlen : m.ids.length < 2 * (c.votesFor m id (c.nodes id).log.currentTerm).length) :
    Majority m.ids {v | s.vote v (s.term id) = some id} := by
  have hn := h.nodes id hid
  refine ⟨_, m.nodup.filter _, fun v hv => ?_, hlen⟩
  obtain ⟨hvm, hv⟩ := List.mem_filter.mp hv
  refine ⟨hvm, ?_⟩
  rcases Bool.or_eq_true_iff.mp hv with hself | hgr
  · obtain rfl : v = id := by simpa using hself
    obtain ⟨lc, hlc⟩ := Option.ne_none_iff_exists'.mp (hn.candidate hr).1
    exact (h.inv.stood v _ lc hlc).2.2.1
  · obtain ⟨em, hem, hmatch⟩ := List.any_eq_true.mp hgr
    split at hmatch
    · rename_i env hout
      split at hmatch
      · rename_i resp hmsg
        simp only [Bool.and_eq_true, decide_eq_true_eq] at hmatch
        obtain ⟨⟨⟨hg, ht⟩, hsv⟩, hrv⟩ := hmatch
        have := h.grants em hem env hout resp hmsg hg
        rw [ht, hsv, hrv, hn.term] at this
        exact this
      · cases hmatch
    · cases hmatch

/-- What a handler of a member starts from. -/
theorem setting (h : Sim m f tr c s) (hf : f.Sound m ok) {id : String} (hid : id ∈ m.ids) :
    Setting m f s id :=
  ⟨h.inv, h.ackInv, h.quorate, hf.commits_votes, hf.commits_acks, hid⟩

/-- Delivering one envelope. -/
theorem deliver (h : Sim m f tr c s) (hf : f.Sound m ok) {k : Nat} {p : Packet}
    (hok : ok c (.deliver k)) (hp : c.network[k]? = some p)
    (hone : f.votes ∨ m.OneLeaderPerTerm ((({ c with network := c.network.eraseIdx k } :
      Cluster).runAt p.envelope.recipient.asStr (some p.envelope.message)
        (handleMessage p.envelope)) :: tr)) :
    ∃ s', Refines m f s s' p.envelope.recipient.asStr (some p.envelope.message)
      ((handleMessage p.envelope).run [] (c.nodes p.envelope.recipient.asStr)) := by
  have hpr := h.packets p (List.mem_of_getElem? hp)
  have hid := hpr.recipient
  have hn := h.nodes _ hid
  have hs := h.setting hf hid
  have harr : c.arriving (.deliver k) = some p := hp
  unfold handleMessage at hone ⊢
  cases hmsg : p.envelope.message with
  | appendEntries req =>
      refine hn.handleAppendEntries hs hpr.sender hpr.apart (hpr.append req hmsg) rfl ?_
      intro hc
      have hcs := hf.commits hc c _ hok
      rw [Cluster.CommitSound, harr] at hcs
      simp only [hmsg] at hcs
      exact hcs
  | appendEntriesResponse resp =>
      refine hn.handleAppendEntriesResponse hs hpr.sender hpr.apart (hpr.ack resp hmsg) ?_
      intro ha
      have has := hf.acks ha c _ hok
      rw [Cluster.AckSound, harr] at has
      simp only [hmsg] at has
      exact has
  | requestVote req =>
      exact hn.handleRequestVote hs hpr.sender hpr.apart (hpr.voteRequest req hmsg)
  | requestVoteResponse resp =>
      refine hn.handleRequestVoteResponse hs ?_ ?_
      · intro hv hr ht hg hm
        have hes := hf.votes hv c _ hok
        rw [Cluster.ElectionSound, harr] at hes
        simp only [hmsg] at hes
        exact h.majority_votesFor hid hr (hes hr ht hg hm)
      · refine hone.imp_right fun hone t hrole hterm w hw => ?_
        -- The new leader and any other leader of the term both led in this run.
        obtain ⟨hwm, c₀, hc₀, hl⟩ := h.led t w hw
        refine hone c₀ (List.mem_cons_of_mem _ hc₀) _ List.mem_cons_self w hwm _ hid t hl ?_
        simp only [Cluster.Leads, Cluster.runAt, Function.update_self, hmsg]
        exact ⟨hrole, hterm⟩
  | clientRequest req => exact ⟨s, hn.idle hs (by simp) (by simp)⟩
  | clientResponse resp => exact ⟨s, hn.idle hs (by simp) (by simp)⟩

/-- Each step of the cluster keeps the relation, and is a number of protocol steps of one
node. -/
theorem step (h : Sim m f tr c s) (hf : f.Sound m ok) {a : Action} (hok : ok c a)
    (hstep : m.step c a = some c') (hone : f.votes ∨ m.OneLeaderPerTerm (c' :: tr)) :
    ∃ s', Sim m f (c' :: tr) c' s' ∧ ∃ i, Steps i s s' := by
  cases Membership.moves_of_step hstep with
  | @startElection id hid =>
      have hshort : c.Short (.startElection id) := hf.short c _ hok
      obtain ⟨s', hr⟩ := (h.nodes id hid).startElection (h.setting hf hid)
        (fun t w hw => (h.led t w hw).1) hshort
      exact ⟨s', h.runAt hid hr _ rfl, id, hr.steps⟩
  | @sendHeartbeats id hid =>
      have hr : Refines m f s s id none _ := (h.nodes id hid).sendHeartbeats (h.setting hf hid)
      exact ⟨s, h.runAt hid hr _ rfl, id, hr.steps⟩
  | @propose id command hid =>
      have hshort : c.Short (.propose id command) := hf.short c _ hok
      obtain ⟨s', hr⟩ := (h.nodes id hid).propose (h.setting hf hid) hshort
      exact ⟨s', (h.runAt hid hr { c.runAt id none (RaftNode.propose command c.proposals) with
        proposals := c.proposals + 1 } rfl).proposals _, id, hr.steps⟩
  | @deliver k p hp hid =>
      obtain ⟨s', hr⟩ := h.deliver hf hok hp hone
      have hnet : Sim m f tr { c with network := c.network.eraseIdx k } s :=
        h.network fun q hq => List.mem_of_mem_eraseIdx hq
      exact ⟨s', hnet.runAt hid hr _ rfl, _, hr.steps⟩
  | drop k =>
      exact ⟨s, (h.network fun q hq => List.mem_of_mem_eraseIdx hq).record rfl, "", .refl⟩
  | @duplicate k p hp =>
      refine ⟨s, (h.network fun q hq => ?_).record rfl, "", .refl⟩
      rcases List.mem_append.mp hq with hq | hq
      · exact hq
      · obtain rfl : q = p := by simpa using hq
        exact List.mem_of_getElem? hp
  | @restart id n hid hnew =>
      have hnodes : ∀ v ∈ m.ids, NodeRel m f s v (Function.update c.nodes id n v) := by
        intro v hv
        by_cases hvi : v = id
        · subst hvi
          rw [Function.update_self]
          exact (h.nodes v hv).restart hnew
        · rw [Function.update_of_ne hvi]
          exact h.nodes v hv
      have hsim : Sim m f tr { c with nodes := Function.update c.nodes id n } s :=
        { h with nodes := hnodes }
      exact ⟨s, hsim.record rfl, id, .refl⟩

end Sim

/-- Every run is related to the protocol. Induction on the run. -/
theorem run_simulated {m : Membership} {f : Tracks} {ok : Cluster → Action → Prop}
    {tr : List Cluster} (hf : f.Sound m ok) (hrun : m.Run ok tr)
    (hone : f.votes ∨ m.OneLeaderPerTerm tr) :
    ∃ c rest s, tr = c :: rest ∧ Sim m f tr c s := by
  induction hrun with
  | start => exact ⟨m.initial, [], State.init, rfl, Sim.initial m f⟩
  | @step c c' rest a hrun hok hstep ih =>
      have hone' := hone.imp_right (·.of_subset fun _ h => List.mem_cons_of_mem _ h)
      obtain ⟨c₁, rest₁, s, heq, hsim⟩ := ih hone'
      obtain ⟨rfl, rfl⟩ := List.cons.inj heq
      obtain ⟨s', hsim', -⟩ := hsim.step hf hok hstep hone
      exact ⟨c', _, s', rfl, hsim'⟩

end RaftEbpf
