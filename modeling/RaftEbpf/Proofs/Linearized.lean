import Mathlib.Data.List.ProdSigma
import RaftEbpf.Lib.Replication.Order
import RaftEbpf.Proofs.PendingRequests
import RaftEbpf.Proofs.ReplicaData

/-!
# `RaftEbpf.Proofs.Linearized`: one order of all acknowledged writes

`linearized_of_sound`: for every run whose steps are sound there is one list of entries such that

* each write that a client was told success for stands in it, at the index the client was told;
* no two clients were told the same index;
* a write that was proposed when another client had been told success stands behind that client's
  write;
* the data of every node, at every moment, is what a prefix of the list makes of no data.

So the writes take effect in one order, the same on all nodes, and the order respects what clients
can observe.

The invariant (`Told`) speaks of the history of outputs and of the protocol's past. When an entry
is appended, what was committed by then holds another entry at its index or ends before it
(`Committed.ne_next`), and it goes on being so.
-/

set_option autoImplicit false

namespace RaftEbpf

open RaftEbpf.Lib (HashMap Prog)
open RaftEbpf.Lib.Replication
open RaftNode

/-! ### What one step emits -/

section
variable {n : RaftNode}

theorem appended_notMem_heartbeats {tx : Sender} {e : LogEntry} :
    .appended tx e ∉ heartbeats n := fun h => absurd rfl ((quiet_heartbeats h).2 tx e)

/-- Only a proposal appends for a channel. -/
theorem appended_notMem_handleMessage {env : MessageEnvelope} {tx : Sender} {e : LogEntry} :
    .appended tx e ∉ ((handleMessage env).run [] n).out := by
  intro h
  unfold handleMessage at h
  cases hm : env.message with
  | appendEntries req =>
      rw [hm] at h
      rcases run_handleAppendEntries_cases n env.sender.asStr req with
        ⟨-, hrun⟩ | ⟨-, -, hrun⟩ | ⟨-, -, n', out, hrun, happ⟩
      · simp [hrun] at h
      · simp [hrun] at h
      · simp only [hrun] at h
        rcases List.mem_append.mp h with h | h
        · obtain ⟨i, d, heq, -⟩ := happ.outputs _ h
          cases heq
        · simp at h
  | appendEntriesResponse resp =>
      rw [hm] at h
      exact nomatch ((pendingStep_handleAppendEntriesResponse _ resp).appended tx e h).1
  | requestVote req =>
      rw [hm] at h
      exact nomatch ((pendingStep_handleRequestVote _ req).appended tx e h).1
  | requestVoteResponse resp =>
      rw [hm] at h
      exact nomatch ((pendingStep_handleRequestVoteResponse _ resp).appended tx e h).1
  | clientRequest req =>
      rw [hm] at h
      cases h
  | clientResponse resp =>
      rw [hm] at h
      cases h

end

/-- What a step adds to the history. -/
structure Emits (m : Membership) (c c' : Cluster) (new : List Emission) : Prop where
  history : c'.history = c.history ++ new
  after : ∀ em ∈ new, ∃ id ∈ m.ids, em.after = c'.nodes id
  /-- An appended entry comes from a leader that had the log before it. -/
  appended : ∀ em ∈ new, ∀ tx e, em.output = .appended tx e → ∃ id ∈ m.ids,
    (c.nodes id).role = .leader ∧ e.term = (c.nodes id).log.currentTerm ∧
    e.index = addOne (c.nodes id).log.lastIndex ∧ (c.nodes id).log.lastIndex < u64Max ∧
    (c'.nodes id).role = .leader ∧ e.term = (c'.nodes id).log.currentTerm ∧
    e.index = (c'.nodes id).log.lastIndex
  /-- It is the first output of its step. -/
  first : new.Pairwise fun _ em => ∀ tx e, em.output ≠ .appended tx e

/-- A handler that appends nothing. -/
theorem Emits.quiet {m : Membership} {c c₀ : Cluster} {id : String} (hid : id ∈ m.ids)
    {cause : Option RaftMessage} {prog : NodeProg Unit} (hhistory : c₀.history = c.history)
    (h : ∀ tx e, .appended tx e ∉ (prog.run [] (c₀.nodes id)).out) :
    ∃ new, Emits m c (c₀.runAt id cause prog) new := by
  have hnone : ∀ em ∈ ((prog.run [] (c₀.nodes id)).out.map fun o =>
      (⟨cause, o, (prog.run [] (c₀.nodes id)).state⟩ : Emission)), ∀ tx e,
      em.output ≠ .appended tx e := by
    intro em hem tx e heq
    obtain ⟨o, ho, rfl⟩ := List.mem_map.mp hem
    exact h tx e (heq ▸ ho)
  refine ⟨_, congrArg (· ++ _) hhistory, fun em hem => ?_, fun em hem tx e heq => ?_, ?_⟩
  · obtain ⟨o, -, rfl⟩ := List.mem_map.mp hem
    show ∃ i ∈ m.ids, _ = Function.update c₀.nodes id _ i
    exact ⟨id, hid, (Function.update_self id _ c₀.nodes).symm⟩
  · exact absurd heq (hnone em hem tx e)
  · exact List.pairwise_of_forall_mem_list fun em _ em' hem' => hnone em' hem'

/-- A leader appends first, and then sends heartbeats. -/
theorem Emits.propose {m : Membership} {c : Cluster} {id : String} (hid : id ∈ m.ids)
    (hrole : (c.nodes id).role = .leader) (hshort : (c.nodes id).log.lastIndex < u64Max)
    (command : Command) (tx : Sender) :
    ∃ new, Emits m c (c.runAt id none (RaftNode.propose command tx)) new := by
  have hself : (c.runAt id none (RaftNode.propose command tx)).nodes id =
      ((RaftNode.propose command tx).run [] (c.nodes id)).state := Function.update_self _ _ _
  have hrun := run_propose [] (c.nodes id) command tx
  rw [if_pos hrole] at hrun
  refine ⟨_, rfl, fun em hem => ?_, fun em hem tx' e heq => ?_, ?_⟩
  · obtain ⟨o, -, rfl⟩ := List.mem_map.mp hem
    exact ⟨id, hid, hself.symm⟩
  · obtain ⟨o, ho, rfl⟩ := List.mem_map.mp hem
    obtain rfl : o = .appended tx' e := heq
    rw [hrun] at ho
    obtain ⟨rfl, rfl⟩ := Output.appended.inj (appended_eq_head ho)
    refine ⟨id, hid, hrole, rfl, rfl, hshort, ?_⟩
    rw [hself, hrun]
    exact ⟨hrole, rfl, rfl⟩
  · rw [hrun, List.map_cons, List.pairwise_cons]
    have hrest : ∀ (n after : RaftNode), ∀ em ∈ (heartbeats n).map (Emission.mk none · after),
        ∀ tx' e, em.output ≠ .appended tx' e := by
      intro n after em hem tx' e heq
      obtain ⟨o, ho, rfl⟩ := List.mem_map.mp hem
      obtain rfl : o = .appended tx' e := heq
      exact appended_notMem_heartbeats ho
    exact ⟨hrest _ _, List.pairwise_of_forall_mem_list fun _ _ em hem => hrest _ _ em hem⟩

/-- The inversion of a step, for its history. -/
theorem emits_of_step {m : Membership} {c c' : Cluster} {a : Action} (hshort : c.Short a)
    (hstep : m.step c a = some c') : ∃ new, Emits m c c' new := by
  cases Membership.moves_of_step hstep with
  | startElection hid =>
      exact Emits.quiet hid rfl fun tx e h => nomatch (pendingStep_startElection.appended tx e h).1
  | sendHeartbeats hid =>
      exact Emits.quiet hid rfl fun tx e h =>
        nomatch (pendingStep_sendHeartbeats.appended tx e h).1
  | @propose id command hid =>
      have hran : ∃ new, Emits m c (c.runAt id none (propose command c.proposals)) new := by
        by_cases hrole : (c.nodes id).role = .leader
        · exact Emits.propose hid hrole hshort command c.proposals
        · refine Emits.quiet hid rfl fun tx e h => ?_
          rw [run_propose, if_neg hrole] at h
          simp at h
      obtain ⟨new, h⟩ := hran
      exact ⟨new, h.history, h.after, h.appended, h.first⟩
  | @deliver k p hp hid =>
      have hhistory : ({ c with network := c.network.eraseIdx k } : Cluster).history = c.history :=
        rfl
      exact Emits.quiet hid hhistory fun tx e h => appended_notMem_handleMessage h
  | drop k => exact ⟨[], (List.append_nil _).symm, by simp, by simp, List.Pairwise.nil⟩
  | duplicate hp => exact ⟨[], (List.append_nil _).symm, by simp, by simp, List.Pairwise.nil⟩
  | restart hid hnew => exact ⟨[], (List.append_nil _).symm, by simp, by simp, List.Pairwise.nil⟩

/-! ### The invariant -/

/-- What the protocol's past says about the outputs so far. -/
structure Told (m : Membership) (s : Past) (history : List Emission) : Prop where
  /-- A success is about an entry of a committed prefix, at its index. -/
  success : ∀ em ∈ history, ∀ tx i, em.output = .reply tx (.success i) →
    ∃ u P e, Committed m.ids s u P ∧ 0 < i ∧ P[i - 1]? = some e ∧ em.after.log.get i = some e ∧
      e.index = i
  /-- An appended entry is no longer than the log of the leader of its term. -/
  appended : ∀ em ∈ history, ∀ tx e, em.output = .appended tx e →
    s.leader e.term ≠ none ∧ e.index ≤ (s.llog e.term).length
  /-- An entry that is appended after a success has no place in a prefix that reaches it. -/
  after : history.Pairwise fun em em' => ∀ tx i tx' e, em.output = .reply tx (.success i) →
    em'.output = .appended tx' e →
      ∃ u P, Committed m.ids s u P ∧ i ≤ P.length ∧ P[e.index - 1]? ≠ some e
  /-- The entries of one term are appended at growing indexes. -/
  growing : history.Pairwise fun em em' => ∀ tx e tx' e', em.output = .appended tx e →
    em'.output = .appended tx' e' → e.term = e'.term → e.index < e'.index

namespace Told

variable {m : Membership} {s s' : Past} {history new : List Emission}

theorem nil : Told m s [] where
  success := by simp
  appended := by simp
  after := List.Pairwise.nil
  growing := List.Pairwise.nil

/-- It goes on holding. -/
theorem later (h : Told m s history) (hs : Later s s') : Told m s' history where
  success em hem tx i heq := by
    obtain ⟨u, P, e, hP, hrest⟩ := h.success em hem tx i heq
    exact ⟨u, P, e, hP.later hs, hrest⟩
  appended em hem tx e heq := by
    obtain ⟨hled, hle⟩ := h.appended em hem tx e heq
    exact ⟨hs.led hled, hle.trans (hs.prefix_llog hled).length_le⟩
  after := h.after.imp fun hpair tx i tx' e hreply happ => by
    obtain ⟨u, P, hP, hrest⟩ := hpair tx i tx' e hreply happ
    exact ⟨u, P, hP.later hs, hrest⟩
  growing := h.growing

variable {f : Tracks} {tr tr' : List Cluster} {c c' : Cluster}

/-- What a step adds. What is told in it is read off the state after it, what is appended in it is
compared with the past before it. -/
theorem append (h : Told m s c.history) (hsim : Sim m f tr c s) (hsim' : Sim m f tr' c' s')
    (hcommits : f.commits) (hlater : Later s s') (hnew : Emits m c c' new)
    (htrue : SuccessTrue c') : Told m s' c'.history := by
  -- An entry that this step appends comes behind all that the leader of its term had.
  have hbehind : ∀ em ∈ new, ∀ tx e, em.output = .appended tx e →
      e.index = (s.llog e.term).length + 1 := by
    intro em hem tx e heq
    obtain ⟨id, hid, hrole, hterm, hindex, hshort, -⟩ := hnew.appended em hem tx e heq
    have hn := hsim.nodes id hid
    have hlog : s.log id = s.llog e.term := by
      rw [hn.leads_log hsim.inv hrole, ← hn.term, hterm]
    rw [hindex, addOne_of_lt hshort, hn.log.lastIndex, hlog]
  have hold := h.later hlater
  rw [hnew.history]
  constructor
  · intro em hem tx i heq
    rcases List.mem_append.mp hem with hem | hem
    · exact hold.success em hem tx i heq
    · obtain ⟨id, hid, hafter⟩ := hnew.after em hem
      have hmem : em ∈ c'.history := hnew.history ▸ List.mem_append_right _ hem
      obtain ⟨hle, ⟨e, happ⟩, hget⟩ := htrue em hmem tx i heq
      have hget := hget e happ
      have hn := hsim'.nodes id hid
      rw [hafter] at hle hget
      obtain ⟨k, rfl, hk⟩ := (get_of_represents hn.log.mem).mp hget
      rcases hn.commit hcommits with h0 | ⟨u, P, hP, -, hlen, hpre⟩
      · omega
      · -- The node's own log has the committed prefix up to its commit index.
        have hPk : P[k]? = some e := by
          have hin : (P.take (c'.nodes id).commitIndex)[k]? = P[k]? :=
            List.getElem?_take_of_lt (by omega)
          have hlt : k < P.length := by omega
          have hlog := getElem?_of_prefix hpre (hin.trans (List.getElem?_eq_getElem hlt))
          rw [List.getElem?_eq_getElem hlt, ← hlog, hk]
        exact ⟨u, P, e, hP, Nat.succ_pos k, hPk, hafter ▸ hget, hn.log.numbered k e hk⟩
  · intro em hem tx e heq
    rcases List.mem_append.mp hem with hem | hem
    · exact hold.appended em hem tx e heq
    · obtain ⟨id, hid, -, -, -, -, hrole, hterm, hindex⟩ := hnew.appended em hem tx e heq
      have hn := hsim'.nodes id hid
      have hled : s'.leader e.term = some id := by
        rw [hterm, hn.term]
        exact hn.leader hrole
      have hlog : s'.log id = s'.llog e.term := by
        rw [hn.leads_log hsim'.inv hrole, ← hn.term, hterm]
      refine ⟨hled ▸ Option.some_ne_none id, ?_⟩
      rw [hindex, hn.log.lastIndex, hlog]
  · refine List.pairwise_append.mpr ⟨hold.after, ?_, fun em hem em' hem' => ?_⟩
    · exact hnew.first.imp fun hnone _ _ tx' e _ happ => absurd happ (hnone tx' e)
    · intro tx i tx' e hreply happ
      obtain ⟨u, P, d, hP, hi, hd, -⟩ := h.success em hem tx i hreply
      have hlen := (List.getElem?_eq_some_iff.mp hd).1
      refine ⟨u, P, hP.later hlater, by omega, ?_⟩
      rw [hbehind em' hem' tx' e happ]
      exact hP.ne_next hsim.inv e
  · refine List.pairwise_append.mpr ⟨hold.growing, ?_, fun em hem em' hem' => ?_⟩
    · exact hnew.first.imp fun hnone _ _ tx' e' _ happ => absurd happ (hnone tx' e')
    · intro tx e tx' e' happ happ' hterm
      obtain ⟨-, hle⟩ := h.appended em hem tx e happ
      rw [hbehind em' hem' tx' e' happ', ← hterm]
      omega

end Told

/-! ### Runs -/

/-- The conditions on the steps of a run, with counters that stay short. -/
def Cluster.Trusted (m : Membership) (c : Cluster) (a : Action) : Prop :=
  (c.Sound m a ∧ c.CountersShort m) ∧ c.PendingSound a

instance (m : Membership) (c : Cluster) (a : Action) : Decidable (c.Trusted m a) :=
  inferInstanceAs (Decidable (_ ∧ _))

theorem sound_of_trusted {m : Membership} :
    Tracks.Sound m ⟨True, True, True⟩ (Cluster.Trusted m) :=
  ⟨fun _ _ h => h.1.1.1, fun _ _ _ h => h.1.1.2.1, fun _ _ _ h => h.1.1.2.2.1,
    fun _ _ _ h => h.1.1.2.2.2, fun _ => trivial, fun _ => trivial⟩

/-- The last state of a run, with a moment of the protocol that its outputs tell the truth about.
Each state before it is related to an earlier moment. Induction on the run. -/
theorem run_told {m : Membership} {tr : List Cluster} (hrun : m.Run (Cluster.Trusted m) tr) :
    ∃ c rest s, tr = c :: rest ∧ Sim m ⟨True, True, True⟩ tr c s ∧ PendingInv c ∧
      Told m s c.history ∧
      ∀ c₀ ∈ tr, ∃ tr₀ s₀, Sim m ⟨True, True, True⟩ tr₀ c₀ s₀ ∧ Later s₀ s := by
  induction hrun with
  | start =>
      refine ⟨m.initial, [], State.init, rfl, Sim.initial m _, .initial m, .nil, fun c₀ hc₀ => ?_⟩
      obtain rfl : c₀ = m.initial := by simpa using hc₀
      exact ⟨_, State.init, Sim.initial m _, .refl _⟩
  | @step c c' rest a hrun hok hstep ih =>
      obtain ⟨c₁, rest₁, s, heq, hsim, hpending, htold, hpast⟩ := ih
      obtain ⟨rfl, rfl⟩ := List.cons.inj heq
      obtain ⟨s', hsim', i, hsteps⟩ := hsim.step sound_of_trusted hok hstep (Or.inl trivial)
      have hlater := (hsteps.grows hsim.inv).later
      have hpending' := hpending.step hok.2 hstep
      obtain ⟨new, hnew⟩ := emits_of_step hok.1.1.1 hstep
      refine ⟨c', _, s', rfl, hsim', hpending', ?_, fun c₀ hc₀ => ?_⟩
      · exact htold.append hsim hsim' trivial hlater hnew hpending'.successes
      · rcases List.mem_cons.mp hc₀ with rfl | hc₀
        · exact ⟨_, s', hsim', .refl s'⟩
        · obtain ⟨tr₀, s₀, hsim₀, hpre⟩ := hpast c₀ hc₀
          exact ⟨tr₀, s₀, hsim₀, hpre.trans hlater⟩

/-- `L` is an order of the writes of a run that ends in `c`. -/
structure Linearizes (m : Membership) (tr : List Cluster) (c : Cluster) (L : List LogEntry) :
    Prop where
  /-- What a client was told is true of the order. -/
  success : ∀ em ∈ c.history, ∀ tx i, em.output = .reply tx (.success i) →
    0 < i ∧ ∃ e, c.Appended tx e ∧ L[i - 1]? = some e
  /-- No two clients were told the same index. -/
  distinct : ∀ em ∈ c.history, ∀ em' ∈ c.history, ∀ tx tx' i, em.output = .reply tx (.success i) →
    em'.output = .reply tx' (.success i) → tx = tx'
  /-- Where one client was told success before the other's write was taken, its write is first. -/
  realTime : c.history.Pairwise fun em em' => ∀ tx i tx' e, em.output = .reply tx (.success i) →
    em'.output = .appended tx' e →
      ∀ em'' ∈ c.history, ∀ j, em''.output = .reply tx' (.success j) → i < j
  /-- At every moment every node holds what the first writes made. -/
  data : ∀ c₀ ∈ tr, ∀ id ∈ m.ids, (c₀.nodes id).lastApplied ≤ L.length ∧
    (c₀.nodes id).stateMachine.data = replay (L.take (c₀.nodes id).lastApplied)

/-- Two entries of one history that are appended and equal are appended by one output. -/
theorem Told.eq_of_appended {m : Membership} {s : Past} {history : List Emission}
    (h : Told m s history) {em em' : Emission} (hem : em ∈ history) (hem' : em' ∈ history)
    {tx tx' : Sender} {e : LogEntry} (happ : em.output = .appended tx e)
    (happ' : em'.output = .appended tx' e) : tx = tx' := by
  -- Of two outputs one comes first, and the entry of the other one has a greater index.
  obtain ⟨p, hp, rfl⟩ := List.getElem_of_mem hem
  obtain ⟨q, hq, rfl⟩ := List.getElem_of_mem hem'
  have hgrowing := List.pairwise_iff_getElem.mp h.growing
  rcases Nat.lt_trichotomy p q with hlt | rfl | hlt
  · exact absurd (hgrowing p q hp hq hlt tx e tx' e happ happ' rfl) (Nat.lt_irrefl _)
  · exact (Output.appended.inj (happ.symm.trans happ')).1
  · exact absurd (hgrowing q p hq hp hlt tx' e tx e happ' happ rfl) (Nat.lt_irrefl _)

section
variable {m : Membership} {f : Tracks} {tr : List Cluster} {c : Cluster} {s : Past}

/-- One committed prefix has the entries of all successes told. -/
theorem Told.exists_order (h : Told m s c.history) (hsim : Sim m f tr c s) (hv : f.votes) :
    ∃ L, Settled m.ids s L ∧ ∀ em ∈ c.history, ∀ tx i, em.output = .reply tx (.success i) →
      ∃ e, 0 < i ∧ L[i - 1]? = some e ∧ em.after.log.get i = some e ∧ e.index = i := by
  obtain ⟨L, hL, hall⟩ := exists_upper hsim.inv hsim.ackInv (hsim.quorate hv)
    (fun (em : Emission) P => ∀ tx i, em.output = .reply tx (.success i) →
      ∃ e, 0 < i ∧ P[i - 1]? = some e ∧ em.after.log.get i = some e ∧ e.index = i) c.history
    (by
      intro em hem
      by_cases hreply : ∃ tx i, em.output = .reply tx (.success i)
      · obtain ⟨tx, i, hreply⟩ := hreply
        obtain ⟨u, P, e, hP, hrest⟩ := h.success em hem tx i hreply
        refine ⟨P, Or.inr ⟨u, hP⟩, fun tx' i' hreply' => ?_⟩
        obtain ⟨rfl, hresult⟩ := Output.reply.inj (hreply.symm.trans hreply')
        obtain rfl := ProposeResult.success.inj hresult
        exact ⟨e, hrest⟩
      · exact ⟨[], Or.inl rfl, fun tx i h => absurd ⟨tx, i, h⟩ hreply⟩)
  refine ⟨L, hL, fun em hem tx i hreply => ?_⟩
  obtain ⟨P, hP, hpre⟩ := hall em hem
  obtain ⟨e, hi, hget, hrest⟩ := hP tx i hreply
  exact ⟨e, hi, getElem?_of_prefix hpre hget, hrest⟩

/-- One committed prefix has, at its start, what made the data of each node at each moment. -/
theorem exists_data_order (hsim : Sim m f tr c s) (hv : f.votes) (hc : f.commits)
    (hpast : ∀ c₀ ∈ tr, ∃ tr₀ s₀, Sim m f tr₀ c₀ s₀ ∧ Later s₀ s)
    (hstore : ∀ c₀ ∈ tr, ∀ id ∈ m.ids, StoreOfLog (c₀.nodes id)) :
    ∃ L, Settled m.ids s L ∧ ∀ c₀ ∈ tr, ∀ id ∈ m.ids, (c₀.nodes id).lastApplied ≤ L.length ∧
      (c₀.nodes id).stateMachine.data = replay (L.take (c₀.nodes id).lastApplied) := by
  obtain ⟨L, hL, hall⟩ := exists_upper hsim.inv hsim.ackInv (hsim.quorate hv)
    (fun (x : Cluster × String) P => (x.1.nodes x.2).lastApplied ≤ P.length ∧
      (x.1.nodes x.2).stateMachine.data = replay (P.take (x.1.nodes x.2).lastApplied))
    (tr ×ˢ m.ids)
    (by
      rintro ⟨c₀, id⟩ hx
      obtain ⟨hc₀, hid⟩ := List.mem_product.mp hx
      obtain ⟨tr₀, s₀, hsim₀, hlater⟩ := hpast c₀ hc₀
      have hn := hsim₀.nodes id hid
      have hs := hstore c₀ hc₀ id hid
      have hdata := hs.data
      rw [hn.log.getEntries_one] at hdata
      rcases hn.commit hc with h0 | ⟨u, P, hP, -, hlen, hpre⟩
      · have happlied : (c₀.nodes id).lastApplied = 0 := hs.applied.trans h0
        refine ⟨[], Or.inl rfl, ?_, ?_⟩
        · show (c₀.nodes id).lastApplied ≤ 0
          omega
        · rw [hdata, happlied]
          rfl
      · refine ⟨P, Or.inr ⟨u, hP.later hlater⟩, ?_, ?_⟩
        · show (c₀.nodes id).lastApplied ≤ P.length
          rw [hs.applied]
          exact hlen
        · show (c₀.nodes id).stateMachine.data = replay (P.take (c₀.nodes id).lastApplied)
          have htake := List.prefix_iff_eq_take.mp hpre
          rw [List.length_take, Nat.min_eq_left hlen] at htake
          rw [hdata, hs.applied, htake])
  refine ⟨L, hL, fun c₀ hc₀ id hid => ?_⟩
  obtain ⟨P, ⟨hlen, hdata⟩, hpre⟩ := hall (c₀, id) (List.mem_product.mpr ⟨hc₀, hid⟩)
  refine ⟨hlen.trans hpre.length_le, ?_⟩
  obtain ⟨rest, rfl⟩ := hpre
  rw [hdata, List.take_append_of_le_length hlen]

end

/-- In every run whose steps are sound and whose counters stay short, restarts and duplicates
included, all acknowledged writes and all replicas follow one order, which keeps the order that
clients can see. -/
theorem linearized_of_trusted {m : Membership} {c : Cluster} {rest : List Cluster}
    (hrun : m.Run (Cluster.Trusted m) (c :: rest))
    (hshort : ∀ c₀ ∈ c :: rest, c₀.CountersShort m) :
    ∃ L, Linearizes m (c :: rest) c L := by
  obtain ⟨c₁, rest₁, s, heq, hsim, hpending, htold, hpast⟩ := run_told hrun
  obtain ⟨rfl, rfl⟩ := List.cons.inj heq
  have hstore := storeOfLog_of_sound (hrun.mono fun _ _ h => h.1) hshort
  obtain ⟨L₁, hL₁, hsuccess⟩ := htold.exists_order hsim trivial
  obtain ⟨L₂, hL₂, hdata⟩ := exists_data_order hsim trivial trivial hpast hstore
  -- A success is about the entry that was appended for the client's channel.
  have hown : ∀ em ∈ c.history, ∀ tx i, em.output = .reply tx (.success i) → ∀ em' ∈ c.history,
      ∀ e, em'.output = .appended tx e → 0 < i ∧ e.index = i ∧ L₁[i - 1]? = some e := by
    intro em hem tx i hreply em' hem' e happ
    obtain ⟨e', hi, hget, hlog, hindex⟩ := hsuccess em hem tx i hreply
    obtain ⟨-, -, hentry⟩ := hpending.successes em hem tx i hreply
    obtain rfl := Option.some.inj (hlog.symm.trans (hentry e ⟨em', hem', happ⟩))
    exact ⟨hi, hindex, hget⟩
  have hfinal : ∃ L, L₁ <+: L ∧ L₂ <+: L := by
    rcases hL₁.agree hsim.inv hsim.ackInv (hsim.quorate trivial) hL₂ with hpre | hpre
    · exact ⟨L₂, hpre, List.prefix_refl L₂⟩
    · exact ⟨L₁, List.prefix_refl L₁, hpre⟩
  obtain ⟨L, hpre₁, hpre₂⟩ := hfinal
  refine ⟨L, ?_, ?_, ?_, ?_⟩
  · intro em hem tx i hreply
    obtain ⟨-, ⟨e, em', hem', happ⟩, -⟩ := hpending.successes em hem tx i hreply
    obtain ⟨hi, -, hget⟩ := hown em hem tx i hreply em' hem' e happ
    exact ⟨hi, e, ⟨em', hem', happ⟩, getElem?_of_prefix hpre₁ hget⟩
  · intro em hem em' hem' tx tx' i hreply hreply'
    obtain ⟨-, ⟨e, d, hd, happ⟩, -⟩ := hpending.successes em hem tx i hreply
    obtain ⟨-, ⟨e', d', hd', happ'⟩, -⟩ := hpending.successes em' hem' tx' i hreply'
    have hget := (hown em hem tx i hreply d hd e happ).2.2
    have hget' := (hown em' hem' tx' i hreply' d' hd' e' happ').2.2
    obtain rfl := Option.some.inj (hget.symm.trans hget')
    exact htold.eq_of_appended hd hd' happ happ'
  · refine htold.after.imp_of_mem fun hem hem' hpair tx i tx' e hreply happ em'' hem'' j hj => ?_
    obtain ⟨hpos, hindex, hget⟩ := hown em'' hem'' tx' j hj _ hem' e happ
    obtain ⟨u, P, hP, hlen, hne⟩ := hpair tx i tx' e hreply happ
    -- The prefix that was told about has another entry at `j`, so it does not reach `j`.
    rcases hL₁ with rfl | ⟨v, hL₁⟩
    · cases hget
    · by_contra hle
      have hsame := hP.getElem?_eq hsim.inv hsim.ackInv (hsim.quorate trivial) hL₁
        (show j - 1 < P.length by omega) hget
      rw [← hindex] at hsame
      exact hne hsame
  · intro c₀ hc₀ id hid
    obtain ⟨hlen, heq⟩ := hdata c₀ hc₀ id hid
    refine ⟨hlen.trans hpre₂.length_le, ?_⟩
    obtain ⟨rest, rfl⟩ := hpre₂
    rw [heq, List.take_append_of_le_length hlen]

/-- Three nodes: A commits a write for one client and starts again. B, elected with the vote of C,
commits a delete for another one. -/
theorem linearized_of_trusted_three :
    let tr := Membership.three.trace (Cluster.Trusted .three) [.startElection "A", .deliver 0,
      .deliver 1, .propose "A" (.put (.pushStr 256 "k") (.collectTake 1024 [1, 2])), .deliver 4,
      .deliver 4, .sendHeartbeats "A", .deliver 5, .restart "A", .startElection "B", .deliver 6,
      .deliver 7, .propose "B" (.delete (.pushStr 256 "k")), .sendHeartbeats "B", .deliver 11,
      .deliver 12, .sendHeartbeats "B", .deliver 12, .deliver 13]
    ∃ c rest, tr = c :: rest ∧ Output.reply 0 (.success 1) ∈ c.history.map (·.output) ∧
      Output.reply 1 (.success 2) ∈ c.history.map (·.output) ∧
      ∃ L, Linearizes .three (c :: rest) c L := by
  intro tr
  have hrun : Membership.three.Run (Cluster.Trusted .three) tr := Lib.run_trace (by decide +kernel)
  have hshort : ∀ c₀ ∈ tr, c₀.CountersShort .three := by decide +kernel
  have hcons : tr = tr.headD Membership.three.initial :: tr.tail := rfl
  refine ⟨_, _, hcons, by decide +kernel, by decide +kernel, ?_⟩
  rw [hcons] at hrun hshort
  exact linearized_of_trusted hrun hshort

end RaftEbpf
