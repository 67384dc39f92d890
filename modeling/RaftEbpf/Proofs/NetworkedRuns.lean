import RaftEbpf.Proofs.Connections
import RaftEbpf.Proofs.SentInRange

/-!
# `RaftEbpf.Proofs.NetworkedRuns`: the connections do what the soup does

Members that talk over TCP (`Networked`) go through states of `Cluster`. The envelopes in flight
there are those in the outgoing channels and those that the connections still bring
(`Networked.Refines`), in any order. A send that fails and a reader that ends lose envelopes, no
envelope arrives twice, and none arrives that was not sent.

* `cluster_run_of_networked_run`: for each run of the daemons over TCP there is a run of the cluster
  with loss, delay and restarts only, in which the members go through the same states.

What is asked of the network is that a connection on which a write has failed takes no more bytes,
that the members have addresses of their own, and that `serde_json` reads what it has written.
-/

set_option autoImplicit false

namespace RaftEbpf

open RaftEbpf.Lib (HashMap Prog pool)
open Network

/-- The members are in the same states, and the envelopes in flight are the same. -/
structure Networked.Refines (m : Membership) (coming : String → Nat → List MessageEnvelope)
    (s : Networked) (c : Cluster) : Prop where
  nodes : ∀ id ∈ m.ids, c.nodes id = (s.hosts id).node
  proposals : c.proposals = s.proposals
  inRange : ∀ id ∈ m.ids, (s.hosts id).node.InRange
  outgoing : ∀ id ∈ m.ids, ∀ env ∈ (s.hosts id).outgoing, env.InRange
  wired : ∀ id ∈ m.ids, (s.hosts id).Wired m (coming id)
  flight : (c.network.map (·.envelope)).Perm
    (pool m.ids fun id => (s.hosts id).outgoing ++ (s.hosts id).coming (coming id))

/-- The faults that a network of connections has. -/
abbrev Membership.LossyRun (m : Membership) (tr : List Cluster) : Prop :=
  m.Run (fun _ a => a.isLossyOrRestart = true) tr

/-- Envelopes of a program, in the channel and in the soup. -/
theorem map_packetOf (cause : Option RaftMessage) (after : RaftNode) (out : List Output) :
    (out.filterMap (Cluster.packetOf cause after)).map (·.envelope) =
      out.filterMap Host.sentOf := by
  induction out with
  | nil => rfl
  | cons o out ih =>
      cases o with
      | send env =>
          simp only [List.filterMap_cons, Cluster.packetOf, Host.sentOf, List.map_cons] at ih ⊢
          rw [ih]
      | reply _ _ | elected _ | appended _ _ | applied _ _ =>
          simpa only [List.filterMap_cons, Cluster.packetOf, Host.sentOf] using ih

/-- Envelopes are lost, one after the other. -/
theorem Membership.LossyRun.drops {m : Membership} {c : Cluster} {tr : List Cluster}
    (hrun : m.LossyRun (c :: tr)) (lost : List MessageEnvelope) {left : List MessageEnvelope}
    (hperm : (c.network.map (·.envelope)).Perm (lost ++ left)) :
    ∃ net tr', m.LossyRun ({ c with network := net } :: tr') ∧
      (net.map (·.envelope)).Perm left ∧ ∀ x ∈ c :: tr, x ∈ { c with network := net } :: tr' := by
  induction lost generalizing c tr with
  | nil => exact ⟨c.network, tr, hrun, hperm, fun x hx => hx⟩
  | cons env lost ih =>
      obtain ⟨k, p, -, -, hrest⟩ := Lib.exists_getElem?_of_perm_cons hperm
      have hdrop : m.LossyRun ({ c with network := c.network.eraseIdx k } :: c :: tr) :=
        hrun.step rfl (show m.step c (.drop k) = _ from rfl)
      obtain ⟨net, tr', hrun', hperm', hsub⟩ := ih hdrop hrest
      exact ⟨net, tr', hrun', hperm', fun x hx => hsub x (List.mem_cons_of_mem _ hx)⟩

/-- Without those of one member, the envelopes in flight are these. -/
def Networked.Others (m : Membership) (coming : String → Nat → List MessageEnvelope)
    (s : Networked) (id : String) (others : List MessageEnvelope) : Prop :=
  ∀ (hosts' : String → Host) (coming' : String → Nat → List MessageEnvelope),
    (∀ a ∈ m.ids, a ≠ id → hosts' a = s.hosts a ∧ coming' a = coming a) →
      (pool m.ids fun a => (hosts' a).outgoing ++ (hosts' a).coming (coming' a)).Perm
        ((hosts' id).outgoing ++ (hosts' id).coming (coming' id) ++ others)

theorem Networked.exists_others (m : Membership) (coming : String → Nat → List MessageEnvelope)
    (s : Networked) {id : String} (hid : id ∈ m.ids) : ∃ others, s.Others m coming id others := by
  obtain ⟨others, hperm⟩ := Lib.exists_pool_perm m.nodup hid
    fun a => (s.hosts a).outgoing ++ (s.hosts a).coming (coming a)
  refine ⟨others, fun hosts' coming' hsame => ?_⟩
  refine hperm (fun a => (hosts' a).outgoing ++ (hosts' a).coming (coming' a)) fun a ha hai => ?_
  obtain ⟨hhost, hcoming⟩ := hsame a ha hai
  rw [hhost, hcoming]

/-- The addresses that a network manager is filled with are those of members. -/
theorem peerAddresses_manager (m : Membership) (id : String) (p address : String)
    (h : (m.manager id).peerAddresses.lookup p = some address) :
    p ∈ m.ids ∧ m.address p = address := by
  have hfold : ∀ (ps : List String) (n : NetworkManager), (∀ q ∈ ps, q ∈ m.ids) →
      (∀ q a, n.peerAddresses.lookup q = some a → q ∈ m.ids ∧ m.address q = a) →
      ∀ q a, ((ps.map fun q => (q, m.address q)).foldl
        (fun n q => n.registerPeer q.1 q.2) n).peerAddresses.lookup q = some a →
          q ∈ m.ids ∧ m.address q = a := by
    intro ps
    induction ps with
    | nil => exact fun n _ hn => hn
    | cons q ps ih =>
        intro n hps hn
        refine ih _ (fun q' hq' => hps q' (List.mem_cons_of_mem _ hq')) fun q' a ha => ?_
        have ha : (n.peerAddresses.insert q (m.address q)).lookup q' = some a := ha
        by_cases hq : q' = q
        · subst hq
          rw [AList.lookup_insert] at ha
          exact ⟨hps q' List.mem_cons_self, Option.some.inj ha⟩
        · rw [AList.lookup_insert_ne hq] at ha
          exact hn q' a ha
  refine hfold _ .new (fun q hq => (List.mem_filter.mp hq).1) (fun q a ha => ?_) p address h
  rw [NetworkManager.new, AList.lookup_empty] at ha
  cases ha

namespace Networked.Refines

variable {m : Membership} {coming : String → Nat → List MessageEnvelope} {s : Networked}
  {c c' : Cluster} {id : String} {others : List MessageEnvelope}

/-- The envelopes in flight, those of one member apart. -/
theorem flight_apart (h : s.Refines m coming c) (hothers : s.Others m coming id others) :
    (c.network.map (·.envelope)).Perm
      ((s.hosts id).outgoing ++ (s.hosts id).coming (coming id) ++ others) :=
  h.flight.trans (hothers s.hosts coming fun _ _ _ => ⟨rfl, rfl⟩)

/-- A member runs a handler. What it sends is in its channel, and in the soup. -/
theorem ran (h : s.Refines m coming c) (hid : id ∈ m.ids) (cause : Option RaftMessage)
    {prog : NodeProg Unit} (hran : (prog.run [] (s.hosts id).node).state.InRange ∧
      ∀ env, .send env ∈ (prog.run [] (s.hosts id).node).out → env.InRange)
    (c' : Cluster) (hnodes : c'.nodes = (c.runAt id cause prog).nodes)
    (hnet : c'.network = (c.runAt id cause prog).network) :
    Networked.Refines m coming
      ⟨Function.update s.hosts id ((s.hosts id).run prog), c'.proposals⟩ c' := by
  have hother : ∀ {a : String}, a ≠ id →
      Function.update s.hosts id ((s.hosts id).run prog) a = s.hosts a := fun ha =>
    Function.update_of_ne ha _ _
  constructor
  · intro a ha
    rw [hnodes]
    by_cases hai : a = id
    · subst hai
      simp only [Cluster.runAt, Function.update_self, h.nodes a ha]
      rfl
    · simp only [Cluster.runAt, Function.update_of_ne hai]
      exact h.nodes a ha
  · rfl
  · intro a ha
    by_cases hai : a = id
    · subst hai
      simp only [Function.update_self]
      exact hran.1
    · simp only [hother hai]
      exact h.inRange a ha
  · intro a ha env henv
    by_cases hai : a = id
    · subst hai
      simp only [Function.update_self] at henv
      rcases List.mem_append.mp henv with henv | henv
      · exact h.outgoing a ha env henv
      · obtain ⟨o, ho, hsent⟩ := List.mem_filterMap.mp henv
        cases o with
        | send env' =>
            obtain rfl := Option.some.inj hsent
            exact hran.2 _ ho
        | _ => cases hsent
    · simp only [hother hai] at henv
      exact h.outgoing a ha env henv
  · intro a ha
    by_cases hai : a = id
    · subst hai
      simp only [Function.update_self]
      exact (h.wired a ha).same rfl rfl
    · simp only [hother hai]
      exact h.wired a ha
  · obtain ⟨others, hothers⟩ := Networked.exists_others m coming s hid
    have hnew := hothers (Function.update s.hosts id ((s.hosts id).run prog)) coming
      fun a _ hai => ⟨hother hai, rfl⟩
    rw [Function.update_self] at hnew
    refine List.Perm.trans ?_ hnew.symm
    have hold := (h.flight_apart hothers).append_right
      ((prog.run [] (s.hosts id).node).out.filterMap Host.sentOf)
    rw [hnet]
    simp only [Cluster.runAt, List.map_append, map_packetOf, h.nodes id hid]
    refine hold.trans ?_
    show ((s.hosts id).outgoing ++ (s.hosts id).coming (coming id) ++ others ++ _).Perm
      ((s.hosts id).outgoing ++ _ ++ (s.hosts id).coming (coming id) ++ others)
    rw [List.append_assoc, List.append_assoc, List.append_assoc, List.append_assoc]
    refine List.Perm.append_left _ ?_
    rw [← List.append_assoc]
    exact List.perm_append_comm

/-- What a handler adds to the soup is in the channel of its member. -/
theorem sent_outgoing (h : s.Refines m coming c) (hid : id ∈ m.ids) {prog : NodeProg Unit}
    {cause : Option RaftMessage} (hnet : c'.network = (c.runAt id cause prog).network) {n : Nat} :
    ∀ env ∈ c'.network.map (·.envelope), env ∈ c.network.map (·.envelope) ∨ ∃ a ∈ m.ids,
      env ∈ ((⟨Function.update s.hosts id ((s.hosts id).run prog), n⟩ : Networked).hosts
        a).outgoing := by
  intro env henv
  rw [hnet, Cluster.runAt, List.map_append, map_packetOf, h.nodes id hid] at henv
  rcases List.mem_append.mp henv with henv | henv
  · exact Or.inl henv
  · refine Or.inr ⟨id, hid, ?_⟩
    simp only [Function.update_self]
    exact List.mem_append_right _ henv

/-- Something happens to the channel or to the connections of a member. -/
theorem changed (h : s.Refines m coming c) (hothers : s.Others m coming id others) (h' : Host)
    {coming' : Nat → List MessageEnvelope} (hnode : h'.node = (s.hosts id).node)
    (houtgoing : ∀ env ∈ h'.outgoing, env ∈ (s.hosts id).outgoing) (hwired : h'.Wired m coming')
    (c' : Cluster) (hnodes : c'.nodes = c.nodes) (hproposals : c'.proposals = c.proposals)
    (hflight : (c'.network.map (·.envelope)).Perm
      (h'.outgoing ++ h'.coming coming' ++ others)) :
    Networked.Refines m (Function.update coming id coming')
      { s with hosts := Function.update s.hosts id h' } c' := by
  have hother : ∀ {a : String}, a ≠ id → Function.update s.hosts id h' a = s.hosts a ∧
      Function.update coming id coming' a = coming a := fun ha =>
    ⟨Function.update_of_ne ha _ _, Function.update_of_ne ha _ _⟩
  constructor
  · intro a ha
    by_cases hai : a = id
    · subst hai
      simp only [Function.update_self]
      rw [hnodes, hnode]
      exact h.nodes a ha
    · simp only [(hother hai).1]
      rw [hnodes]
      exact h.nodes a ha
  · exact hproposals.trans h.proposals
  · intro a ha
    by_cases hai : a = id
    · subst hai
      simp only [Function.update_self]
      rw [hnode]
      exact h.inRange a ha
    · simp only [(hother hai).1]
      exact h.inRange a ha
  · intro a ha env henv
    by_cases hai : a = id
    · subst hai
      simp only [Function.update_self] at henv
      exact h.outgoing a ha env (houtgoing env henv)
    · simp only [(hother hai).1] at henv
      exact h.outgoing a ha env henv
  · intro a ha
    by_cases hai : a = id
    · subst hai
      simp only [Function.update_self]
      exact hwired
    · simp only [(hother hai).1, (hother hai).2]
      exact h.wired a ha
  · have hnew := hothers (Function.update s.hosts id h') (Function.update coming id coming')
      fun a _ hai => hother hai
    rw [Function.update_self, Function.update_self] at hnew
    exact hflight.trans hnew.symm

variable {tr : List Cluster} {fromSlice : List UInt8 → Option MessageEnvelope}

/-- The cluster can follow: it goes on with a run of which all this is true again. New envelopes of
the soup are in a channel. -/
def Followed (m : Membership) (c : Cluster) (tr : List Cluster) (s' : Networked) : Prop :=
  ∃ coming' c' tr', m.LossyRun (c' :: tr') ∧ s'.Refines m coming' c' ∧
    (∀ x ∈ c :: tr, x ∈ c' :: tr') ∧
    ∀ env ∈ c'.network.map (·.envelope), env ∈ c.network.map (·.envelope) ∨
      ∃ id ∈ m.ids, env ∈ (s'.hosts id).outgoing

/-- What a connection brings is in the soup. -/
theorem mem_network (h : s.Refines m coming c) (hid : id ∈ m.ids) {k : Nat} {env : MessageEnvelope}
    (hk : k < (s.hosts id).readers.length) (henv : env ∈ coming id k) :
    env ∈ c.network.map (·.envelope) := by
  refine h.flight.mem_iff.mpr (List.mem_flatMap.mpr ⟨id, hid, List.mem_append_right _ ?_⟩)
  exact List.mem_flatMap.mpr ⟨k, List.mem_range.mpr hk, henv⟩

/-- The network manager takes an envelope from the channel. A connection brings it or it is lost. -/
theorem send (h : s.Refines m coming c) (hrun : m.LossyRun (c :: tr)) (hid : id ∈ m.ids)
    (hdistinct : ∀ a ∈ m.ids, ∀ b ∈ m.ids, m.address a = m.address b → a = b)
    {env : MessageEnvelope} {rest : List MessageEnvelope}
    (hnext : (s.hosts id).outgoing = env :: rest) {link : Link}
    (htcp : s.Tcp (.send id link)) :
    Followed m c tr
      { s with hosts := Function.update s.hosts id (m.sendNext (s.hosts id) env rest link) } := by
  obtain ⟨others, hothers⟩ := Networked.exists_others m coming s hid
  have henv : env.InRange := h.outgoing id hid env (hnext ▸ List.mem_cons_self)
  obtain ⟨coming', hwired, hbrought⟩ := (h.wired id hid).sendNext hdistinct henv rest
    (htcp env (by rw [hnext]; rfl))
  have hnode : (m.sendNext (s.hosts id) env rest link).node = (s.hosts id).node := by
    rw [Membership.sendNext]
    split <;> rfl
  have houtgoing : (m.sendNext (s.hosts id) env rest link).outgoing = rest := by
    rw [Membership.sendNext]
    split <;> rfl
  have hsub : ∀ e ∈ (m.sendNext (s.hosts id) env rest link).outgoing,
      e ∈ (s.hosts id).outgoing := by
    rw [houtgoing, hnext]
    exact fun e he => List.mem_cons_of_mem _ he
  have hold := h.flight_apart hothers
  rw [hnext, List.append_assoc] at hold
  rcases hbrought with hlost | hbrought
  · obtain ⟨net, tr', hrun', hperm, hsub'⟩ := hrun.drops [env] hold
    refine ⟨_, _, tr', hrun', h.changed hothers _ hnode hsub hwired _ rfl rfl ?_, hsub',
      fun e he => Or.inl (hold.mem_iff.mpr (List.mem_cons_of_mem _ (hperm.mem_iff.mp he)))⟩
    rw [houtgoing, List.append_assoc]
    exact hperm.trans ((hlost.symm.append_right others).append_left rest)
  · refine ⟨_, c, tr, hrun, h.changed hothers _ hnode hsub hwired _ rfl rfl ?_, fun x hx => hx,
      fun e he => Or.inl he⟩
    rw [houtgoing, List.append_assoc]
    refine hold.trans (List.Perm.trans ?_ ((hbrought.symm.append_right others).append_left rest))
    exact List.perm_middle.symm

/-- More bytes are read. -/
theorem read (h : s.Refines m coming c) (hrun : m.LossyRun (c :: tr)) (hid : id ∈ m.ids)
    {k count : Nat} {r : Reader} {stream : List UInt8}
    (hr : (s.hosts id).readers[k]? = some r)
    (hstream : (s.hosts id).network.streams[k]? = some stream) (hrunning : r.running = true)
    (hle : r.read + count ≤ stream.length) :
    Followed m c tr { s with
      hosts := Function.update s.hosts id { s.hosts id with
        readers := (s.hosts id).readers.set k { r with
          read := r.read + count
          buf := r.buf ++ (stream.drop r.read).take count } } } := by
  obtain ⟨others, hothers⟩ := Networked.exists_others m coming s hid
  have hwired := (h.wired id hid).read hr hstream hrunning hle
  refine ⟨_, c, tr, hrun, h.changed hothers _ ?_ ?_ hwired _ rfl rfl ?_, fun x hx => hx,
    fun e he => Or.inl he⟩
  · rfl
  · exact fun _ he => he
  have hold := h.flight_apart hothers
  rw [Host.coming, List.length_set]
  exact hold

/-- A message is taken off a connection and handled. In the soup it is delivered. -/
theorem deliver (h : s.Refines m coming c) (hrun : m.LossyRun (c :: tr)) (hid : id ∈ m.ids)
    {k : Nat} {r : Reader} {payload buf : List UInt8} {env : MessageEnvelope}
    (hr : (s.hosts id).readers[k]? = some r) (hrunning : r.running = true)
    (hframe : nextFrame r.buf = .frame payload buf) (hparsed : fromSlice payload = some env)
    (hparse : ∀ env ∈ c.network.map (·.envelope), fromSlice env.toVec = some env) :
    Followed m c tr
      (let hosts := Function.update s.hosts id
        { s.hosts id with readers := (s.hosts id).readers.set k { r with buf } }
      { s with
        hosts := Function.update hosts r.host
          ((hosts r.host).run (RaftNode.handleMessage env)) }) := by
  obtain ⟨others, hothers⟩ := Networked.exists_others m coming s hid
  obtain ⟨first, rest, hcoming, rfl, hfirst, hhost, hwired⟩ :=
    (h.wired id hid).take hr hrunning hframe
  -- The envelope is one of the soup.
  have hlt := (List.getElem?_eq_some_iff.mp hr).1
  rw [hparse first (h.mem_network hid hlt (hcoming ▸ List.mem_cons_self))] at hparsed
  obtain rfl := Option.some.inj hparsed
  obtain ⟨beside, hbeside⟩ := Lib.exists_pool_perm List.nodup_range (List.mem_range.mpr hlt)
    (coming id)
  have hbefore := hbeside (coming id) fun _ _ _ => rfl
  have hafter := hbeside (Function.update (coming id) k rest) fun j _ hj =>
    Function.update_of_ne hj _ _
  rw [hcoming] at hbefore
  rw [Function.update_self] at hafter
  have hold : (c.network.map (·.envelope)).Perm
      (first :: ((s.hosts id).outgoing ++ (rest ++ beside ++ others))) := by
    refine (h.flight_apart hothers).trans ?_
    rw [List.append_assoc]
    exact ((hbefore.append_right others).append_left _).trans List.perm_middle
  obtain ⟨j, p, hp, rfl, hperm⟩ := Lib.exists_getElem?_of_perm_cons hold
  have hmember : r.host ∈ m.ids := (h.wired id hid).hosted k r hr
  have hleft := h.changed hothers
    { s.hosts id with readers := (s.hosts id).readers.set k { r with buf } } rfl
    (fun _ he => he) hwired { c with network := c.network.eraseIdx j } rfl rfl (by
      refine hperm.trans ?_
      rw [Host.coming, List.length_set, List.append_assoc (s.hosts id).outgoing]
      exact (hafter.symm.append_right others).append_left _)
  have hstep : m.step c (.deliver j) = some ({ c with network := c.network.eraseIdx j }.runAt
      p.envelope.recipient.asStr (some p.envelope.message)
      (RaftNode.handleMessage p.envelope)) := by
    rw [Membership.step, hp]
    exact if_pos (hhost ▸ hmember)
  rw [hhost] at hstep
  have hran := hleft.ran hmember (some p.envelope.message)
    ((hleft.inRange r.host hmember).handleMessage hfirst)
    ({ c with network := c.network.eraseIdx j }.runAt r.host (some p.envelope.message)
      (RaftNode.handleMessage p.envelope)) rfl rfl
  have hproposals : ({ c with network := c.network.eraseIdx j }.runAt r.host
      (some p.envelope.message) (RaftNode.handleMessage p.envelope)).proposals = s.proposals :=
    h.proposals
  rw [hproposals] at hran
  refine ⟨_, _, c :: tr, hrun.step rfl hstep, hran, fun x hx => List.mem_cons_of_mem _ hx,
    fun e he => ?_⟩
  refine (hleft.sent_outgoing hmember rfl e he).imp_left fun he => ?_
  obtain ⟨q, hq, rfl⟩ := List.mem_map.mp he
  exact List.mem_map.mpr ⟨q, List.mem_of_mem_eraseIdx hq, rfl⟩

/-- A reading task ends. What its connection still brings is lost. -/
theorem hangUp (h : s.Refines m coming c) (hrun : m.LossyRun (c :: tr)) (hid : id ∈ m.ids)
    {k : Nat} {r : Reader} (hr : (s.hosts id).readers[k]? = some r) :
    Followed m c tr { s with
      hosts := Function.update s.hosts id { s.hosts id with
        readers := (s.hosts id).readers.set k { r with running := false } } } := by
  obtain ⟨others, hothers⟩ := Networked.exists_others m coming s hid
  have hlt := (List.getElem?_eq_some_iff.mp hr).1
  obtain ⟨beside, hbeside⟩ := Lib.exists_pool_perm List.nodup_range (List.mem_range.mpr hlt)
    (coming id)
  have hbefore := hbeside (coming id) fun _ _ _ => rfl
  have hafter := hbeside (Function.update (coming id) k []) fun j _ hj =>
    Function.update_of_ne hj _ _
  rw [Function.update_self, List.nil_append] at hafter
  have hold : (c.network.map (·.envelope)).Perm
      (coming id k ++ ((s.hosts id).outgoing ++ (beside ++ others))) := by
    refine (h.flight_apart hothers).trans ?_
    rw [List.append_assoc]
    refine ((hbefore.append_right others).append_left _).trans ?_
    rw [List.append_assoc]
    exact List.perm_append_comm_assoc _ _ _
  obtain ⟨net, tr', hrun', hperm, hsub⟩ := hrun.drops _ hold
  have hwired := (h.wired id hid).stop hr
  refine ⟨_, _, tr', hrun', h.changed hothers _ ?_ ?_ hwired _ rfl rfl ?_, hsub,
    fun e he => Or.inl (hold.mem_iff.mpr (List.mem_append_right _ (hperm.mem_iff.mp he)))⟩
  · rfl
  · exact fun _ he => he
  refine hperm.trans ?_
  rw [Host.coming, List.length_set, List.append_assoc]
  exact (hafter.symm.append_right others).append_left _

/-- A member starts again. Its channel is lost, and all that was on the way to it. -/
theorem restart (h : s.Refines m coming c) (hrun : m.LossyRun (c :: tr)) (hid : id ∈ m.ids)
    {n : RaftNode}
    (hnew : RaftNode.new id (m.peersOf id) (s.hosts id).node.log.dataDir = some n) :
    Followed m c tr { s with
      hosts := fun a => (Function.update s.hosts id ⟨n, [],
        { m.manager id with streams := (s.hosts id).network.streams },
        (s.hosts id).readers⟩ a).lose id } := by
  have hself : Function.update s.hosts id ⟨n, [],
      { m.manager id with streams := (s.hosts id).network.streams },
      (s.hosts id).readers⟩ id = ⟨n, [],
      { m.manager id with streams := (s.hosts id).network.streams }, (s.hosts id).readers⟩ :=
    Function.update_self _ _ _
  have hother : ∀ {a : String}, a ≠ id → Function.update s.hosts id ⟨n, [],
      { m.manager id with streams := (s.hosts id).network.streams },
      (s.hosts id).readers⟩ a = s.hosts a := fun ha => Function.update_of_ne ha _ _
  generalize hhosts : Function.update s.hosts id ⟨n, [],
      { m.manager id with streams := (s.hosts id).network.streams },
      (s.hosts id).readers⟩ = hosts at hself hother ⊢
  have hreaders : ∀ a, (hosts a).readers = (s.hosts a).readers := by
    intro a
    by_cases ha : a = id
    · rw [ha, hself]
    · rw [hother ha]
  have houtgoing : ∀ a, (hosts a).outgoing.Sublist (s.hosts a).outgoing := by
    intro a
    by_cases ha : a = id
    · rw [ha, hself]
      exact List.nil_sublist _
    · rw [hother ha]
  have hwired : ∀ a ∈ m.ids, (hosts a).Wired m (coming a) := by
    intro a ha
    by_cases hai : a = id
    · subst hai
      rw [hself]
      exact @Host.Wired.started _ _ _ (h.wired a ha)
        { m.manager a with streams := (s.hosts a).network.streams } (peerAddresses_manager m a)
        (NetworkManager.registered_empty _).1 rfl _ rfl rfl
    · rw [hother hai]
      exact h.wired a ha
  -- What the connections bring to the other members.
  let left : String → Nat → List MessageEnvelope := fun a k =>
    if ((hosts a).readers[k]?.map (·.host)) = some id then [] else coming a k
  have hless :
      (pool m.ids fun a =>
          ((hosts a).lose id).outgoing ++ ((hosts a).lose id).coming (left a)).Sublist
        (pool m.ids fun a => (s.hosts a).outgoing ++ (s.hosts a).coming (coming a)) := by
    refine Lib.pool_sublist fun a _ => (houtgoing a).append ?_
    show (pool (List.range ((hosts a).readers.map _).length) (left a)).Sublist _
    rw [List.length_map, hreaders a]
    refine Lib.pool_sublist fun k _ => ?_
    show (if _ then [] else coming a k).Sublist (coming a k)
    split
    · exact List.nil_sublist _
    · exact List.Sublist.refl _
  obtain ⟨lost, hlost⟩ := hless.exists_perm_append
  obtain ⟨net, tr', hrun', hperm, hsub⟩ :=
    hrun.drops _ ((h.flight.trans hlost).trans List.perm_append_comm)
  have hstep : m.step { c with network := net } (.restart id) =
      some { c with nodes := Function.update c.nodes id n, network := net } := by
    rw [← h.nodes id hid] at hnew
    simp only [Membership.step, if_pos hid, hnew, Option.map_some]
  refine ⟨left, _, _, hrun'.step rfl hstep, ?_, fun x hx => List.mem_cons_of_mem _ (hsub x hx),
    fun e he => Or.inl (h.flight.mem_iff.mpr (hless.subset (hperm.mem_iff.mp he)))⟩
  constructor
  · intro a ha
    by_cases hai : a = id
    · subst hai
      show Function.update c.nodes a n a = (hosts a).node
      rw [Function.update_self, hself]
    · show Function.update c.nodes id n a = (hosts a).node
      rw [Function.update_of_ne hai, hother hai]
      exact h.nodes a ha
  · exact h.proposals
  · intro a ha
    show (hosts a).node.InRange
    by_cases hai : a = id
    · subst hai
      rw [hself]
      exact (h.inRange a ha).new hnew
    · rw [hother hai]
      exact h.inRange a ha
  · exact fun a ha env henv => h.outgoing a ha env ((houtgoing a).subset henv)
  · exact fun a ha => (hwired a ha).lose id
  · exact hperm

/-- The cluster can follow each step of the daemons. -/
theorem step (h : s.Refines m coming c) (hrun : m.LossyRun (c :: tr))
    (hdistinct : ∀ a ∈ m.ids, ∀ b ∈ m.ids, m.address a = m.address b → a = b)
    (hparse : ∀ env ∈ c.network.map (·.envelope), fromSlice env.toVec = some env)
    {a : NetworkedAction} (htcp : s.Tcp a) {s' : Networked}
    (hstep : m.networkedStep fromSlice s a = some s') : Followed m c tr s' := by
  -- A handler that runs at a member runs in the cluster.
  have hlocal : ∀ {id : String} {prog : NodeProg Unit} {action : Action} {c' : Cluster},
      id ∈ m.ids → m.step c action = some c' → action.isLossyOrRestart = true →
      c'.nodes = (c.runAt id none prog).nodes → c'.network = (c.runAt id none prog).network →
      ((prog.run [] (s.hosts id).node).state.InRange ∧
        ∀ env, .send env ∈ (prog.run [] (s.hosts id).node).out → env.InRange) →
      Followed m c tr
        ⟨Function.update s.hosts id ((s.hosts id).run prog), c'.proposals⟩ := by
    intro id prog action c' hid hstep hok hnodes hnet hran
    exact ⟨coming, c', c :: tr, hrun.step hok hstep, h.ran hid none hran c' hnodes hnet,
      fun x hx => List.mem_cons_of_mem _ hx, h.sent_outgoing hid hnet⟩
  cases Membership.moves_of_networkedStep hstep with
  | @startElection id hid =>
      have hrun' : m.step c (.startElection id) = some (c.runAt id none RaftNode.startElection) :=
        if_pos hid
      have hfollowed := hlocal hid hrun' rfl rfl rfl (h.inRange id hid).startElection
      rw [← h.proposals]
      exact hfollowed
  | @sendHeartbeats id hid =>
      have hrun' : m.step c (.sendHeartbeats id) = some (c.runAt id none RaftNode.sendHeartbeats) :=
        if_pos hid
      have hfollowed := hlocal hid hrun' rfl rfl rfl (h.inRange id hid).sendHeartbeats
      rw [← h.proposals]
      exact hfollowed
  | @propose id command hid =>
      have hrun' : m.step c (.propose id command) =
          some { c.runAt id none (RaftNode.propose command c.proposals) with
            proposals := c.proposals + 1 } := if_pos hid
      have hfollowed := hlocal hid hrun' rfl rfl rfl
        ((h.inRange id hid).propose command c.proposals)
      rw [← h.proposals]
      exact hfollowed
  | send hid hnext => exact h.send hrun hid hdistinct hnext htcp
  | read hid hr hstream hrunning hle => exact h.read hrun hid hr hstream hrunning hle
  | deliver hid hr hrunning hframe hparsed =>
      exact h.deliver hrun hid hr hrunning hframe hparsed hparse
  | @skip id k r payload buf hid hr hrunning hframe hnone =>
      obtain ⟨env, rest, hcoming, rfl, -⟩ := (h.wired id hid).take hr hrunning hframe
      rw [hparse env (h.mem_network hid (List.getElem?_eq_some_iff.mp hr).1
        (hcoming ▸ List.mem_cons_self))] at hnone
      cases hnone
  | @tooLarge id k r hid hr hrunning hbad =>
      exact absurd hbad ((h.wired id hid).not_bad hr hrunning)
  | hangUp hid hr => exact h.hangUp hrun hid hr
  | restart hid hnew => exact h.restart hrun hid hnew

/-- Nothing has happened yet. -/
theorem initial (m : Membership) : m.networked.Refines m (fun _ _ => []) m.initial := by
  refine ⟨fun _ _ => rfl, rfl, fun id _ => .empty id _, nofun, fun id _ => ?_, ?_⟩
  · obtain ⟨hconnections, hstreams, -⟩ := NetworkManager.registered_empty
      ((m.ids.filter (fun p => decide (p ≠ id))).map fun p => (p, m.address p))
    refine ⟨peerAddresses_manager m id, ?_, nofun, fun p k hp => ?_, nofun, fun _ _ => rfl⟩
    · exact (congrArg List.length hstreams).symm
    · have hnone : (m.manager id).connections = ∅ := hconnections
      have hp : (m.manager id).connections.lookup p = some k := hp
      rw [hnone, AList.lookup_empty] at hp
      cases hp
  · have hnil : (pool m.ids fun id => (m.networked.hosts id).outgoing ++
        (m.networked.hosts id).coming fun _ => []) = [] := by
      rw [pool, List.flatMap_eq_nil_iff]
      exact fun _ _ => rfl
    rw [hnil]
    exact List.Perm.nil

end Networked.Refines

/-! ### Runs -/

/-- The messages of an election that A wins with the vote of C, up to its first heartbeats. -/
def electionMessages : List MessageEnvelope :=
  [askVote, .new "A" "C" (.requestVote ⟨1, .pushStr 64 "A", 0, 0⟩),
    .new "C" "A" (.requestVoteResponse ⟨1, true, .pushStr 64 "C"⟩),
    .new "A" "B" (.appendEntries ⟨1, .pushStr 64 "A", 0, 0, .collectTake 64 [], 0⟩),
    .new "A" "C" (.appendEntries ⟨1, .pushStr 64 "A", 0, 0, .collectTake 64 [], 0⟩)]

/-- The frame of the request comes in two reads, and B cannot be dialed. -/
def electionOverTcp : List NetworkedAction :=
  [.startElection "A", .send "A" ⟨true, none, true⟩, .send "A" ⟨false, none, true⟩,
    .read "A" 0 5, .read "A" 0 113, .handle "A" 0, .send "C" ⟨true, none, true⟩,
    .read "C" 0 104, .handle "C" 0]

end RaftEbpf
