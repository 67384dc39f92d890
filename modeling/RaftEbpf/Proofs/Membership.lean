import RaftEbpf.Daemon
import RaftEbpf.Proofs.BrokenConnections
import RaftEbpf.Proofs.Electing
import RaftEbpf.Proofs.RoleChange

/-!
# `RaftEbpf.Proofs.Membership`: the peers of the node and the addresses of the network

Both are filled from the configuration. A Join adds a peer to the node and leaves the network
manager as it is, which then has no address for the peer, or an old one.
-/

set_option autoImplicit false

namespace RaftEbpf

open RaftEbpf.Lib (HashMap Prog)

namespace RaftNode

/-! ### What leaves the peers alone -/

/-- A write that leaves the peers as they are. -/
def KeepsPeers (f : RaftNode → RaftNode) : Prop := ∀ n, (f n).peers = n.peers

theorem Electing.keepsPeers {f : RaftNode → RaftNode} (hf : Electing f) : KeepsPeers f := by
  intro n
  obtain ⟨_, _, _, _, _, _, _, heq⟩ := hf n
  rw [heq]

theorem Committing.keepsPeers {f : RaftNode → RaftNode} (hf : Committing f) : KeepsPeers f := by
  intro n
  obtain ⟨_, _, _, _, heq⟩ := hf n
  rw [heq]

theorem keepsPeers_of_campaigns {α : Type} {p : NodeProg α} (h : Campaigns p) :
    p.Only LogExclusive KeepsPeers fun _ => True :=
  h.mono (fun _ => Electing.keepsPeers) fun _ => id

theorem keepsPeers_propose (command : Command) (responseTx : Sender) :
    (propose command responseTx).Only LogExclusive KeepsPeers fun _ => True := by
  simp only [propose, only_withRead_bind, ne_eq, reduceCtorEq, not_false_eq_true]
  refine fun n => .ite (fun _ => ?_) fun _ => ?_
  · simp only [only_withRead_bind, only_emit, ne_eq, reduceCtorEq, not_false_eq_true]
    exact fun _ => trivial
  · simp only [only_lockAt_bind, only_get_bind, only_modify_bind, only_emit_bind, only_unlock_bind,
      only_withWrite_bind]
    exact fun n => ⟨fun _ => rfl, trivial, fun _ => rfl,
      keepsPeers_of_campaigns campaigns_sendHeartbeats⟩

theorem keepsPeers_handleAppendEntries (sender : String) (req : AppendEntriesRequest) :
    (handleAppendEntries sender req).Only LogExclusive KeepsPeers fun _ => True := by
  have hrest : ∀ term, (afterTermCheck sender req term).Only LogExclusive KeepsPeers
      fun _ => True := by
    intro term
    refine (only_afterTermCheck_of sender req term (fun _ => rfl) (fun _ => rfl) (fun _ => rfl)
      fun _ => Committing.keepsPeers).mono (fun _ => id) fun _ _ => trivial
  simp only [handleAppendEntries_eq, only_lock_bind, only_get_bind]
  refine fun n => .ite (fun _ => ?_) fun _ => .ite (fun _ => ?_) fun _ => ?_
  · exact (keepsPeers_of_campaigns (campaigns_sendAppendEntriesResponse _ _ _)).bind
      fun _ => only_unlock _
  · exact (keepsPeers_of_campaigns (campaigns_setCurrentTerm _)).bind fun _ =>
      (keepsPeers_of_campaigns (campaigns_setRole _)).bind fun _ => hrest _
  · exact hrest _

theorem keepsPeers_handleAppendEntriesResponse (sender : String) (resp : AppendEntriesResponse) :
    (handleAppendEntriesResponse sender resp).Only LogExclusive KeepsPeers fun _ => True := by
  simp only [handleAppendEntriesResponse_eq, only_lock_bind, only_withRead_bind, ne_eq,
    reduceCtorEq, not_false_eq_true]
  refine fun n => .ite (fun _ => only_unlock _) fun _ => ?_
  simp only [only_get_bind]
  refine fun n' => .ite (fun _ => keepsPeers_of_campaigns (campaigns_stepDown _)) fun _ => ?_
  refine (only_recordAnswer_of sender resp (fun _ hf n => ?_) fun _ =>
    Committing.keepsPeers).mono (fun _ => id) fun _ _ => trivial
  obtain ⟨_, _, heq⟩ := hf n
  rw [heq]

/-- A message never changes the peers. -/
theorem keepsPeers_handleMessage (envelope : MessageEnvelope) :
    (handleMessage envelope).Only LogExclusive KeepsPeers fun _ => True := by
  rw [handleMessage]
  cases envelope.message with
  | appendEntries req => exact keepsPeers_handleAppendEntries _ req
  | appendEntriesResponse resp => exact keepsPeers_handleAppendEntriesResponse _ resp
  | requestVote req => exact keepsPeers_of_campaigns (campaigns_handleRequestVote _ req)
  | requestVoteResponse resp =>
      exact keepsPeers_of_campaigns (campaigns_handleRequestVoteResponse _ resp)
  | clientRequest req => trivial
  | clientResponse resp => trivial

/-- A run of such writes leaves the peers as they are. -/
theorem peers_run {α : Type} {p : NodeProg α} {E : Output → Prop}
    (h : p.Only LogExclusive KeepsPeers E) (ws : List WriteResult) (n : RaftNode) :
    (p.run ws n).state.peers = n.peers :=
  h.run (I := fun n' => n'.peers = n.peers) (fun _ hf s hs => (hf s).trans hs) rfl ws

/-! ### To whom a node sends -/

/-- The `to` fields of the envelopes among the outputs. -/
def recipients (out : List Output) : List String :=
  out.filterMap fun o =>
    match o with
    | .send env => some env.recipient.asStr
    | _ => none

/-- Envelopes to each of these peers. -/
theorem recipients_sends (sender : String) (message : String → RaftMessage) (ids : List String) :
    recipients (ids.map fun id => .send (.new sender id (message id))) =
      ids.map fun id => (HeaplessString.pushStr 64 id).asStr := by
  induction ids with
  | nil => rfl
  | cons id ids ih => exact congrArg (_ :: ·) ih

/-- No id is too long for an envelope. -/
def ShortIds (n : RaftNode) : Prop := ∀ id ∈ n.peers.keys, id.utf8ByteSize ≤ 64

theorem asStr_pushStr_eq_iff {id : String} :
    (HeaplessString.pushStr 64 id).asStr = id ↔ id.utf8ByteSize ≤ 64 := by
  constructor
  · intro h
    rw [← h]
    exact (HeaplessString.pushStr 64 id).fits
  · exact HeaplessString.asStr_pushStr

/-- The ids come through exactly where none is too long. -/
theorem map_pushStr_eq_iff {n : RaftNode} :
    n.peers.keys.map (fun id => (HeaplessString.pushStr 64 id).asStr) = n.peers.keys ↔
      n.ShortIds := by
  conv_lhs => rhs; rw [← List.map_id n.peers.keys]
  rw [List.map_inj_left]
  exact forall₂_congr fun _ _ => asStr_pushStr_eq_iff

theorem recipients_heartbeats (n : RaftNode) (h : n.ShortIds) :
    recipients (heartbeats n) <+: n.peers.keys := by
  rw [heartbeats]
  split
  · rw [recipients_sends, map_pushStr_eq_iff.mpr h]
  · exact List.nil_prefix

/-- The envelopes of an election go to the peers, or there are none. -/
theorem recipients_startElection (n : RaftNode) (h : n.ShortIds) (ws : List WriteResult) :
    recipients (startElection.run ws n).out <+: n.peers.keys := by
  rw [run_startElection_writes]
  split
  · split
    · split
      · -- A node without peers goes on as Leader.
        exact recipients_heartbeats (leaderOf (candidateOf n)) h
      · rw [recipients_sends, map_pushStr_eq_iff.mpr h]
    · exact List.nil_prefix
  · exact List.nil_prefix

/-- An election that goes through shows an id that is too long. -/
theorem shortIds_of_recipients {n : RaftNode}
    (h : recipients (startElection.run [] n).out <+: n.peers.keys) : n.ShortIds := by
  by_cases hkeys : n.peers.keys = []
  · intro id hid
    rw [hkeys] at hid
    cases hid
  · rw [run_startElection, if_neg hkeys, recipients_sends] at h
    exact map_pushStr_eq_iff.mp (h.eq_of_length (List.length_map _))

end RaftNode

/-! ### What a send needs -/

namespace NetworkManager

theorem peerAddresses_sendMessage (m : NetworkManager) (peerId : String)
    (envelope : MessageEnvelope) (link : Link) :
    (m.sendMessage peerId envelope link).peerAddresses = m.peerAddresses := by
  have hwrite : ∀ (m' : NetworkManager) (dialed : Bool) (connection : Nat),
      (m'.write peerId dialed connection (Network.sendBuffer envelope) link).peerAddresses =
        m'.peerAddresses := by
    intro m' dialed connection
    obtain ⟨part, result, hw, -⟩ := write_cases m' peerId dialed connection _ link
    rw [hw]
  rw [sendMessage]
  split
  · exact hwrite m false _
  · split
    · rfl
    · split
      · exact hwrite _ true _
      · rfl

/-- A peer with an address is not given up for want of one. -/
theorem result_sendMessage {m : NetworkManager} {peerId address : String}
    (h : m.peerAddresses.lookup peerId = some address) (envelope : MessageEnvelope) (link : Link) :
    ∃ dialed result, (m.sendMessage peerId envelope link).calls =
      ⟨peerId, dialed, result⟩ :: m.calls ∧ result ≠ .noAddress := by
  have hwrite : ∀ (m' : NetworkManager) (dialed : Bool) (connection : Nat), m'.calls = m.calls →
      ∃ result, (m'.write peerId dialed connection (Network.sendBuffer envelope) link).calls =
        ⟨peerId, dialed, result⟩ :: m.calls ∧ result ≠ .noAddress := by
    intro m' dialed connection hcalls
    obtain ⟨part, result, hw, hresult⟩ := write_cases m' peerId dialed connection _ link
    refine ⟨result, ?_, ?_⟩
    · rw [hw]
      exact congrArg _ hcalls
    · rcases hresult with ⟨-, rfl⟩ | ⟨-, rfl⟩
      · decide
      · decide
  rw [sendMessage]
  split
  · exact ⟨false, hwrite m false _ rfl⟩
  · rw [h]
    by_cases hconnects : link.connects = true
    · simp only [hconnects, if_true]
      exact ⟨true, hwrite _ true _ rfl⟩
    · simp only [hconnects]
      exact ⟨true, .refused, rfl, by decide⟩

end NetworkManager

/-! ### The daemon -/

namespace Daemon

open RaftNode

/-- Each peer of the node has in the network manager the address it was last configured or joined
with. -/
def Addressed (d : Daemon) : Prop :=
  ∀ id ∈ d.node.peers, ∃ address, d.addresses.lookup id = some address ∧
    d.network.peerAddresses.lookup id = some address

/-- Each peer has its address, the envelopes of an election and of the heartbeats go to the peers
one by one, and no send to a peer is given up for want of an address. -/
structure PeersReachable (d : Daemon) : Prop where
  addressed : d.Addressed
  elections : ∀ ws, recipients (startElection.run ws d.node).out <+: d.node.peers.keys
  heartbeats : ∀ ws, recipients (sendHeartbeats.run ws d.node).out <+: d.node.peers.keys
  delivered : ∀ id ∈ d.node.peers, ∀ envelope link,
    ∀ call ∈ (d.network.sendMessage id envelope link).calls.head?, call.result ≠ .noAddress

/-- A Join names a peer whose id fits an envelope, and which the network manager knows with this
address already. -/
def JoinsKnown (d : Daemon) : DaemonEvent → Prop
  | .request _ _ (.join nodeId address) =>
      nodeId.utf8ByteSize ≤ 64 ∧ d.network.peerAddresses.lookup nodeId = some address
  | _ => True

theorem peersReachable_iff_short {d : Daemon} :
    d.PeersReachable ↔ d.node.ShortIds ∧ d.Addressed := by
  constructor
  · exact fun h => ⟨shortIds_of_recipients (h.elections []), h.addressed⟩
  · rintro ⟨hshort, haddressed⟩
    refine ⟨haddressed, recipients_startElection d.node hshort, fun ws => ?_, ?_⟩
    · rw [run_sendHeartbeats]
      exact recipients_heartbeats d.node hshort
    · intro id hid envelope link call hcall
      obtain ⟨address, -, haddress⟩ := haddressed id hid
      obtain ⟨dialed, result, hcalls, hresult⟩ :=
        NetworkManager.result_sendMessage haddress envelope link
      rw [hcalls] at hcall
      obtain rfl := Option.some.inj hcall
      exact hresult

/-! ### One event -/

section Step
variable {d d' : Daemon}

/-- What leaves the peers and the addresses leaves every peer in reach. -/
theorem PeersReachable.of_same (h : d.PeersReachable) (hpeers : d'.node.peers = d.node.peers)
    (haddresses : d'.addresses = d.addresses)
    (hnetwork : d'.network.peerAddresses = d.network.peerAddresses) : d'.PeersReachable := by
  rw [peersReachable_iff_short, ShortIds, Addressed] at h ⊢
  rwa [hpeers, haddresses, hnetwork]

/-- A peer that leaves takes nothing from the others. -/
theorem PeersReachable.leave (h : d.PeersReachable) (nodeId : String)
    (hnode : d'.node = departed d.node nodeId) (haddresses : d'.addresses = d.addresses)
    (hnetwork : d'.network = d.network) : d'.PeersReachable := by
  rw [peersReachable_iff_short, ShortIds, Addressed] at h ⊢
  rw [hnode, haddresses, hnetwork]
  have hmem : ∀ id, id ∈ (departed d.node nodeId).peers → id ∈ d.node.peers :=
    fun id hid => (AList.mem_erase.mp hid).2
  exact ⟨fun id hid => h.1 id (hmem id hid), fun id hid => h.2 id (hmem id hid)⟩

/-- A peer that joins is in reach exactly if the network manager knows it. -/
theorem peersReachable_join_iff (h : d.PeersReachable) {nodeId address : String}
    (hnode : d'.node = joined d.node nodeId address)
    (haddresses : d'.addresses = d.addresses.insert nodeId address)
    (hnetwork : d'.network = d.network) : d'.PeersReachable ↔
      nodeId.utf8ByteSize ≤ 64 ∧ d.network.peerAddresses.lookup nodeId = some address := by
  have hmem : ∀ id, id ∈ (joined d.node nodeId address).peers ↔ id = nodeId ∨ id ∈ d.node.peers :=
    fun id => AList.mem_insert _
  rw [peersReachable_iff_short, ShortIds, Addressed] at h ⊢
  rw [hnode, haddresses, hnetwork]
  constructor
  · rintro ⟨hshort, haddressed⟩
    have hself := (hmem nodeId).mpr (Or.inl rfl)
    obtain ⟨address', hjoined, hknown⟩ := haddressed nodeId hself
    rw [AList.lookup_insert] at hjoined
    obtain rfl := Option.some.inj hjoined
    exact ⟨hshort nodeId hself, hknown⟩
  · rintro ⟨hshort, hknown⟩
    refine ⟨fun id hid => ?_, fun id hid => ?_⟩
    · rcases (hmem id).mp hid with rfl | hid
      · exact hshort
      · exact h.1 id hid
    · by_cases hid' : id = nodeId
      · subst hid'
        exact ⟨address, AList.lookup_insert _, hknown⟩
      · rw [AList.lookup_insert_ne hid']
        exact h.2 id (((hmem id).mp hid).resolve_left hid')

/-- Only a Join and a Leave change the peers. -/
theorem peers_processRequest (env : Surroundings) (tx : Sender) {req : IpcRequest}
    (hjoin : ∀ nodeId address, req ≠ .join nodeId address) (hleave : ∀ nodeId, req ≠ .leave nodeId)
    (n : RaftNode) : ((Ipc.processRequest env tx req).run [] n).state.peers = n.peers := by
  cases req with
  | join nodeId address => exact absurd rfl (hjoin nodeId address)
  | leave nodeId => exact absurd rfl (hleave nodeId)
  | status => rfl
  | propose key value =>
      exact peers_run ((keepsPeers_propose _ tx).bind fun _ => Prog.only_pure _) [] n
  | get key => rfl
  | send message =>
      refine peers_run (E := fun _ => True) ?_ [] n
      simp only [Ipc.processRequest, only_get_bind]
      exact fun n' => (keepsPeers_propose _ tx).bind fun _ => Prog.only_pure _
  | messages limit sinceIndex => rfl

/-- One event keeps every peer in reach exactly if it is no Join of an unknown peer. -/
theorem peersReachable_step_iff (h : d.PeersReachable) {e : DaemonEvent}
    (hstep : d.step e = some d') : d'.PeersReachable ↔ d.JoinsKnown e := by
  cases e with
  | request env tx req =>
      obtain rfl := Option.some.inj hstep
      cases req with
      | join nodeId address =>
          refine peersReachable_join_iff h ?_ rfl rfl
          simp only [Ipc.processRequest, Prog.run_bind, run_addPeer]
          rfl
      | leave nodeId =>
          refine iff_of_true (h.leave nodeId ?_ rfl rfl) trivial
          simp only [Ipc.processRequest, Prog.run_bind, run_removePeer]
          rfl
      | _ =>
          refine iff_of_true (h.of_same ?_ rfl rfl) trivial
          exact peers_processRequest env tx (by nofun) (by nofun) d.node
  | receive envelope ws =>
      obtain rfl := Option.some.inj hstep
      exact iff_of_true (h.of_same (peers_run (keepsPeers_handleMessage envelope) ws d.node)
        rfl rfl) trivial
  | electionTimeout ws =>
      rw [step] at hstep
      split at hstep
      · obtain rfl := Option.some.inj hstep
        exact iff_of_true h trivial
      · obtain rfl := Option.some.inj hstep
        exact iff_of_true (h.of_same
          (peers_run (keepsPeers_of_campaigns campaigns_startElection) ws d.node) rfl rfl) trivial
  | heartbeat =>
      obtain rfl := Option.some.inj hstep
      exact iff_of_true (h.of_same
        (peers_run (keepsPeers_of_campaigns campaigns_sendHeartbeats) [] d.node) rfl rfl) trivial
  | send envelope link =>
      obtain rfl := Option.some.inj hstep
      exact iff_of_true (h.of_same rfl rfl
        (NetworkManager.peerAddresses_sendMessage _ _ _ _)) trivial

/-! ### The start -/

/-- What the configuration says of each peer: node, network manager and ghost agree. Induction on
the configured peers. -/
theorem addressed_of_configured (ps : List (String × String)) :
    ∀ (infos : HashMap String PeerInfo) (m : NetworkManager) (addresses : HashMap String String),
      (∀ id ∈ infos, ∃ address, addresses.lookup id = some address ∧
        m.peerAddresses.lookup id = some address) →
      ∀ id ∈ ps.foldl (fun infos p => infos.insert p.1 (PeerInfo.new p.1 p.2)) infos,
        ∃ address, (ps.foldl (fun as p => as.insert p.1 p.2) addresses).lookup id = some address ∧
          (ps.foldl (fun m p => m.registerPeer p.1 p.2) m).peerAddresses.lookup id =
            some address := by
  induction ps with
  | nil => exact fun _ _ _ h => h
  | cons p ps ih =>
      intro infos m addresses h
      refine ih (infos.insert p.1 (PeerInfo.new p.1 p.2)) (m.registerPeer p.1 p.2)
        (addresses.insert p.1 p.2) fun id hid => ?_
      show ∃ address, _ ∧ (m.peerAddresses.insert p.1 p.2).lookup id = some address
      by_cases hp : id = p.1
      · subst hp
        exact ⟨p.2, AList.lookup_insert _, AList.lookup_insert _⟩
      · rw [AList.lookup_insert_ne hp, AList.lookup_insert_ne hp]
        exact h id (((AList.mem_insert _).mp hid).resolve_left hp)

/-- The keys of the node are the configured ids. -/
theorem mem_peerMap (ps : List (String × String)) {id : String} :
    id ∈ peerMap ps ↔ ∃ p ∈ ps, p.1 = id := by
  have hfold : ∀ (ps : List (String × String)) (infos : HashMap String PeerInfo),
      id ∈ ps.foldl (fun infos p => infos.insert p.1 (PeerInfo.new p.1 p.2)) infos ↔
        id ∈ infos ∨ ∃ p ∈ ps, p.1 = id := by
    intro ps
    induction ps with
    | nil => simp
    | cons p ps ih =>
        intro infos
        rw [List.foldl_cons, ih, AList.mem_insert, List.exists_mem_cons_iff]
        constructor
        · rintro ((rfl | h) | h)
          · exact Or.inr (Or.inl rfl)
          · exact Or.inl h
          · exact Or.inr (Or.inr h)
        · rintro (h | rfl | h)
          · exact Or.inl (Or.inr h)
          · exact Or.inl (Or.inl rfl)
          · exact Or.inr h
  rw [peerMap, hfold]
  exact or_iff_right (AList.notMem_empty id)

/-- At the start every peer is in reach exactly if no configured id is too long. -/
theorem peersReachable_start_iff {nodeId : String} {peers : List (String × String)} {dir : DataDir}
    (hstart : start nodeId peers dir = some d) :
    d.PeersReachable ↔ ∀ p ∈ peers, p.1.utf8ByteSize ≤ 64 := by
  obtain ⟨n, hn, rfl⟩ := Option.map_eq_some_iff.mp hstart
  obtain ⟨log, -, rfl⟩ := Option.map_eq_some_iff.mp hn
  rw [peersReachable_iff_short, and_iff_left]
  · show (∀ id ∈ peerMap peers, id.utf8ByteSize ≤ 64) ↔ _
    constructor
    · exact fun h p hp => h p.1 ((mem_peerMap peers).mpr ⟨p, hp, rfl⟩)
    · intro h id hid
      obtain ⟨p, hp, rfl⟩ := (mem_peerMap peers).mp hid
      exact h p hp
  · exact addressed_of_configured peers ∅ .new ∅ fun id hid => absurd hid (AList.notMem_empty id)

/-- In a run of the daemon from its start, every peer is in reach in all states exactly if no
configured id is too long, and each Join names a peer with a short id that the network manager
already knows with this address. -/
theorem peersReachable_iff {nodeId : String} {peers : List (String × String)} {dir : DataDir}
    (hstart : start nodeId peers dir = some d)
    {tr : List (Daemon × List (Daemon × DaemonEvent × Daemon))}
    (h : Lib.Run (Lib.recorded step) (d, []) (fun _ _ => True) tr) :
    ∀ s ∈ tr, (d.PeersReachable ∧ ∀ x ∈ s.2, x.2.2.PeersReachable) ↔
      (∀ p ∈ peers, p.1.utf8ByteSize ≤ 64) ∧ ∀ x ∈ s.2, x.1.JoinsKnown x.2.1 := by
  intro s hs
  rw [← peersReachable_start_iff hstart]
  refine and_congr_right fun hinit => ?_
  exact @Lib.Run.recorded_iff _ _ step _ (fun _ _ => True) PeersReachable JoinsKnown hinit
    (fun _ _ _ hd _ hstep => peersReachable_step_iff hd hstep) _ h s hs

end Step

/-- Node A with the peer B, on an empty data directory. -/
def pair : Daemon where
  node := .withLog "A" (peerMap [("B", "b:7000")]) (.unloaded .empty)
  network := .registered [("B", "b:7000")]
  addresses := (∅ : HashMap String String).insert "B" "b:7000"

theorem start_pair : start "A" [("B", "b:7000")] .empty = some pair := rfl

/-- A request whose handling needs nothing of its surroundings. -/
def asked (req : IpcRequest) : DaemonEvent :=
  .request ⟨0, .elapsed, fun _ => [], fun _ => none⟩ 0 req

/-- B leaves, and joins again with its configured address. -/
def leaveAndReturn : List DaemonEvent :=
  [.electionTimeout [], asked (.leave "B"), asked (.join "B" "b:7000")]

theorem peersReachable_iff_leaveAndReturn :
    let tr := Lib.trace (Lib.recorded step) (pair, []) (fun _ _ => True) leaveAndReturn
    tr.length = 4 ∧ ∀ s ∈ tr, (pair.PeersReachable ∧ ∀ x ∈ s.2, x.2.2.PeersReachable) ↔
      (∀ p ∈ [("B", "b:7000")], p.1.utf8ByteSize ≤ 64) ∧ ∀ x ∈ s.2, x.1.JoinsKnown x.2.1 :=
  ⟨rfl, peersReachable_iff start_pair (Lib.run_trace rfl)⟩

/-- C joins, and the network manager has no address for it. -/
theorem not_peersReachable :
    ¬ ∀ (nodeId : String) (peers : List (String × String)) (dir : DataDir) (d : Daemon),
      start nodeId peers dir = some d → ∀ tr : List Daemon,
      Lib.Run step d (fun _ _ => True) tr → ∀ d' ∈ tr, d'.PeersReachable := by
  intro h
  have hrun : Lib.Run step pair (fun _ _ => True)
      (Lib.trace step pair (fun _ _ => True) [asked (.join "C" "c:7000")]) := Lib.run_trace rfl
  have hreachable := h _ _ _ _ start_pair _ hrun _ List.mem_cons_self
  obtain ⟨address, -, haddress⟩ := hreachable.addressed "C" (by decide)
  have hnone : pair.network.peerAddresses.lookup "C" = none := rfl
  rw [show (NetworkManager.peerAddresses _).lookup "C" = none from hnone] at haddress
  cases haddress

end Daemon

end RaftEbpf
