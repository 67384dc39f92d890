import RaftEbpf.Cluster
import RaftEbpf.Network

/-!
# `RaftEbpf.Networked`: members that talk over TCP

In `Cluster` an envelope that a node hands out is in the network at once. Here it takes the way of
the code: a handler puts it into the outgoing channel of its daemon, the network manager takes it
from there and writes its frame to the connection of the recipient, and at the other end the bytes
come in pieces into the buffer of `handle_connection`, which hands over one message after the other.

A connection is known by the member that dialed it and its number there. A read takes as many bytes
as the network has brought. A connection may end at any time, and what was not read is lost. The
bound of the outgoing channel is left out.

A member that starts again has an empty channel and dials all its peers anew. The connections that
it had accepted end. What it had written to its own connections may still be read.
-/

set_option autoImplicit false

namespace RaftEbpf

open RaftEbpf.Lib (HashMap Prog)

/-- The accepting end of a connection: one task of `handle_connection`. -/
structure Reader where
  /-- The member that accepted. -/
  host : String
  /-- The task has not ended. -/
  running : Bool
  /-- The number of bytes that were read. -/
  read : Nat
  /-- What was read and not handled. -/
  buf : List UInt8

/-- One daemon. -/
structure Host where
  node : RaftNode
  /-- The outgoing channel, the oldest first. -/
  outgoing : List MessageEnvelope
  network : NetworkManager
  /-- The other ends of the connections that it dialed, by their number. -/
  readers : List Reader

/-- The daemons of all members. -/
structure Networked where
  hosts : String → Host
  /-- The number of proposals so far. Each one gets a channel of its own. -/
  proposals : Nat

/-- What can happen next. -/
inductive NetworkedAction where
  | startElection (id : String)
  | sendHeartbeats (id : String)
  | propose (id : String) (command : Command)
  /-- The network manager takes an envelope from the channel and sends it. -/
  | send (id : String) (link : Link)
  /-- So many bytes more are read from a connection that this member dialed. -/
  | read (id : String) (connection count : Nat)
  /-- One turn of the inner loop of `handle_connection`. -/
  | handle (id : String) (connection : Nat)
  /-- The reading task ends: the connection is closed, or a read fails. -/
  | hangUp (id : String) (connection : Nat)
  /-- The member crashes between handlers and starts again from its data directory. -/
  | restart (id : String)

namespace Host

/-- The envelope of an output. -/
def sentOf : Output → Option MessageEnvelope
  | .send env => some env
  | _ => none

/-- The node runs one program to its end. What it sends goes into the channel. -/
def run (h : Host) (p : NodeProg Unit) : Host :=
  let r := p.run [] h.node
  { h with
    node := r.state
    outgoing := h.outgoing ++ r.out.filterMap sentOf }

/-- The ends of its connections at a member that crashed are gone. -/
def lose (id : String) (h : Host) : Host :=
  { h with
    readers := h.readers.map fun r => if r.host = id then { r with running := false } else r }

end Host

namespace Membership

/-- The network manager that `main` fills from the configuration. -/
def manager (m : Membership) (id : String) : NetworkManager :=
  .registered ((m.ids.filter (fun p => decide (p ≠ id))).map fun p => (p, m.address p))

/-- The member that a peer's address leads to. -/
def listener (m : Membership) (network : NetworkManager) (peerId : String) : Option String := do
  let address ← network.peerAddresses.lookup peerId
  m.ids.find? fun id => decide (m.address id = address)

/-- `send_message` for the first envelope of the channel. A new connection gets a reader at the
member that listens where it was dialed, and none is made where nobody does. -/
def sendNext (m : Membership) (h : Host) (env : MessageEnvelope) (rest : List MessageEnvelope)
    (link : Link) : Host :=
  let peerId := env.recipient.asStr
  match m.listener h.network peerId with
  | some host =>
      let network := h.network.sendMessage peerId env link
      { h with
        outgoing := rest
        network := network
        readers :=
          if network.streams.length = h.network.streams.length then h.readers
          else h.readers ++ [⟨host, true, 0, []⟩] }
  | none =>
      { h with
        outgoing := rest
        network := h.network.sendMessage peerId env { link with connects := false } }

/-- Every daemon on an empty data directory. -/
def networked (m : Membership) : Networked where
  hosts id := ⟨.withLog id (m.peersOf id) (.unloaded .empty), [], m.manager id, []⟩
  proposals := 0

/-- One step of the daemons. `none`: the action names a member, a connection or bytes that are not
there. -/
def networkedStep (m : Membership) (fromSlice : List UInt8 → Option MessageEnvelope)
    (s : Networked) : NetworkedAction → Option Networked
  | .startElection id =>
      if id ∈ m.ids then
        some { s with
          hosts := Function.update s.hosts id ((s.hosts id).run RaftNode.startElection) }
      else none
  | .sendHeartbeats id =>
      if id ∈ m.ids then
        some { s with
          hosts := Function.update s.hosts id ((s.hosts id).run RaftNode.sendHeartbeats) }
      else none
  | .propose id command =>
      if id ∈ m.ids then
        some {
          hosts := Function.update s.hosts id
            ((s.hosts id).run (RaftNode.propose command s.proposals))
          proposals := s.proposals + 1 }
      else none
  | .send id link =>
      if id ∈ m.ids then
        match (s.hosts id).outgoing with
        | [] => none
        | env :: rest =>
            some { s with
              hosts := Function.update s.hosts id (m.sendNext (s.hosts id) env rest link) }
      else none
  | .read id connection count =>
      let h := s.hosts id
      match h.readers[connection]?, h.network.streams[connection]? with
      | some r, some stream =>
          if id ∈ m.ids ∧ r.running ∧ 0 < count ∧ r.read + count ≤ stream.length then
            match Network.nextFrame r.buf with
            -- The inner loop has come to its end.
            | .more =>
                some { s with
                  hosts := Function.update s.hosts id { h with
                    readers := h.readers.set connection { r with
                      read := r.read + count
                      buf := r.buf ++ (stream.drop r.read).take count } } }
            | _ => none
          else none
      | _, _ => none
  | .handle id connection =>
      let h := s.hosts id
      match h.readers[connection]? with
      | some r =>
          if id ∈ m.ids ∧ r.running then
            match Network.nextFrame r.buf with
            | .more => none
            | .frame payload buf =>
                let hosts := Function.update s.hosts id
                  { h with readers := h.readers.set connection { r with buf } }
                match fromSlice payload with
                | some env =>
                    some { s with
                      hosts := Function.update hosts r.host
                        ((hosts r.host).run (RaftNode.handleMessage env)) }
                | none => some { s with hosts }
            -- The task returns.
            | .bad =>
                some { s with
                  hosts := Function.update s.hosts id
                    { h with readers := h.readers.set connection { r with running := false } } }
          else none
      | none => none
  | .hangUp id connection =>
      let h := s.hosts id
      match h.readers[connection]? with
      | some r =>
          if id ∈ m.ids then
            some { s with
              hosts := Function.update s.hosts id
                { h with readers := h.readers.set connection { r with running := false } } }
          else none
      | none => none
  | .restart id =>
      if id ∈ m.ids then
        (RaftNode.new id (m.peersOf id) (s.hosts id).node.log.dataDir).map fun n =>
          let h := s.hosts id
          let started : Host :=
            ⟨n, [], { m.manager id with streams := h.network.streams }, h.readers⟩
          { s with hosts := fun a => (Function.update s.hosts id started a).lose id }
      else none

/-- What a step can do. -/
inductive NetworkedMoves (m : Membership) (fromSlice : List UInt8 → Option MessageEnvelope)
    (s : Networked) : NetworkedAction → Networked → Prop where
  | startElection {id : String} (hid : id ∈ m.ids) :
      NetworkedMoves m fromSlice s (.startElection id)
        { s with hosts := Function.update s.hosts id ((s.hosts id).run RaftNode.startElection) }
  | sendHeartbeats {id : String} (hid : id ∈ m.ids) :
      NetworkedMoves m fromSlice s (.sendHeartbeats id)
        { s with hosts := Function.update s.hosts id ((s.hosts id).run RaftNode.sendHeartbeats) }
  | propose {id : String} {command : Command} (hid : id ∈ m.ids) :
      NetworkedMoves m fromSlice s (.propose id command)
        { hosts := Function.update s.hosts id
            ((s.hosts id).run (RaftNode.propose command s.proposals))
          proposals := s.proposals + 1 }
  | send {id : String} {link : Link} {env : MessageEnvelope} {rest : List MessageEnvelope}
      (hid : id ∈ m.ids) (henv : (s.hosts id).outgoing = env :: rest) :
      NetworkedMoves m fromSlice s (.send id link)
        { s with hosts := Function.update s.hosts id (m.sendNext (s.hosts id) env rest link) }
  | read {id : String} {k count : Nat} {r : Reader} {stream : List UInt8} (hid : id ∈ m.ids)
      (hr : (s.hosts id).readers[k]? = some r)
      (hstream : (s.hosts id).network.streams[k]? = some stream) (hrunning : r.running = true)
      (hle : r.read + count ≤ stream.length) :
      NetworkedMoves m fromSlice s (.read id k count)
        { s with
          hosts := Function.update s.hosts id { s.hosts id with
            readers := (s.hosts id).readers.set k { r with
              read := r.read + count
              buf := r.buf ++ (stream.drop r.read).take count } } }
  | deliver {id : String} {k : Nat} {r : Reader} {payload buf : List UInt8} {env : MessageEnvelope}
      (hid : id ∈ m.ids) (hr : (s.hosts id).readers[k]? = some r) (hrunning : r.running = true)
      (hframe : Network.nextFrame r.buf = .frame payload buf)
      (henv : fromSlice payload = some env) :
      NetworkedMoves m fromSlice s (.handle id k)
        (let hosts := Function.update s.hosts id
          { s.hosts id with readers := (s.hosts id).readers.set k { r with buf } }
        { s with
          hosts := Function.update hosts r.host
            ((hosts r.host).run (RaftNode.handleMessage env)) })
  | skip {id : String} {k : Nat} {r : Reader} {payload buf : List UInt8} (hid : id ∈ m.ids)
      (hr : (s.hosts id).readers[k]? = some r) (hrunning : r.running = true)
      (hframe : Network.nextFrame r.buf = .frame payload buf) (hnone : fromSlice payload = none) :
      NetworkedMoves m fromSlice s (.handle id k)
        { s with
          hosts := Function.update s.hosts id
            { s.hosts id with readers := (s.hosts id).readers.set k { r with buf } } }
  | tooLarge {id : String} {k : Nat} {r : Reader} (hid : id ∈ m.ids)
      (hr : (s.hosts id).readers[k]? = some r) (hrunning : r.running = true)
      (hbad : Network.nextFrame r.buf = .bad) :
      NetworkedMoves m fromSlice s (.handle id k)
        { s with
          hosts := Function.update s.hosts id { s.hosts id with
            readers := (s.hosts id).readers.set k { r with running := false } } }
  | hangUp {id : String} {k : Nat} {r : Reader} (hid : id ∈ m.ids)
      (hr : (s.hosts id).readers[k]? = some r) :
      NetworkedMoves m fromSlice s (.hangUp id k)
        { s with
          hosts := Function.update s.hosts id { s.hosts id with
            readers := (s.hosts id).readers.set k { r with running := false } } }
  | restart {id : String} {n : RaftNode} (hid : id ∈ m.ids)
      (hnew : RaftNode.new id (m.peersOf id) (s.hosts id).node.log.dataDir = some n) :
      NetworkedMoves m fromSlice s (.restart id)
        { s with
          hosts := fun a => (Function.update s.hosts id ⟨n, [],
            { m.manager id with streams := (s.hosts id).network.streams },
            (s.hosts id).readers⟩ a).lose id }

/-- The inversion of `networkedStep`. -/
theorem moves_of_networkedStep {m : Membership} {fromSlice : List UInt8 → Option MessageEnvelope}
    {s s' : Networked} {a : NetworkedAction} (h : m.networkedStep fromSlice s a = some s') :
    m.NetworkedMoves fromSlice s a s' := by
  cases a with
  | startElection id =>
      obtain ⟨hid, ⟨⟩⟩ := Option.ite_none_right_eq_some.mp h
      exact .startElection hid
  | sendHeartbeats id =>
      obtain ⟨hid, ⟨⟩⟩ := Option.ite_none_right_eq_some.mp h
      exact .sendHeartbeats hid
  | propose id command =>
      obtain ⟨hid, ⟨⟩⟩ := Option.ite_none_right_eq_some.mp h
      exact .propose hid
  | send id link =>
      obtain ⟨hid, h⟩ := Option.ite_none_right_eq_some.mp h
      cases henv : (s.hosts id).outgoing with
      | nil =>
          rw [henv] at h
          cases h
      | cons env rest =>
          rw [henv] at h
          obtain rfl := Option.some.inj h
          exact .send hid henv
  | read id k count =>
      simp only [networkedStep] at h
      split at h
      · rename_i r stream hr hstream
        obtain ⟨⟨hid, hrunning, -, hle⟩, h⟩ := Option.ite_none_right_eq_some.mp h
        split at h
        · obtain rfl := Option.some.inj h
          exact .read hid hr hstream hrunning hle
        · cases h
      · cases h
  | handle id k =>
      simp only [networkedStep] at h
      split at h
      · rename_i r hr
        obtain ⟨⟨hid, hrunning⟩, h⟩ := Option.ite_none_right_eq_some.mp h
        split at h
        · cases h
        · rename_i payload buf hframe
          split at h
          · rename_i env henv
            obtain rfl := Option.some.inj h
            exact .deliver hid hr hrunning hframe henv
          · rename_i hnone
            obtain rfl := Option.some.inj h
            exact .skip hid hr hrunning hframe hnone
        · rename_i hbad
          obtain rfl := Option.some.inj h
          exact .tooLarge hid hr hrunning hbad
      · cases h
  | hangUp id k =>
      simp only [networkedStep] at h
      split at h
      · rename_i r hr
        obtain ⟨hid, h⟩ := Option.ite_none_right_eq_some.mp h
        obtain rfl := Option.some.inj h
        exact .hangUp hid hr
      · cases h
  | restart id =>
      obtain ⟨hid, h⟩ := Option.ite_none_right_eq_some.mp h
      obtain ⟨n, hnew, rfl⟩ := Option.map_eq_some_iff.mp h
      exact .restart hid hnew

end Membership

/-- A connection on which a write has failed takes no more bytes. -/
def Networked.Tcp (s : Networked) : NetworkedAction → Prop
  | .send id link =>
      ∀ env ∈ (s.hosts id).outgoing.head?,
        (∃ call ∈ (s.hosts id).network.calls,
          call.peerId = env.recipient.asStr ∧ call.result = .broken) → link.breaksAfter = some 0
  | _ => True

instance (s : Networked) (a : NetworkedAction) : Decidable (s.Tcp a) :=
  match a with
  | .send id link =>
      inferInstanceAs (Decidable (∀ env ∈ (s.hosts id).outgoing.head?,
        (∃ call ∈ (s.hosts id).network.calls,
          call.peerId = env.recipient.asStr ∧ call.result = .broken) → link.breaksAfter = some 0))
  | .startElection _ | .sendHeartbeats _ | .propose _ _ | .read _ _ _ | .handle _ _ | .hangUp _ _
  | .restart _ => inferInstanceAs (Decidable True)

end RaftEbpf
