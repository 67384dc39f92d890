import RaftEbpf.Lib.Run
import RaftEbpf.Node

/-!
# `RaftEbpf.Cluster`: a cluster with fixed membership

Every node runs one handler or timer action at a time, to its end, lock waits aside
(`Prog.run`). The network holds the envelopes in flight, in no useful order: an action
delivers, drops or duplicates any of them. A restart builds the node again from what its
data directory holds.

Two ghosts record the past. A `Packet` carries the message whose handler sent it and the
sender's state when that handler ended. `history` holds each output of each handler with
the same two. No handler reads either.

`Membership.Run` lists the states of one execution (`Lib.Run`).
-/

set_option autoImplicit false

namespace RaftEbpf

open RaftEbpf.Lib (HashMap Prog)

/-- A fixed membership: distinct ids of at most 64 bytes, with their addresses. -/
structure Membership where
  ids : List String
  address : String → String
  nonempty : ids ≠ []
  nodup : ids.Nodup
  fits : ∀ id ∈ ids, id.utf8ByteSize ≤ 64

/-- The peers a node is configured with: all the others. -/
def Membership.peersOf (m : Membership) (id : String) : HashMap String PeerInfo :=
  RaftNode.peerMap ((m.ids.filter (fun p => decide (p ≠ id))).map fun p => (p, m.address p))

/-- An envelope in flight, with the message whose handler sent it and the sender's state
when that handler ended. -/
structure Packet where
  envelope : MessageEnvelope
  cause : Option RaftMessage
  origin : RaftNode

/-- One output of one handler, with the message handled and the node's state at the end. -/
structure Emission where
  cause : Option RaftMessage
  output : Output
  after : RaftNode

/-- The state of the cluster. -/
structure Cluster where
  nodes : String → RaftNode
  network : List Packet
  history : List Emission
  /-- The number of proposals so far. Each one gets a channel of its own. -/
  proposals : Nat

/-- What can happen next. -/
inductive Action where
  | startElection (id : String)
  | sendHeartbeats (id : String)
  | propose (id : String) (command : Command)
  /-- The `k`-th envelope in flight arrives and is handled. -/
  | deliver (k : Nat)
  | drop (k : Nat)
  | duplicate (k : Nat)
  /-- The node crashes between handlers and starts again from its data directory. -/
  | restart (id : String)

/-- Delay, reordering and loss only: no envelope is duplicated and no node restarts. -/
def Action.isLossy : Action → Bool
  | .duplicate _ => false
  | .restart _ => false
  | _ => true

/-- Delay, reordering, loss and restarts: no envelope is duplicated. -/
def Action.isLossyOrRestart : Action → Bool
  | .duplicate _ => false
  | _ => true

/-- The action starts the node again. -/
def Action.restarts (id : String) : Action → Bool
  | .restart id' => decide (id' = id)
  | _ => false

/-- A cluster of three nodes. -/
def Membership.three : Membership where
  ids := ["A", "B", "C"]
  address id := id
  nonempty := by decide
  nodup := by decide
  fits := by decide

/-- A cluster of four nodes. -/
def Membership.four : Membership where
  ids := ["A", "B", "C", "D"]
  address id := id
  nonempty := by decide
  nodup := by decide
  fits := by decide

namespace Cluster

/-- The envelope of an output, as a packet. -/
def packetOf (cause : Option RaftMessage) (after : RaftNode) : Output → Option Packet
  | .send env => some ⟨env, cause, after⟩
  | _ => none

/-- One node runs one program to its end. -/
def runAt (c : Cluster) (id : String) (cause : Option RaftMessage) (p : NodeProg Unit) :
    Cluster :=
  let r := p.run [] (c.nodes id)
  { c with
    nodes := Function.update c.nodes id r.state
    network := c.network ++ r.out.filterMap (packetOf cause r.state)
    history := c.history ++ r.out.map fun o => ⟨cause, o, r.state⟩ }

/-- The node is Leader in this term. -/
def Leads (c : Cluster) (id : String) (term : Nat) : Prop :=
  (c.nodes id).role = .leader ∧ (c.nodes id).log.currentTerm = term

instance (c : Cluster) (id : String) (term : Nat) : Decidable (c.Leads id term) :=
  inferInstanceAs (Decidable (_ ∧ _))

end Cluster

namespace Membership

/-- Every node on an empty data directory. -/
def initial (m : Membership) : Cluster where
  nodes id := .withLog id (m.peersOf id) (.unloaded .empty)
  network := []
  history := []
  proposals := 0

/-- One step of the cluster. `none`: the action names a node or an envelope that is not
there. -/
def step (m : Membership) (c : Cluster) : Action → Option Cluster
  | .startElection id =>
      if id ∈ m.ids then some (c.runAt id none RaftNode.startElection) else none
  | .sendHeartbeats id =>
      if id ∈ m.ids then some (c.runAt id none RaftNode.sendHeartbeats) else none
  | .propose id command =>
      if id ∈ m.ids then
        some { c.runAt id none (RaftNode.propose command c.proposals) with
          proposals := c.proposals + 1 }
      else none
  | .deliver k =>
      match c.network[k]? with
      | none => none
      | some p =>
          if p.envelope.recipient.asStr ∈ m.ids then
            some ({ c with network := c.network.eraseIdx k }.runAt p.envelope.recipient.asStr
              (some p.envelope.message) (RaftNode.handleMessage p.envelope))
          else none
  | .drop k => some { c with network := c.network.eraseIdx k }
  | .duplicate k => (c.network[k]?).map fun p => { c with network := c.network ++ [p] }
  | .restart id =>
      if id ∈ m.ids then
        (RaftNode.new id (m.peersOf id) (c.nodes id).log.dataDir).map fun n =>
          { c with nodes := Function.update c.nodes id n }
      else none

/-- What a step can do: a member runs a program, the network changes, or a member starts
again. -/
inductive Moves (m : Membership) (c : Cluster) : Action → Cluster → Prop where
  | startElection {id : String} (hid : id ∈ m.ids) :
      Moves m c (.startElection id) (c.runAt id none RaftNode.startElection)
  | sendHeartbeats {id : String} (hid : id ∈ m.ids) :
      Moves m c (.sendHeartbeats id) (c.runAt id none RaftNode.sendHeartbeats)
  | propose {id : String} {command : Command} (hid : id ∈ m.ids) :
      Moves m c (.propose id command)
        { c.runAt id none (RaftNode.propose command c.proposals) with
          proposals := c.proposals + 1 }
  | deliver {k : Nat} {p : Packet} (hp : c.network[k]? = some p)
      (hid : p.envelope.recipient.asStr ∈ m.ids) :
      Moves m c (.deliver k)
        ({ c with network := c.network.eraseIdx k }.runAt p.envelope.recipient.asStr
          (some p.envelope.message) (RaftNode.handleMessage p.envelope))
  | drop (k : Nat) : Moves m c (.drop k) { c with network := c.network.eraseIdx k }
  | duplicate {k : Nat} {p : Packet} (hp : c.network[k]? = some p) :
      Moves m c (.duplicate k) { c with network := c.network ++ [p] }
  | restart {id : String} {n : RaftNode} (hid : id ∈ m.ids)
      (hnew : RaftNode.new id (m.peersOf id) (c.nodes id).log.dataDir = some n) :
      Moves m c (.restart id) { c with nodes := Function.update c.nodes id n }

/-- The inversion of `step`: proofs about a step split into these cases. -/
theorem moves_of_step {m : Membership} {c c' : Cluster} {a : Action}
    (h : m.step c a = some c') : m.Moves c a c' := by
  cases a with
  | startElection id =>
      obtain ⟨hid, ⟨⟩⟩ := Option.ite_none_right_eq_some.mp h
      exact .startElection hid
  | sendHeartbeats id =>
      obtain ⟨hid, ⟨⟩⟩ := Option.ite_none_right_eq_some.mp h
      exact .sendHeartbeats hid
  | propose id command =>
      obtain ⟨hid, ⟨⟩⟩ := Option.ite_none_right_eq_some.mp h
      exact .propose hid
  | deliver k =>
      cases hp : c.network[k]? with
      | none => simp [step, hp] at h
      | some p =>
          simp only [step, hp] at h
          obtain ⟨hid, ⟨⟩⟩ := Option.ite_none_right_eq_some.mp h
          exact .deliver hp hid
  | drop k =>
      obtain rfl := Option.some.inj h
      exact .drop k
  | duplicate k =>
      obtain ⟨p, hp, rfl⟩ := Option.map_eq_some_iff.mp h
      exact .duplicate hp
  | restart id =>
      rw [step] at h
      split at h
      · rename_i hid
        obtain ⟨n, hnew, rfl⟩ := Option.map_eq_some_iff.mp h
        exact .restart hid hnew
      · cases h

/-- The states of one execution from empty data directories, newest first. Each step is
one that `ok` allows. -/
abbrev Run (m : Membership) (ok : Cluster → Action → Prop) (tr : List Cluster) : Prop :=
  Lib.Run m.step m.initial ok tr

/-- The states that a list of actions goes through from empty data directories, newest
first. Empty where an action is not possible or not allowed. -/
abbrev trace (m : Membership) (ok : Cluster → Action → Prop) [∀ c a, Decidable (ok c a)]
    (as : List Action) : List Cluster :=
  Lib.trace m.step m.initial ok as

/-- The state a list of actions ends in. -/
abbrev final (m : Membership) (ok : Cluster → Action → Prop) [∀ c a, Decidable (ok c a)]
    (as : List Action) : Cluster :=
  Lib.final m.step m.initial ok as

/-- The state after one more step. -/
abbrev next (m : Membership) (c : Cluster) (a : Action) : Cluster := Lib.next m.step c a

/-- No two nodes lead the same term, at any two moments of the run. -/
def OneLeaderPerTerm (m : Membership) (tr : List Cluster) : Prop :=
  ∀ c ∈ tr, ∀ c' ∈ tr, ∀ a ∈ m.ids, ∀ b ∈ m.ids, ∀ term,
    c.Leads a term → c'.Leads b term → a = b

theorem OneLeaderPerTerm.of_subset {m : Membership} {tr tr' : List Cluster}
    (h : m.OneLeaderPerTerm tr) (hsub : ∀ c ∈ tr', c ∈ tr) : m.OneLeaderPerTerm tr' :=
  fun c hc c' hc' => h c (hsub c hc) c' (hsub c' hc')

instance (m : Membership) (tr : List Cluster) : Decidable (m.OneLeaderPerTerm tr) :=
  decidable_of_iff
    (∀ c ∈ tr, ∀ c' ∈ tr, ∀ a ∈ m.ids, ∀ b ∈ m.ids,
      (c.nodes a).role = .leader ∧ c'.Leads b (c.nodes a).log.currentTerm → a = b)
    ⟨fun h c hc c' hc' a ha b hb _ hl hl' =>
      h c hc c' hc' a ha b hb ⟨hl.1, hl.2 ▸ hl'⟩,
     fun h c hc c' hc' a ha b hb hl => h c hc c' hc' a ha b hb _ ⟨hl.1, rfl⟩ hl.2⟩

end Membership

end RaftEbpf
