import RaftEbpf.Ipc
import RaftEbpf.Network
import RaftEbpf.Operations

/-!
# `RaftEbpf.Daemon`: the daemon

`raft/src/main.rs`: the node and the network manager, filled from one configuration, and what
happens to them afterwards. A request, a message and a timer go to the node; an envelope of the
outgoing channel goes to the network manager. Each is handled to its end before the next. The
outgoing channel itself is left open: any envelope may be sent at any time.
-/

set_option autoImplicit false

namespace RaftEbpf

open RaftEbpf.Lib (HashMap)

/-- The daemon. -/
structure Daemon where
  node : RaftNode
  network : NetworkManager
  /-- Ghost: the address that each peer was last configured or joined with. -/
  addresses : HashMap String String

/-- One thing that the daemon does. Writes of `state.json` end as listed, and succeed behind the
list. -/
inductive DaemonEvent where
  /-- A request of the command line. -/
  | request (env : Surroundings) (tx : Sender) (req : IpcRequest)
  /-- A message of a connection. -/
  | receive (envelope : MessageEnvelope) (ws : List WriteResult)
  /-- The election task, with no heartbeat for long enough. -/
  | electionTimeout (ws : List WriteResult)
  /-- The heartbeat task. -/
  | heartbeat
  /-- An envelope of the outgoing channel. -/
  | send (envelope : MessageEnvelope) (link : Link)

namespace Daemon

/-- `main` up to the tasks it starts. `none`: the log does not load. -/
def start (nodeId : String) (peers : List (String × String)) (dir : DataDir) : Option Daemon :=
  (RaftNode.new nodeId (RaftNode.peerMap peers) dir).map fun node =>
    { node
      network := .registered peers
      addresses := peers.foldl (fun m p => m.insert p.1 p.2) ∅ }

/-- The addresses after a request. -/
def readdress (addresses : HashMap String String) : IpcRequest → HashMap String String
  | .join nodeId address => addresses.insert nodeId address
  | _ => addresses

/-- The daemon after it. -/
def step (d : Daemon) : DaemonEvent → Option Daemon
  | .request env tx req =>
      some { d with
        node := ((Ipc.processRequest env tx req).run [] d.node).state
        addresses := readdress d.addresses req }
  | .receive envelope ws =>
      some { d with node := ((RaftNode.handleMessage envelope).run ws d.node).state }
  | .electionTimeout ws =>
      -- The task leaves a Leader alone.
      if d.node.role = .leader then some d
      else some { d with node := (RaftNode.startElection.run ws d.node).state }
  | .heartbeat => some { d with node := (RaftNode.sendHeartbeats.run [] d.node).state }
  | .send envelope link =>
      some { d with network := d.network.sendMessage envelope.recipient.asStr envelope link }

end Daemon

end RaftEbpf
