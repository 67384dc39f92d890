import RaftEbpf.Heapless

/-!
# `RaftEbpf.State`: roles, the persistent state and peers

The types of `raft-common/src/state.rs` that the daemon uses. `VolatileState` and
`LeaderState` are declared there but the node keeps those fields itself.
-/

set_option autoImplicit false

namespace RaftEbpf

/-- The three possible states of a RAFT node. -/
inductive NodeRole where
  | follower
  | candidate
  | leader
  deriving DecidableEq

/-- Persistent state that must be saved to stable storage before responding to RPCs. -/
structure PersistentState where
  /-- Latest term server has seen (initialized to 0, increases monotonically). -/
  currentTerm : Nat
  /-- Candidate ID that received vote in current term (or `none`). -/
  votedFor : Option (HeaplessString 64)
  deriving DecidableEq

/-- `PersistentState::default`. -/
def PersistentState.default : PersistentState := ⟨0, none⟩

/-- Information about a peer node in the cluster. -/
structure PeerInfo where
  id : HeaplessString 64
  address : HeaplessString 64
  deriving DecidableEq

/-- `PeerInfo::new`. -/
def PeerInfo.new (id address : String) : PeerInfo where
  id := .pushStr 64 id
  address := .pushStr 64 address

end RaftEbpf
