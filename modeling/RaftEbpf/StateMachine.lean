import RaftEbpf.Lib.HashMap
import RaftEbpf.Protocol

/-!
# `RaftEbpf.StateMachine`: the replicated key-value store

`StateMachine` of `raft/src/state_machine.rs`: applying log entries, reading, and snapshots.
What `serde_json::from_slice` makes of a value is a parameter of `getMessages`, and the
encoding of a snapshot is one of `snapshot` and `restore`.
-/

set_option autoImplicit false

namespace RaftEbpf

open RaftEbpf.Lib (HashMap)

/-- The replicated state machine: a key-value store that applies committed log entries. -/
structure StateMachine where
  /-- The actual key-value data. -/
  data : HashMap String (List UInt8)
  /-- Index of the last applied entry. -/
  lastApplied : Nat

namespace StateMachine

/-- `StateMachine::new`. -/
def new : StateMachine := ⟨∅, 0⟩

/-- `apply`: an entry at or below `last_applied` is skipped. -/
def apply (sm : StateMachine) (entry : LogEntry) : StateMachine :=
  if entry.index ≤ sm.lastApplied then sm
  else
    { data :=
        match entry.command with
        | .put key value => sm.data.insert key.asStr value.toVec
        | .delete key => sm.data.erase key.asStr
        | .noop => sm.data
      lastApplied := entry.index }

/-- `get`. -/
def get (sm : StateMachine) (key : String) : Option (List UInt8) := sm.data.lookup key

/-- `str::parse::<u128>`: decimal digits, behind a plus sign or none. -/
def parseU128 (chars : List Char) : Option Nat :=
  let digits : List Char :=
    match chars with
    | '+' :: rest => rest
    | _ => chars
  let n := digits.foldl (fun n d => n * 10 + (d.toNat - '0'.toNat)) 0
  if digits ≠ [] ∧ digits.all Char.isDigit ∧ n < 2 ^ 128 then some n else none

/-- The message under a key, with its timestamp. -/
def message {V : Type} (fromSlice : List UInt8 → Option V) (key : String) (value : List UInt8) :
    Option (Nat × V) := do
  guard ("_msg:".toList <+: key.toList)
  let timestamp ← parseU128 (key.toList.drop 5)
  let msg ← fromSlice value
  return (timestamp, msg)

/-- `get_messages`: the newest first. The sort is stable. -/
def getMessages {V : Type} (fromSlice : List UInt8 → Option V) (sm : StateMachine)
    (limit : Nat) : List V :=
  let messages := sm.data.entries.filterMap fun e => message fromSlice e.1 e.2
  ((messages.mergeSort fun a b => decide (b.1 ≤ a.1)).take limit).map Prod.snd

/-! ### Snapshots -/

/-- `bincode` on the map. `none` is `Err`. -/
structure Bincode where
  serialize : HashMap String (List UInt8) → Option (List UInt8)
  deserialize : List UInt8 → Option (HashMap String (List UInt8))

/-- `snapshot`: no bytes where the map cannot be encoded. -/
def snapshot (bincode : Bincode) (sm : StateMachine) : List UInt8 :=
  (bincode.serialize sm.data).getD []

/-- `restore`: the machine after it, and `none` for `Err`. -/
def restore (bincode : Bincode) (sm : StateMachine) (snapshot : List UInt8) (lastIndex : Nat) :
    StateMachine × Option Unit :=
  match bincode.deserialize snapshot with
  | some data => (⟨data, lastIndex⟩, some ())
  | none => (sm, none)

end StateMachine

end RaftEbpf
