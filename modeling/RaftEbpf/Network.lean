import RaftEbpf.Lib.Framing
import RaftEbpf.Lib.HashMap
import RaftEbpf.Wire

/-!
# `RaftEbpf.Network`: TCP networking

`raft/src/network.rs`. A message travels as a frame: its length in four bytes, the highest first,
and its JSON.

`handleConnection` reads a stream in pieces. One turn of its inner loop is `nextFrame`; the loop
itself is `Scanner.drain`. What the JSON parser makes of a payload is a parameter. A handler that
fails is logged, so the outcome of `handle_message` plays no part.

`sendMessage` keeps one open connection for each peer. Whether a connection is made, and how far a
write and its flush get, is the network's choice (`Link`). A connection is known by its number, in
the order in which they were dialed.
-/

set_option autoImplicit false

namespace RaftEbpf

open RaftEbpf.Lib (HashMap Scan Scanner)

namespace Network

/-- Message framing: 4-byte length prefix + JSON payload. -/
def maxMessageSize : Nat := 1024 * 1024

/-- `u32::to_be_bytes`, and what `put_u32` writes. -/
def toBeBytes (n : Nat) : List UInt8 :=
  [UInt8.ofNat (n / 2 ^ 24), UInt8.ofNat (n / 2 ^ 16), UInt8.ofNat (n / 2 ^ 8), UInt8.ofNat n]

/-- `u32::from_be_bytes`. -/
def fromBeBytes (b0 b1 b2 b3 : UInt8) : Nat :=
  ((b0.toNat * 2 ^ 8 + b1.toNat) * 2 ^ 8 + b2.toNat) * 2 ^ 8 + b3.toNat

/-! ### Receiving -/

/-- One turn of the inner loop of `handle_connection`. -/
def nextFrame : List UInt8 → Scan (List UInt8) UInt8
  | b0 :: b1 :: b2 :: b3 :: rest =>
      let len := fromBeBytes b0 b1 b2 b3
      if len > maxMessageSize then .bad
      -- Wait for more data.
      else if rest.length < len then .more
      else .frame (rest.take len) (rest.drop len)
  | _ => .more

theorem nextFrame_short {buf : List UInt8} (h : buf.length < 4) : nextFrame buf = .more := by
  match buf, h with
  | [], _ | [_], _ | [_, _], _ | [_, _, _], _ => rfl

/-- A decision needs a header. -/
theorem exists_header {buf : List UInt8} (h : nextFrame buf ≠ .more) :
    ∃ b0 b1 b2 b3 rest, buf = b0 :: b1 :: b2 :: b3 :: rest := by
  match buf with
  | [] | [_] | [_, _] | [_, _, _] => exact absurd rfl h
  | b0 :: b1 :: b2 :: b3 :: rest => exact ⟨b0, b1, b2, b3, rest, rfl⟩

theorem nextFrame_eq_frame {b0 b1 b2 b3 : UInt8} {rest a left : List UInt8} :
    nextFrame (b0 :: b1 :: b2 :: b3 :: rest) = .frame a left ↔
      fromBeBytes b0 b1 b2 b3 ≤ maxMessageSize ∧ fromBeBytes b0 b1 b2 b3 ≤ rest.length ∧
        a = rest.take (fromBeBytes b0 b1 b2 b3) ∧ left = rest.drop (fromBeBytes b0 b1 b2 b3) := by
  rw [nextFrame]
  split
  · rename_i hbad
    constructor
    · intro h
      cases h
    · rintro ⟨hle, -⟩
      omega
  · split
    · constructor
      · intro h
        cases h
      · rintro ⟨-, hle, -⟩
        omega
    · rename_i hle hlen
      rw [Scan.frame.injEq]
      constructor
      · rintro ⟨rfl, rfl⟩
        exact ⟨by omega, by omega, rfl, rfl⟩
      · rintro ⟨-, -, rfl, rfl⟩
        exact ⟨rfl, rfl⟩

theorem nextFrame_eq_bad {b0 b1 b2 b3 : UInt8} {rest : List UInt8} :
    nextFrame (b0 :: b1 :: b2 :: b3 :: rest) = .bad ↔
      maxMessageSize < fromBeBytes b0 b1 b2 b3 := by
  rw [nextFrame]
  split
  · rename_i hbad
    exact ⟨fun _ => hbad, fun _ => rfl⟩
  · rename_i hle
    constructor
    · intro h
      split at h
      · cases h
      · cases h
    · intro hbad
      exact absurd hbad hle

/-- The inner loop: frames are taken off the buffer while there are any. -/
def frames : Scanner (List UInt8) UInt8 where
  scan := nextFrame
  length_lt := by
    intro buf a rest h
    obtain ⟨b0, b1, b2, b3, tail, rfl⟩ := exists_header (by rw [h]; nofun)
    obtain ⟨-, -, -, rfl⟩ := nextFrame_eq_frame.mp h
    simp only [List.length_drop, List.length_cons]
    omega
  frame_append := by
    intro buf a rest h next
    obtain ⟨b0, b1, b2, b3, tail, rfl⟩ := exists_header (by rw [h]; nofun)
    obtain ⟨hle, hlen, rfl, rfl⟩ := nextFrame_eq_frame.mp h
    show nextFrame (b0 :: b1 :: b2 :: b3 :: (tail ++ next)) = _
    rw [nextFrame_eq_frame, List.take_append_of_le_length hlen, List.drop_append_of_le_length hlen,
      List.length_append]
    exact ⟨hle, by omega, rfl, rfl⟩
  bad_append := by
    intro buf h next
    obtain ⟨b0, b1, b2, b3, tail, rfl⟩ := exists_header (by rw [h]; nofun)
    show nextFrame (b0 :: b1 :: b2 :: b3 :: (tail ++ next)) = _
    rw [nextFrame_eq_bad] at h ⊢
    exact h

/-- The outer loop of `handle_connection`, with what its reads return: the payloads in order and
the bytes left in the buffer, `none` behind a message that is too large. -/
def readLoop : List UInt8 → List (List UInt8) → List (List UInt8) × Option (List UInt8)
  | buf, [] => ([], some buf)
  -- `n == 0`: the connection is closed.
  | buf, [] :: _ => ([], some buf)
  | buf, (b :: read) :: reads =>
      match frames.drain (buf ++ b :: read) with
      | (payloads, some buf) => (payloads ++ (readLoop buf reads).1, (readLoop buf reads).2)
      | (payloads, none) => (payloads, none)

/-- What a connection brings. -/
structure Incoming where
  /-- What the JSON parser is handed. -/
  payloads : List (List UInt8)
  /-- What the node is handed. -/
  messages : List MessageEnvelope
  /-- The connection was given up on a message that is too large. -/
  tooLarge : Bool

/-- `handle_connection`. A payload that does not parse is logged and skipped. -/
def handleConnection (fromSlice : List UInt8 → Option MessageEnvelope)
    (reads : List (List UInt8)) : Incoming where
  payloads := (readLoop [] reads).1
  messages := (readLoop [] reads).1.filterMap fromSlice
  tooLarge := (readLoop [] reads).2.isNone

/-- `encode_message`. -/
def encodeMessage (envelope : MessageEnvelope) : List UInt8 :=
  let payload := envelope.toVec
  toBeBytes (payload.length % 2 ^ 32) ++ payload

/-- `decode_message`. -/
def decodeMessage (fromSlice : List UInt8 → Option MessageEnvelope) (data : List UInt8) :
    Option MessageEnvelope :=
  match data with
  | b0 :: b1 :: b2 :: b3 :: rest =>
      let len := fromBeBytes b0 b1 b2 b3
      -- Incomplete message.
      if rest.length < len then none else fromSlice (rest.take len)
  -- Message too short.
  | _ => none

/-! ### Sending -/

/-- The buffer that `send_message` writes. -/
def sendBuffer (envelope : MessageEnvelope) : List UInt8 :=
  let payload := envelope.toVec
  toBeBytes (payload.length % 2 ^ 32) ++ payload

end Network

/-- What the network does with one send. -/
structure Link where
  /-- `TcpStream::connect` succeeds. -/
  connects : Bool
  /-- `write_all` fails behind this many bytes. -/
  breaksAfter : Option Nat
  flushes : Bool

/-- How one call of `send_message` ends. -/
inductive SendResult where
  | sent
  /-- The peer has no address. This counts as `Ok`. -/
  | noAddress
  /-- `TcpStream::connect` fails. -/
  | refused
  /-- `write_all` or `flush` fails. -/
  | broken
  deriving DecidableEq

/-- `send_message` returned `Err`. -/
def SendResult.IsErr : SendResult → Prop
  | .refused | .broken => True
  | .sent | .noAddress => False

instance (r : SendResult) : Decidable r.IsErr :=
  match r with
  | .refused | .broken => inferInstanceAs (Decidable True)
  | .sent | .noAddress => inferInstanceAs (Decidable False)

/-- Ghost: one call of `send_message`. -/
structure SendCall where
  peerId : String
  /-- It tried to make a new connection. -/
  dialed : Bool
  result : SendResult
  deriving DecidableEq

/-- The network manager, with the streams of its connections. -/
structure NetworkManager where
  /-- Active peer connections. -/
  connections : HashMap String Nat
  /-- Peer addresses. -/
  peerAddresses : HashMap String String
  /-- The bytes written to each connection. -/
  streams : List (List UInt8)
  /-- Ghost: the calls of `send_message`, newest first. -/
  calls : List SendCall

namespace NetworkManager

/-- `NetworkManager::new`. -/
def new : NetworkManager := ⟨∅, ∅, [], []⟩

/-- `register_peer`. -/
def registerPeer (m : NetworkManager) (peerId address : String) : NetworkManager :=
  { m with peerAddresses := m.peerAddresses.insert peerId address }

/-- A network manager that knows these peers and has sent nothing. -/
def registered (peers : List (String × String)) : NetworkManager :=
  peers.foldl (fun m p => m.registerPeer p.1 p.2) new

/-- The call ends. -/
def finish (m : NetworkManager) (peerId : String) (dialed : Bool) (result : SendResult) :
    NetworkManager :=
  { m with calls := ⟨peerId, dialed, result⟩ :: m.calls }

/-- `write_all` and `flush` on a connection. -/
def write (m : NetworkManager) (peerId : String) (dialed : Bool) (connection : Nat)
    (buf : List UInt8) (link : Link) : NetworkManager :=
  let accepted := (link.breaksAfter.map buf.take).getD buf
  let m := { m with streams := m.streams.modify connection (· ++ accepted) }
  if accepted.length < buf.length ∨ link.flushes = false then m.finish peerId dialed .broken
  else m.finish peerId dialed .sent

/-- `send_message`. The connection is stored before anything is written to it. -/
def sendMessage (m : NetworkManager) (peerId : String) (envelope : MessageEnvelope)
    (link : Link) : NetworkManager :=
  match m.connections.lookup peerId with
  | some connection => m.write peerId false connection (Network.sendBuffer envelope) link
  | none =>
      match m.peerAddresses.lookup peerId with
      | none => m.finish peerId false .noAddress
      | some _ =>
          if link.connects then
            let connection := m.streams.length
            { m with
              connections := m.connections.insert peerId connection
              streams := m.streams ++ [[]] }.write peerId true connection
              (Network.sendBuffer envelope) link
          else m.finish peerId true .refused

end NetworkManager

end RaftEbpf
