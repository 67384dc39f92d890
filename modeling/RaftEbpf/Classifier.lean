import RaftEbpf.Heapless
import RaftEbpf.Lib.BoundedMap

/-!
# `RaftEbpf.Classifier`: the packet classifier

`raft-ebpf/src/main.rs`, which the kernel runs on each frame. A frame is its bytes. `load` fails
where the header does not lie in the frame. The fields of the headers are the ones of
`network-types` that the classifier reads. Those it passes through `from_be` are numbers in network
order; `data_offset_reserved_flags` is read as the target has it, the low byte first.

The clock, and whether the ring buffer has room, come with the frame (`Arrival`). Counters are `u64`
and wrap.
-/

set_option autoImplicit false

namespace RaftEbpf

open RaftEbpf.Lib (BoundedMap)

/-- Metadata about a peer, stored in the PEER_STATE BPF map. -/
structure PeerMetadata where
  /-- Kernel timestamp (nanoseconds) when last packet was seen. -/
  lastSeenNs : Nat
  /-- Number of packets received from this peer. -/
  packetCount : Nat
  /-- Last observed TCP sequence number. -/
  lastSeq : Nat
  deriving DecidableEq

/-- Event sent from eBPF to userspace via ring buffer. -/
structure RaftPacketEvent where
  srcIp : Nat
  dstIp : Nat
  srcPort : Nat
  dstPort : Nat
  timestampNs : Nat
  seq : Nat
  ack : Nat
  flags : Nat
  msgType : Nat
  deriving DecidableEq

/-- `RAFT_PORT`. -/
def raftPort : Nat := 5555

namespace Classifier

/-! ### Headers -/

/-- A number in network order. -/
def ofBeBytes (bytes : List UInt8) : Nat := bytes.foldl (fun n b => n * 2 ^ 8 + b.toNat) 0

/-- The number in these bytes of a frame. -/
def field (bytes : List UInt8) (offset size : Nat) : Nat :=
  ofBeBytes ((bytes.drop offset).take size)

/-- `ctx.load` of a header of this size. -/
def load (frame : List UInt8) (offset size : Nat) : Option (List UInt8) :=
  if offset + size ≤ frame.length then some ((frame.drop offset).take size) else none

/-- `EthHdr::LEN`. -/
def ethHdrLen : Nat := 14

/-- `EthHdr`. -/
structure EthHdr where
  etherType : Nat

/-- `Ipv4Hdr`. -/
structure Ipv4Hdr where
  versionIhl : Nat
  proto : Nat
  srcAddr : Nat
  dstAddr : Nat

/-- `TcpHdr`. -/
structure TcpHdr where
  source : Nat
  dest : Nat
  seq : Nat
  ackSeq : Nat
  dataOffsetReservedFlags : Nat

def loadEthHdr (frame : List UInt8) : Option EthHdr :=
  (load frame 0 ethHdrLen).map fun b => ⟨field b 12 2⟩

def loadIpv4Hdr (frame : List UInt8) (offset : Nat) : Option Ipv4Hdr :=
  (load frame offset 20).map fun b => ⟨field b 0 1, field b 9 1, field b 12 4, field b 16 4⟩

def loadTcpHdr (frame : List UInt8) (offset : Nat) : Option TcpHdr :=
  (load frame offset 20).map fun b =>
    ⟨field b 0 2, field b 2 2, field b 4 4, field b 8 4, field b 12 1 + field b 13 1 * 2 ^ 8⟩

/-- `EtherType::Ipv4`. -/
def etherTypeIpv4 : Nat := 0x0800

/-- `IpProto::Tcp`. -/
def ipProtoTcp : Nat := 6

end Classifier

/-! ### The maps -/

/-- The maps of the program. -/
structure Classifier where
  /-- Map storing peer metadata keyed by source IP address. -/
  peerState : BoundedMap 16 Nat PeerMetadata
  /-- The events submitted to the ring buffer, oldest first. -/
  raftEvents : List RaftPacketEvent
  /-- Statistics counters. -/
  stats : BoundedMap 8 Nat Nat

/-- A frame, and what its handling finds around it. -/
structure Arrival where
  frame : List UInt8
  /-- `bpf_ktime_get_ns`. -/
  ktime : Nat
  /-- `RAFT_EVENTS.reserve` succeeds. -/
  reserves : Bool

namespace Classifier

def statPacketsTotal : Nat := 0
def statRaftPackets : Nat := 1
def statErrors : Nat := 2

/-- `TC_ACT_PIPE`: the frame is passed on. -/
def tcActPipe : Nat := 3

/-- Empty maps. -/
def new : Classifier := ⟨.empty, [], .empty⟩

/-- `increment_stat`. -/
def incrementStat (s : Classifier) (key : Nat) : Classifier :=
  { s with stats := s.stats.upsert key addOne 1 }

/-- The update of `PEER_STATE`: an existing entry changes, or a new one is inserted. -/
def updatePeer (s : Classifier) (srcIp timestampNs seq : Nat) : Classifier :=
  { s with
    peerState := s.peerState.upsert srcIp
      (fun existing => ⟨timestampNs, addOne existing.packetCount, seq⟩) ⟨timestampNs, 1, seq⟩ }

/-- `try_classify_raft` from the point where the packet is known as RAFT traffic. -/
def record (s : Classifier) (a : Arrival) (ipv4Hdr : Ipv4Hdr) (tcpHdr : TcpHdr) : Classifier :=
  let s := (s.incrementStat statRaftPackets).updatePeer ipv4Hdr.srcAddr a.ktime tcpHdr.seq
  if a.reserves then
    { s with raftEvents := s.raftEvents ++
        [{ srcIp := ipv4Hdr.srcAddr
           dstIp := ipv4Hdr.dstAddr
           srcPort := tcpHdr.source
           dstPort := tcpHdr.dest
           timestampNs := a.ktime
           seq := tcpHdr.seq
           ack := tcpHdr.ackSeq
           flags := tcpHdr.dataOffsetReservedFlags / 2 ^ 8 % 2 ^ 6
           msgType := 0 }] }
  else s

/-- `try_classify_raft`. `none` is `Err`. -/
def tryClassifyRaft (s : Classifier) (a : Arrival) : Option Nat × Classifier :=
  let s := s.incrementStat statPacketsTotal
  match loadEthHdr a.frame with
  | none => (none, s)
  | some ethHdr =>
      -- Only process IPv4 packets.
      if ethHdr.etherType ≠ etherTypeIpv4 then (some tcActPipe, s)
      else
        match loadIpv4Hdr a.frame ethHdrLen with
        | none => (none, s)
        | some ipv4Hdr =>
            -- Only process TCP packets.
            if ipv4Hdr.proto ≠ ipProtoTcp then (some tcActPipe, s)
            else
              -- `version_ihl & 0x0f`, in words of four bytes.
              let ipv4HdrLen := ipv4Hdr.versionIhl % 2 ^ 4 * 4
              match loadTcpHdr a.frame (ethHdrLen + ipv4HdrLen) with
              | none => (none, s)
              | some tcpHdr =>
                  if tcpHdr.dest ≠ raftPort ∧ tcpHdr.source ≠ raftPort then (some tcActPipe, s)
                  else (some tcActPipe, s.record a ipv4Hdr tcpHdr)

/-- `classify_raft`. -/
def classifyRaft (s : Classifier) (a : Arrival) : Nat × Classifier :=
  match s.tryClassifyRaft a with
  | (some ret, s) => (ret, s)
  | (none, s) => (tcActPipe, s.incrementStat statErrors)

/-- A counter of `STATS`, which is zero until it is first incremented. -/
def stat (s : Classifier) (key : Nat) : Nat := (s.stats.lookup key).getD 0

/-- The maps after these frames, handled one after another. -/
def handled (frames : List Arrival) : Classifier :=
  frames.foldl (fun s a => (s.classifyRaft a).2) new

end Classifier

end RaftEbpf
