import Mathlib.Data.List.Dedup
import Mathlib.Data.List.Induction
import RaftEbpf.Classifier

/-!
# `RaftEbpf.Proofs.CountedSegments`: what the packet classifier counts

A frame is taken for RAFT traffic where 20 readable bytes at `14 + 4 * IHL` have the RAFT port in
front (`Taken`). It is a RAFT segment where these bytes are a TCP header (`RaftSegment`): the IPv4
header has its 20 bytes, and the packet is no later fragment. The classifier looks at neither.
-/

set_option autoImplicit false

namespace RaftEbpf.Classifier

open RaftEbpf.Lib (BoundedMap)

/-! ### Frames -/

/-- The length of the IPv4 header, in words of four bytes. -/
def ihl (frame : List UInt8) : Nat := field frame 14 1 % 2 ^ 4

/-- Where in its datagram the packet begins. -/
def fragmentOffset (frame : List UInt8) : Nat := field frame 20 2 % 2 ^ 13

/-- Where the TCP header begins. -/
def tcpOffset (frame : List UInt8) : Nat := 14 + 4 * ihl frame

def sourceAddress (frame : List UInt8) : Nat := field frame 26 4

def sequenceNumber (frame : List UInt8) : Nat := field frame (tcpOffset frame + 4) 4

/-- IPv4 with a whole header and no later fragment, and in it a whole TCP header with the RAFT
port. -/
structure RaftSegment (frame : List UInt8) : Prop where
  ipv4 : field frame 12 2 = etherTypeIpv4
  header : 5 ≤ ihl frame
  unfragmented : fragmentOffset frame = 0
  tcp : field frame 23 1 = ipProtoTcp
  complete : tcpOffset frame + 20 ≤ frame.length
  port : field frame (tcpOffset frame) 2 = raftPort ∨ field frame (tcpOffset frame + 2) 2 = raftPort

/-- What the classifier takes for RAFT traffic. -/
structure Taken (frame : List UInt8) : Prop where
  ipv4 : field frame 12 2 = etherTypeIpv4
  readable : 34 ≤ frame.length
  tcp : field frame 23 1 = ipProtoTcp
  complete : tcpOffset frame + 20 ≤ frame.length
  port : field frame (tcpOffset frame) 2 = raftPort ∨ field frame (tcpOffset frame + 2) 2 = raftPort

theorem raftSegment_iff_taken {frame : List UInt8} :
    RaftSegment frame ↔ Taken frame ∧ 5 ≤ ihl frame ∧ fragmentOffset frame = 0 := by
  constructor
  · rintro ⟨hipv4, hheader, hfragment, htcp, hcomplete, hport⟩
    refine ⟨⟨hipv4, ?_, htcp, hcomplete, hport⟩, hheader, hfragment⟩
    rw [tcpOffset] at hcomplete
    omega
  · rintro ⟨⟨hipv4, -, htcp, hcomplete, hport⟩, hheader, hfragment⟩
    exact ⟨hipv4, hheader, hfragment, htcp, hcomplete, hport⟩

/-! ### Loads -/

/-- A field of a loaded header is a field of the frame. -/
theorem field_take_drop {frame : List UInt8} {offset size i n : Nat} (h : i + n ≤ size) :
    field ((frame.drop offset).take size) i n = field frame (offset + i) n := by
  rw [field, field, List.drop_take, List.drop_drop, List.take_take,
    Nat.min_eq_left (by omega)]

theorem loadEthHdr_eq (frame : List UInt8) : loadEthHdr frame =
    if 14 ≤ frame.length then some ⟨field frame 12 2⟩ else none := by
  rw [loadEthHdr, load, ethHdrLen, Nat.zero_add]
  split
  · rw [Option.map_some, field_take_drop (by decide)]
  · rfl

theorem loadIpv4Hdr_eq (frame : List UInt8) : loadIpv4Hdr frame ethHdrLen =
    if 34 ≤ frame.length then
      some ⟨field frame 14 1, field frame 23 1, field frame 26 4, field frame 30 4⟩
    else none := by
  rw [loadIpv4Hdr, load, ethHdrLen]
  split
  · rw [Option.map_some, field_take_drop (by decide), field_take_drop (by decide),
      field_take_drop (by decide), field_take_drop (by decide)]
  · rfl

theorem loadTcpHdr_eq (frame : List UInt8) (offset : Nat) : loadTcpHdr frame offset =
    if offset + 20 ≤ frame.length then
      some ⟨field frame offset 2, field frame (offset + 2) 2, field frame (offset + 4) 4,
        field frame (offset + 8) 4,
        field frame (offset + 12) 1 + field frame (offset + 13) 1 * 2 ^ 8⟩
    else none := by
  rw [loadTcpHdr, load]
  split
  · rw [Option.map_some]
    simp only [field_take_drop, Nat.reduceAdd, Nat.reduceLeDiff, Nat.add_zero]
  · rfl

/-! ### One frame -/

section Frame
variable {s : Classifier} {a : Arrival}

/-- `try_classify_raft`, over the bytes of the frame. -/
theorem tryClassifyRaft_eq (s : Classifier) (a : Arrival) : s.tryClassifyRaft a =
    if 14 ≤ a.frame.length then
      if field a.frame 12 2 = etherTypeIpv4 then
        if 34 ≤ a.frame.length then
          if field a.frame 23 1 = ipProtoTcp then
            if tcpOffset a.frame + 20 ≤ a.frame.length then
              if field a.frame (tcpOffset a.frame) 2 = raftPort ∨
                  field a.frame (tcpOffset a.frame + 2) 2 = raftPort then
                (some tcActPipe, (s.incrementStat statPacketsTotal).record a
                  ⟨field a.frame 14 1, field a.frame 23 1, field a.frame 26 4, field a.frame 30 4⟩
                  ⟨field a.frame (tcpOffset a.frame) 2, field a.frame (tcpOffset a.frame + 2) 2,
                    sequenceNumber a.frame, field a.frame (tcpOffset a.frame + 8) 4,
                    field a.frame (tcpOffset a.frame + 12) 1 +
                      field a.frame (tcpOffset a.frame + 13) 1 * 2 ^ 8⟩)
              else (some tcActPipe, s.incrementStat statPacketsTotal)
            else (none, s.incrementStat statPacketsTotal)
          else (some tcActPipe, s.incrementStat statPacketsTotal)
        else (none, s.incrementStat statPacketsTotal)
      else (some tcActPipe, s.incrementStat statPacketsTotal)
    else (none, s.incrementStat statPacketsTotal) := by
  have hoffset : ethHdrLen + field a.frame 14 1 % 2 ^ 4 * 4 = tcpOffset a.frame := by
    rw [tcpOffset, ihl, ethHdrLen, Nat.mul_comm]
  rw [tryClassifyRaft, loadEthHdr_eq, loadIpv4Hdr_eq]
  by_cases hlen : 14 ≤ a.frame.length
  · rw [if_pos hlen, if_pos hlen]
    simp only [ne_eq, ite_not]
    congr 1
    by_cases hreadable : 34 ≤ a.frame.length
    · rw [if_pos hreadable, if_pos hreadable]
      simp only [hoffset, loadTcpHdr_eq]
      congr 1
      by_cases hcomplete : tcpOffset a.frame + 20 ≤ a.frame.length
      · rw [if_pos hcomplete, if_pos hcomplete]
        simp only [← not_or, ite_not, or_comm, sequenceNumber]
      · rw [if_neg hcomplete, if_neg hcomplete]
    · rw [if_neg hreadable, if_neg hreadable]
  · rw [if_neg hlen, if_neg hlen]

/-- The maps behind a frame that is taken for RAFT traffic, the ring buffer aside. -/
theorem classifyRaft_taken (h : Taken a.frame) : (s.classifyRaft a).1 = tcActPipe ∧
    (s.classifyRaft a).2.stats =
      ((s.incrementStat statPacketsTotal).incrementStat statRaftPackets).stats ∧
    (s.classifyRaft a).2.peerState =
      (s.updatePeer (sourceAddress a.frame) a.ktime (sequenceNumber a.frame)).peerState := by
  have hlen : 14 ≤ a.frame.length := Nat.le_trans (by decide) h.readable
  rw [classifyRaft, tryClassifyRaft_eq, if_pos hlen, if_pos h.ipv4, if_pos h.readable,
    if_pos h.tcp, if_pos h.complete, if_pos h.port, record]
  cases a.reserves
  · exact ⟨rfl, rfl, rfl⟩
  · exact ⟨rfl, rfl, rfl⟩

/-- A frame that is not: it is counted, and possibly as an error. -/
theorem classifyRaft_not_taken (h : ¬ Taken a.frame) : (s.classifyRaft a).1 = tcActPipe ∧
    ((s.classifyRaft a).2 = s.incrementStat statPacketsTotal ∨
      (s.classifyRaft a).2 = (s.incrementStat statPacketsTotal).incrementStat statErrors) := by
  rw [classifyRaft, tryClassifyRaft_eq]
  by_cases hlen : 14 ≤ a.frame.length
  · rw [if_pos hlen]
    by_cases hipv4 : field a.frame 12 2 = etherTypeIpv4
    · rw [if_pos hipv4]
      by_cases hreadable : 34 ≤ a.frame.length
      · rw [if_pos hreadable]
        by_cases htcp : field a.frame 23 1 = ipProtoTcp
        · rw [if_pos htcp]
          by_cases hcomplete : tcpOffset a.frame + 20 ≤ a.frame.length
          · rw [if_pos hcomplete, if_neg fun hport => h ⟨hipv4, hreadable, htcp, hcomplete, hport⟩]
            exact ⟨rfl, Or.inl rfl⟩
          · rw [if_neg hcomplete]
            exact ⟨rfl, Or.inr rfl⟩
        · rw [if_neg htcp]
          exact ⟨rfl, Or.inl rfl⟩
      · rw [if_neg hreadable]
        exact ⟨rfl, Or.inr rfl⟩
    · rw [if_neg hipv4]
      exact ⟨rfl, Or.inl rfl⟩
  · rw [if_neg hlen]
    exact ⟨rfl, Or.inr rfl⟩

end Frame

/-! ### The counters -/

/-- Only the three counters are in `STATS`. -/
def Known (s : Classifier) : Prop := ∀ key ∈ s.stats.entries.keys, key < 3

theorem Known.room {s : Classifier} (h : s.Known) : s.stats.entries.keys.length < 8 := by
  have hsub : s.stats.entries.keys ⊆ List.range 3 := fun key hkey => List.mem_range.mpr (h key hkey)
  have hle := (AList.keys_nodup s.stats.entries).length_le_of_subset hsub
  rw [List.length_range] at hle
  omega

theorem Known.incrementStat {s : Classifier} (h : s.Known) {key : Nat} (hkey : key < 3) :
    (s.incrementStat key).Known := by
  intro k hk
  rcases BoundedMap.mem_of_mem_upsert hk with rfl | hk
  · exact hkey
  · exact h k hk

theorem stat_incrementStat {s : Classifier} (h : s.Known) (key key' : Nat) :
    (s.incrementStat key).stat key' = if key' = key then addOne (s.stat key) else s.stat key' := by
  rw [stat, incrementStat, BoundedMap.lookup_upsert]
  by_cases hkey : key' = key
  · rw [if_pos hkey, if_pos hkey, stat]
    cases s.stats.lookup key with
    | none =>
        simp only [h.room, if_true]
        rfl
    | some v => rfl
  · rw [if_neg hkey, if_neg hkey, stat]

/-- What a frame does to `total` and `raft`. -/
theorem stat_classifyRaft {s : Classifier} (h : s.Known) (a : Arrival) :
    (s.classifyRaft a).2.Known ∧
      (s.classifyRaft a).2.stat statPacketsTotal = addOne (s.stat statPacketsTotal) ∧
      (Taken a.frame →
        (s.classifyRaft a).2.stat statRaftPackets = addOne (s.stat statRaftPackets)) ∧
      (¬ Taken a.frame → (s.classifyRaft a).2.stat statRaftPackets = s.stat statRaftPackets) := by
  have htotal : (s.incrementStat statPacketsTotal).Known := h.incrementStat (by decide)
  by_cases htaken : Taken a.frame
  · obtain ⟨-, hstats, -⟩ := classifyRaft_taken (s := s) htaken
    have hknown : ((s.incrementStat statPacketsTotal).incrementStat statRaftPackets).Known :=
      htotal.incrementStat (by decide)
    have hstat : ∀ key, (s.classifyRaft a).2.stat key =
        ((s.incrementStat statPacketsTotal).incrementStat statRaftPackets).stat key := by
      intro key
      rw [stat, hstats]
      rfl
    rw [Known, hstats, hstat, hstat]
    refine ⟨hknown, ?_, fun _ => ?_, absurd htaken⟩
    · exact (stat_incrementStat htotal _ _).trans (stat_incrementStat h _ _)
    · rw [stat_incrementStat htotal, if_pos rfl, stat_incrementStat h]
      rfl
  · rcases (classifyRaft_not_taken (s := s) htaken).2 with heq | heq
    · rw [heq]
      exact ⟨htotal, stat_incrementStat h _ _, (absurd · htaken), fun _ => stat_incrementStat h _ _⟩
    · rw [heq]
      refine ⟨htotal.incrementStat (by decide), ?_, (absurd · htaken), fun _ => ?_⟩
      · exact (stat_incrementStat htotal _ _).trans (stat_incrementStat h _ _)
      · exact (stat_incrementStat htotal _ _).trans (stat_incrementStat h _ _)

/-- A frame that is not taken leaves `PEER_STATE`. -/
theorem peerState_not_taken {s : Classifier} {a : Arrival} (h : ¬ Taken a.frame) :
    (s.classifyRaft a).2.peerState = s.peerState := by
  rcases (classifyRaft_not_taken (s := s) h).2 with heq | heq
  · rw [heq]
    rfl
  · rw [heq]
    rfl

/-! ### Sequences of frames -/

instance (frame : List UInt8) : Decidable (RaftSegment frame) :=
  decidable_of_iff (field frame 12 2 = etherTypeIpv4 ∧ 5 ≤ ihl frame ∧ fragmentOffset frame = 0 ∧
      field frame 23 1 = ipProtoTcp ∧ tcpOffset frame + 20 ≤ frame.length ∧
      (field frame (tcpOffset frame) 2 = raftPort ∨ field frame (tcpOffset frame + 2) 2 = raftPort))
    ⟨fun ⟨h1, h2, h3, h4, h5, h6⟩ => ⟨h1, h2, h3, h4, h5, h6⟩,
      fun ⟨h1, h2, h3, h4, h5, h6⟩ => ⟨h1, h2, h3, h4, h5, h6⟩⟩

/-- The addresses that RAFT segments came from, each once. -/
def sources (frames : List Arrival) : List Nat :=
  ((frames.filter fun a => RaftSegment a.frame).map fun a => sourceAddress a.frame).dedup

/-- The next frame is passed on and counted, and `raft` and the entry of its source address grow
exactly if it is a RAFT segment. A new source needs room, which it finds among the first 16. -/
structure CountsExactly (before : List Arrival) (a : Arrival) : Prop where
  passed : ((handled before).classifyRaft a).1 = tcActPipe
  total : (handled (before ++ [a])).stat statPacketsTotal =
    (handled before).stat statPacketsTotal + 1
  segment : RaftSegment a.frame →
    (handled (before ++ [a])).stat statRaftPackets = (handled before).stat statRaftPackets + 1
  recorded : RaftSegment a.frame →
    (((handled before).peerState.lookup (sourceAddress a.frame)).isSome ∨
      (sources (before ++ [a])).length ≤ 16) →
    ∃ m, (handled (before ++ [a])).peerState.lookup (sourceAddress a.frame) = some m ∧
      m.lastSeq = sequenceNumber a.frame ∧
      m.packetCount = (((handled before).peerState.lookup (sourceAddress a.frame)).map
        (·.packetCount)).getD 0 + 1
  other : ¬ RaftSegment a.frame →
    (handled (before ++ [a])).stat statRaftPackets = (handled before).stat statRaftPackets
  kept : ∀ address, ¬ (RaftSegment a.frame ∧ address = sourceAddress a.frame) →
    (handled (before ++ [a])).peerState.lookup address = (handled before).peerState.lookup address

theorem handled_append (before : List Arrival) (a : Arrival) :
    handled (before ++ [a]) = ((handled before).classifyRaft a).2 := by
  rw [handled, List.foldl_append]
  rfl

theorem known_handled (frames : List Arrival) : (handled frames).Known := by
  induction frames using List.reverseRecOn with
  | nil => exact fun key hkey => absurd hkey List.not_mem_nil
  | append_singleton before a ih =>
      rw [handled_append]
      exact (stat_classifyRaft ih a).1

/-- What is taken for RAFT traffic is a RAFT segment. -/
def Genuine (a : Arrival) : Prop := Taken a.frame → 5 ≤ ihl a.frame ∧ fragmentOffset a.frame = 0

theorem Genuine.taken_iff {a : Arrival} (h : Genuine a) : Taken a.frame ↔ RaftSegment a.frame := by
  rw [raftSegment_iff_taken]
  exact ⟨fun htaken => ⟨htaken, h htaken⟩, And.left⟩

theorem mem_sources {frames : List Arrival} {address : Nat} : address ∈ sources frames ↔
    ∃ a ∈ frames, RaftSegment a.frame ∧ sourceAddress a.frame = address := by
  simp only [sources, List.mem_dedup, List.mem_map, List.mem_filter, decide_eq_true_eq, and_assoc]

/-- The maps after genuine frames, short of a wrap: `total` is their number, no other count is above
it, and each entry has its source among the segments. -/
structure Sound (before : List Arrival) : Prop where
  total : (handled before).stat statPacketsTotal = before.length
  raft : (handled before).stat statRaftPackets ≤ before.length
  counts : ∀ address m, (handled before).peerState.lookup address = some m →
    m.packetCount ≤ before.length
  seen : ∀ address ∈ (handled before).peerState.entries.keys, address ∈ sources before

/-! ### The entry of a peer -/

section Peer
variable {s : Classifier} {address time seq bound : Nat}

/-- With room for the source, the entry has the sequence number and one more packet. -/
theorem lookup_updatePeer (hroom : (s.peerState.lookup address).isSome ∨
      s.peerState.entries.keys.length < 16)
    (hcounts : ∀ m, s.peerState.lookup address = some m → m.packetCount ≤ bound)
    (hbound : bound < u64Max) :
    ∃ m, (s.updatePeer address time seq).peerState.lookup address = some m ∧ m.lastSeq = seq ∧
      m.packetCount = ((s.peerState.lookup address).map (·.packetCount)).getD 0 + 1 := by
  rw [updatePeer, BoundedMap.lookup_upsert, if_pos rfl]
  cases hm : s.peerState.lookup address with
  | some m =>
      refine ⟨_, rfl, rfl, ?_⟩
      exact addOne_of_lt (Nat.lt_of_le_of_lt (hcounts m hm) hbound)
  | none =>
      rw [hm] at hroom
      have hlt : s.peerState.entries.keys.length < 16 := hroom.resolve_left nofun
      exact ⟨_, if_pos hlt, rfl, rfl⟩

/-- No count grows by more than one. -/
theorem packetCount_updatePeer
    (hcounts : ∀ k m, s.peerState.lookup k = some m → m.packetCount ≤ bound)
    (hbound : bound < u64Max)
    {k : Nat} {m : PeerMetadata}
    (hm : (s.updatePeer address time seq).peerState.lookup k = some m) :
    m.packetCount ≤ bound + 1 := by
  rw [updatePeer, BoundedMap.lookup_upsert] at hm
  split at hm
  · cases hold : s.peerState.lookup address with
    | some old =>
        simp only [hold] at hm
        obtain rfl := Option.some.inj hm
        have hle := hcounts address old hold
        show addOne old.packetCount ≤ bound + 1
        rw [addOne_of_lt (Nat.lt_of_le_of_lt hle hbound)]
        omega
    | none =>
        simp only [hold] at hm
        obtain ⟨-, ⟨⟩⟩ := Option.ite_none_right_eq_some.mp hm
        exact Nat.succ_le_succ (Nat.zero_le bound)
  · exact Nat.le_succ_of_le (hcounts k m hm)

end Peer

/-- The first 16 sources find room. -/
theorem Sound.room {before : List Arrival} (h : Sound before) {a : Arrival}
    (hself : sourceAddress a.frame ∈ sources (before ++ [a]))
    (hsources : ∀ address ∈ sources before, address ∈ sources (before ++ [a]))
    (hfew : (sources (before ++ [a])).length ≤ 16) :
    ((handled before).peerState.lookup (sourceAddress a.frame)).isSome ∨
      (handled before).peerState.entries.keys.length < 16 := by
  cases hlookup : (handled before).peerState.lookup (sourceAddress a.frame) with
  | some m => exact Or.inl rfl
  | none =>
      -- The source and the keys are different sources.
      refine Or.inr ?_
      have hnotMem := BoundedMap.lookup_eq_none.mp hlookup
      have hnodup := List.nodup_cons.mpr
        ⟨hnotMem, AList.keys_nodup (handled before).peerState.entries⟩
      have hsubset : sourceAddress a.frame :: (handled before).peerState.entries.keys ⊆
          sources (before ++ [a]) := by
        intro address haddress
        rcases List.mem_cons.mp haddress with rfl | haddress
        · exact hself
        · exact hsources address (h.seen address haddress)
      have hle := hnodup.length_le_of_subset hsubset
      rw [List.length_cons] at hle
      omega

/-- The next genuine frame. -/
theorem Sound.next {before : List Arrival} (h : Sound before) {a : Arrival}
    (hshort : before.length < u64Max) (hgenuine : Genuine a) :
    CountsExactly before a ∧ Sound (before ++ [a]) := by
  obtain ⟨-, htotal, hraft, hother⟩ := stat_classifyRaft (known_handled before) a
  rw [← handled_append] at htotal hraft hother
  rw [addOne_of_lt (by rw [h.total]; exact hshort)] at htotal
  have hraftMax : (handled before).stat statRaftPackets < u64Max :=
    Nat.lt_of_le_of_lt h.raft hshort
  rw [addOne_of_lt hraftMax] at hraft
  have hlength : (before ++ [a]).length = before.length + 1 := List.length_append
  have hsources : ∀ address ∈ sources before, address ∈ sources (before ++ [a]) := by
    intro address haddress
    obtain ⟨b, hb, hsegment, heq⟩ := mem_sources.mp haddress
    exact mem_sources.mpr ⟨b, List.mem_append_left _ hb, hsegment, heq⟩
  by_cases hsegment : RaftSegment a.frame
  · have htaken := hgenuine.taken_iff.mpr hsegment
    have hself : sourceAddress a.frame ∈ sources (before ++ [a]) :=
      mem_sources.mpr ⟨a, List.mem_append_right _ List.mem_cons_self, hsegment, rfl⟩
    obtain ⟨hpassed, -, hpeer⟩ := classifyRaft_taken (s := handled before) htaken
    rw [← handled_append] at hpeer
    constructor
    · exact {
        passed := hpassed
        total := htotal
        segment := fun _ => hraft htaken
        recorded := fun _ hfew => by
          rw [hpeer]
          exact lookup_updatePeer (hfew.elim Or.inl (h.room hself hsources))
            (fun m hm => h.counts _ m hm) hshort
        other := fun hs => absurd hsegment hs
        kept := fun address hne => by
          rw [hpeer, updatePeer, BoundedMap.lookup_upsert,
            if_neg fun heq => hne ⟨hsegment, heq⟩] }
    · constructor
      · rw [htotal, h.total, hlength]
      · rw [hraft htaken, hlength]
        exact Nat.succ_le_succ h.raft
      · intro address m hm
        rw [hpeer] at hm
        rw [hlength]
        exact packetCount_updatePeer h.counts hshort hm
      · intro address haddress
        rw [hpeer] at haddress
        rcases BoundedMap.mem_of_mem_upsert haddress with rfl | haddress
        · exact hself
        · exact hsources address (h.seen address haddress)
  · have htaken : ¬ Taken a.frame := fun htaken => hsegment (hgenuine.taken_iff.mp htaken)
    have hpeer := peerState_not_taken (s := handled before) htaken
    rw [← handled_append] at hpeer
    constructor
    · exact {
        passed := (classifyRaft_not_taken htaken).1
        total := htotal
        segment := fun hs => absurd hs hsegment
        recorded := fun hs => absurd hs hsegment
        other := fun _ => hother htaken
        kept := fun address _ => by rw [hpeer] }
    · constructor
      · rw [htotal, h.total, hlength]
      · rw [hother htaken, hlength]
        exact Nat.le_succ_of_le h.raft
      · intro address m hm
        rw [hpeer] at hm
        rw [hlength]
        exact Nat.le_succ_of_le (h.counts address m hm)
      · intro address haddress
        rw [hpeer] at haddress
        exact hsources address (h.seen address haddress)

theorem sound_nil : Sound [] where
  total := rfl
  raft := Nat.le_refl 0
  counts := by
    intro address m hm
    cases hm
  seen := by
    intro address haddress
    cases haddress

/-- Induction on the frames, the last one last. -/
theorem sound_handled {frames : List Arrival} (hlength : frames.length ≤ u64Max)
    (hgenuine : ∀ a ∈ frames, Genuine a) : Sound frames := by
  induction frames using List.reverseRecOn with
  | nil => exact sound_nil
  | append_singleton before a ih =>
      rw [List.length_append, List.length_singleton] at hlength
      have hbefore : Sound before :=
        ih (by omega) fun b hb => hgenuine b (List.mem_append_left _ hb)
      exact (hbefore.next (by omega) (hgenuine a (List.mem_append_right _ List.mem_cons_self))).2

/-- A frame that is counted exactly is genuine. -/
theorem CountsExactly.genuine {before : List Arrival} {a : Arrival} (h : CountsExactly before a) :
    Genuine a := by
  intro htaken
  by_contra hnot
  have hsegment : ¬ RaftSegment a.frame := fun hs => hnot (raftSegment_iff_taken.mp hs).2
  have hsame := h.other hsegment
  have hgrows := (stat_classifyRaft (known_handled before) a).2.2.1 htaken
  rw [handled_append, hgrows, addOne] at hsame
  omega

/-- Where every frame is counted exactly, there are fewer than `2 ^ 64`. -/
theorem length_le_of_countsExactly {frames : List Arrival}
    (h : ∀ before a rest, frames = before ++ a :: rest → CountsExactly before a) :
    frames.length ≤ u64Max := by
  have htotal : ∀ before rest, frames = before ++ rest →
      (handled before).stat statPacketsTotal = before.length ∧ before.length ≤ u64Max := by
    intro before
    induction before using List.reverseRecOn with
    | nil => exact fun _ _ => ⟨rfl, Nat.zero_le _⟩
    | append_singleton before a ih =>
        intro rest hrest
        have hsplit : frames = before ++ a :: rest := by rw [hrest, List.append_assoc]; rfl
        have hgrows := (h before a rest hsplit).total
        rw [(ih _ hsplit).1] at hgrows
        refine ⟨by rw [hgrows, List.length_append, List.length_singleton], ?_⟩
        -- The counter is a `u64`.
        have hwraps := (stat_classifyRaft (known_handled before) a).2.1
        rw [← handled_append, hgrows, addOne] at hwraps
        rw [List.length_append, List.length_singleton, u64Max]
        omega
  exact (htotal frames [] (List.append_nil _).symm).2

/-- For every sequence of frames: each one is counted exactly if and only if there are fewer than
`2 ^ 64`, and each that is taken for RAFT traffic has an IPv4 header of at least five words and is
no later fragment. -/
theorem countsExactly_iff (frames : List Arrival) :
    (∀ before a rest, frames = before ++ a :: rest → CountsExactly before a) ↔
      frames.length ≤ u64Max ∧
        ∀ a ∈ frames, Taken a.frame → 5 ≤ ihl a.frame ∧ fragmentOffset a.frame = 0 := by
  constructor
  · intro h
    refine ⟨length_le_of_countsExactly h, fun a ha => ?_⟩
    obtain ⟨before, rest, hsplit⟩ := List.append_of_mem ha
    exact (h before a rest hsplit).genuine
  · rintro ⟨hlength, hgenuine⟩ before a rest rfl
    rw [List.length_append, List.length_cons] at hlength
    have hsound : Sound before :=
      sound_handled (by omega) fun b hb => hgenuine b (List.mem_append_left _ hb)
    exact (hsound.next (by omega)
      (hgenuine a (List.mem_append_right _ List.mem_cons_self))).1

/-- A frame whose IPv4 header says that it is a later fragment, and with the RAFT port in front of
its data. -/
def laterFragment : Arrival where
  frame := List.replicate 12 0 ++ [8, 0] ++
    [0x45, 0, 0, 40, 0, 0, 0, 1, 64, 6, 0, 0, 10, 0, 0, 1, 10, 0, 0, 2] ++
    [0x15, 0xb3, 0, 1] ++ List.replicate 16 0
  ktime := 0
  reserves := true

/-- The fragment is counted as RAFT traffic. -/
theorem not_countsExactly : ¬ ∀ frames before a rest, frames = before ++ a :: rest →
    CountsExactly before a := by
  intro h
  have hexact := h [laterFragment] [] laterFragment [] rfl
  have htaken : Taken laterFragment.frame :=
    ⟨by decide, by decide, by decide, by decide, by decide⟩
  have hfirst := (hexact.genuine htaken).2
  revert hfirst
  decide

end RaftEbpf.Classifier
