import RaftEbpf.Networked
import RaftEbpf.Lib.Pool
import RaftEbpf.Proofs.BrokenConnections
import RaftEbpf.Proofs.Frames

/-!
# `RaftEbpf.Proofs.Connections`: one connection and its reader

`Connection` says which messages a connection still brings: their frames are what the reader has
in its buffer and what it has not read, with at most a part of one more frame behind them. A write
that takes the whole buffer adds a message, any other leaves such a part, and a turn of the inner
loop takes the first message off.

`Host.Wired` says this of all connections that one member dialed. A part of a frame only stands
where a write has failed or where the member has started again, so that nothing is written behind
it.
-/

set_option autoImplicit false

namespace RaftEbpf

open RaftEbpf.Lib (HashMap Scan Scanner pool)
open Network

/-! ### One connection -/

/-- The messages that a running reader has not been handed, and the part of a frame behind them. -/
structure Connection (stream : List UInt8) (r : Reader) (coming : List MessageEnvelope)
    (part : List UInt8) : Prop where
  read_le : r.read ≤ stream.length
  bytes : r.buf ++ stream.drop r.read = coming.flatMap sendBuffer ++ part
  part : nextFrame part = .more
  sent : ∀ env ∈ coming, env.InRange ∧ env.recipient.asStr = r.host

/-- The frame of a message, at the start of a buffer. -/
theorem nextFrame_sendBuffer {env : MessageEnvelope} (h : env.InRange) (rest : List UInt8) :
    nextFrame (sendBuffer env ++ rest) = .frame env.toVec rest := by
  rw [sendBuffer_eq h]
  exact nextFrame_frame (MessageEnvelope.length_toVec_le h) rest

/-- A part of a frame is no frame. -/
theorem nextFrame_part {env : MessageEnvelope} (h : env.InRange) {part : List UInt8}
    (hpart : part <+: sendBuffer env) (hne : part ≠ sendBuffer env) : nextFrame part = .more := by
  obtain ⟨rest, hrest⟩ := hpart
  have hwhole := nextFrame_sendBuffer h []
  rw [List.append_nil, ← hrest] at hwhole
  -- A decision about the part would be one about the whole frame.
  cases hscan : nextFrame part with
  | more => rfl
  | frame payload left =>
      have hlonger := frames.frame_append (show frames.scan part = _ from hscan) rest
      rw [scan_frames, hwhole] at hlonger
      obtain ⟨-, hleft⟩ := Scan.frame.inj hlonger
      obtain ⟨-, rfl⟩ := List.append_eq_nil_iff.mp hleft.symm
      rw [List.append_nil] at hrest
      exact absurd hrest hne
  | bad =>
      have hlonger := frames.bad_append (show frames.scan part = _ from hscan) rest
      rw [scan_frames, hwhole] at hlonger
      cases hlonger

namespace Connection

variable {stream part : List UInt8} {r : Reader} {coming : List MessageEnvelope}

/-- Nothing was written. -/
theorem empty (host : String) : Connection [] ⟨host, true, 0, []⟩ [] [] :=
  ⟨Nat.le_refl _, rfl, rfl, nofun⟩

theorem drop_append (h : Connection stream r coming part) (more : List UInt8) :
    (stream ++ more).drop r.read = stream.drop r.read ++ more :=
  List.drop_append_of_le_length h.read_le

/-- A whole frame is written. -/
theorem write (h : Connection stream r coming []) {env : MessageEnvelope} (henv : env.InRange)
    (hhost : env.recipient.asStr = r.host) :
    Connection (stream ++ sendBuffer env) r (coming ++ [env]) [] where
  read_le := Nat.le_trans h.read_le (by rw [List.length_append]; omega)
  bytes := by
    have hbytes := h.bytes
    rw [List.append_nil] at hbytes
    rw [h.drop_append, ← List.append_assoc, hbytes, List.flatMap_append, List.flatMap_singleton,
      List.append_nil]
  part := rfl
  sent := by
    intro e he
    rcases List.mem_append.mp he with he | he
    · exact h.sent e he
    · obtain rfl := List.mem_singleton.mp he
      exact ⟨henv, hhost⟩

/-- A write ends early. -/
theorem writePart (h : Connection stream r coming []) {env : MessageEnvelope} (henv : env.InRange)
    (hpart : part <+: sendBuffer env) (hne : part ≠ sendBuffer env) :
    Connection (stream ++ part) r coming part where
  read_le := Nat.le_trans h.read_le (by rw [List.length_append]; omega)
  bytes := by
    have hbytes := h.bytes
    rw [List.append_nil] at hbytes
    rw [h.drop_append, ← List.append_assoc, hbytes]
  part := nextFrame_part henv hpart hne
  sent := h.sent

/-- More bytes are read. -/
theorem read (h : Connection stream r coming part) {count : Nat}
    (hle : r.read + count ≤ stream.length) :
    Connection stream { r with
      read := r.read + count
      buf := r.buf ++ (stream.drop r.read).take count } coming part where
  read_le := hle
  bytes := by
    show (r.buf ++ (stream.drop r.read).take count) ++ stream.drop (r.read + count) = _
    rw [List.append_assoc, ← List.drop_drop, List.take_append_drop]
    exact h.bytes
  part := h.part
  sent := h.sent

/-- The reader has found a frame: it is that of the first message. -/
theorem frame (h : Connection stream r coming part) {payload buf : List UInt8}
    (hframe : nextFrame r.buf = .frame payload buf) :
    ∃ env rest, coming = env :: rest ∧ payload = env.toVec ∧ env.InRange ∧
      env.recipient.asStr = r.host ∧ Connection stream { r with buf } rest part := by
  have hlonger := frames.frame_append (show frames.scan r.buf = _ from hframe) (stream.drop r.read)
  rw [scan_frames, h.bytes] at hlonger
  cases coming with
  | nil =>
      rw [List.flatMap_nil, List.nil_append, h.part] at hlonger
      cases hlonger
  | cons env rest =>
      obtain ⟨henv, hhost⟩ := h.sent env List.mem_cons_self
      rw [List.flatMap_cons, List.append_assoc, nextFrame_sendBuffer henv] at hlonger
      obtain ⟨hpayload, hbytes⟩ := Scan.frame.inj hlonger
      exact ⟨env, rest, rfl, hpayload.symm, henv, hhost, h.read_le, hbytes.symm, h.part,
        fun e he => h.sent e (List.mem_cons_of_mem _ he)⟩

/-- No reader comes to a message that is too large. -/
theorem not_bad (h : Connection stream r coming part) : nextFrame r.buf ≠ .bad := by
  intro hbad
  have hlonger := frames.bad_append (show frames.scan r.buf = _ from hbad) (stream.drop r.read)
  rw [scan_frames, h.bytes] at hlonger
  cases coming with
  | nil =>
      rw [List.flatMap_nil, List.nil_append, h.part] at hlonger
      cases hlonger
  | cons env rest =>
      rw [List.flatMap_cons, List.append_assoc,
        nextFrame_sendBuffer (h.sent env List.mem_cons_self).1] at hlonger
      cases hlonger

end Connection

/-! ### The connections of one member -/

/-- Nothing more is written to the connection: a write to it has failed, or it is no one's. -/
def NetworkManager.Sealed (n : NetworkManager) (k : Nat) : Prop :=
  ∀ p, n.connections.lookup p = some k → ∃ call ∈ n.calls, call.peerId = p ∧ call.result = .broken

/-- A write to a connection that takes no more bytes. -/
theorem NetworkManager.write_nothing {n : NetworkManager} {peerId : String} {dialed : Bool}
    {connection : Nat} {env : MessageEnvelope} {link : Link} (hlink : link.breaksAfter = some 0) :
    n.write peerId dialed connection (sendBuffer env) link =
      { n with
        streams := n.streams.modify connection (· ++ [])
        calls := ⟨peerId, dialed, .broken⟩ :: n.calls } := by
  have hlength : 0 < (sendBuffer env).length := by
    rw [sendBuffer]
    simp [toBeBytes]
  rw [NetworkManager.write, hlink]
  exact if_pos (Or.inl hlength)

/-- What the connections that a member dialed still bring. -/
structure Host.Wired (m : Membership) (coming : Nat → List MessageEnvelope) (h : Host) : Prop where
  addresses : ∀ p address, h.network.peerAddresses.lookup p = some address →
    p ∈ m.ids ∧ m.address p = address
  length : h.readers.length = h.network.streams.length
  hosted : ∀ (k : Nat) (r : Reader), h.readers[k]? = some r → r.host ∈ m.ids
  stored : ∀ p k, h.network.connections.lookup p = some k →
    ∃ r, h.readers[k]? = some r ∧ r.host = p
  carried : ∀ k r stream, h.readers[k]? = some r → h.network.streams[k]? = some stream →
    r.running = true →
      ∃ part, Connection stream r (coming k) part ∧ (¬ h.network.Sealed k → part = [])
  ended : ∀ k, (∀ r, h.readers[k]? = some r → r.running = false) → coming k = []

/-- All that the connections of a member bring. -/
def Host.coming (h : Host) (coming : Nat → List MessageEnvelope) : List MessageEnvelope :=
  pool (List.range h.readers.length) coming

namespace Host.Wired

variable {m : Membership} {coming coming' : Nat → List MessageEnvelope} {h : Host}

/-- A connection that was sealed stays so while its peer keeps it and calls are only added. -/
theorem sealed_mono {n n' : NetworkManager} {k : Nat} (h : n.Sealed k)
    (hconnections : ∀ p, n'.connections.lookup p = some k → n.connections.lookup p = some k)
    (hcalls : ∀ call ∈ n.calls, call ∈ n'.calls) : n'.Sealed k := by
  intro p hp
  obtain ⟨call, hcall, hrest⟩ := h p (hconnections p hp)
  exact ⟨call, hcalls call hcall, hrest⟩

/-- A call that writes nothing. -/
theorem finish (hw : h.Wired m coming) (peerId : String) (dialed : Bool) (result : SendResult) :
    Host.Wired m coming { h with network := h.network.finish peerId dialed result } := by
  refine ⟨hw.addresses, hw.length, hw.hosted, hw.stored,
    fun k r stream hr hstream hrunning => ?_, hw.ended⟩
  obtain ⟨part, hconnection, hopen⟩ := hw.carried k r stream hr hstream hrunning
  exact ⟨part, hconnection, fun hnot => hopen fun hsealed => hnot
    (sealed_mono hsealed (fun _ hp => hp) fun _ => List.mem_cons_of_mem _)⟩

/-- A new connection. -/
theorem dial (hw : h.Wired m coming) {p : String} (hp : p ∈ m.ids) :
    Host.Wired m coming { h with
      network := { h.network with
        connections := h.network.connections.insert p h.network.streams.length
        streams := h.network.streams ++ [[]] }
      readers := h.readers ++ [⟨p, true, 0, []⟩] } where
  addresses := hw.addresses
  length := by simp [hw.length]
  hosted k r hr := by
    rcases List.mem_append.mp (List.mem_of_getElem? hr) with hr | hr
    · obtain ⟨j, hj⟩ := List.mem_iff_getElem?.mp hr
      exact hw.hosted j r hj
    · obtain rfl := List.mem_singleton.mp hr
      exact hp
  stored q k hk := by
    by_cases hq : q = p
    · subst hq
      rw [AList.lookup_insert] at hk
      obtain rfl := Option.some.inj hk
      refine ⟨⟨q, true, 0, []⟩, ?_, rfl⟩
      rw [← hw.length]
      exact List.getElem?_concat_length
    · rw [AList.lookup_insert_ne hq] at hk
      obtain ⟨r, hr, hhost⟩ := hw.stored q k hk
      refine ⟨r, ?_, hhost⟩
      rw [List.getElem?_append_left (List.getElem?_eq_some_iff.mp hr).1]
      exact hr
  carried k r stream hr hstream hrunning := by
    rcases Nat.lt_or_ge k h.readers.length with hlt | hge
    · rw [List.getElem?_append_left hlt] at hr
      rw [List.getElem?_append_left (hw.length ▸ hlt)] at hstream
      obtain ⟨part, hconnection, hopen⟩ := hw.carried k r stream hr hstream hrunning
      refine ⟨part, hconnection, fun hnot => hopen fun hsealed => hnot ?_⟩
      refine sealed_mono hsealed (fun q hq => ?_) fun _ hcall => hcall
      by_cases hqp : q = p
      · subst hqp
        have hq : (h.network.connections.insert q h.network.streams.length).lookup q = some k := hq
        rw [AList.lookup_insert] at hq
        have := Option.some.inj hq
        have := hw.length
        omega
      · exact (AList.lookup_insert_ne hqp).symm.trans hq
    · -- The new one: nothing has been written to it.
      have hk : k = h.readers.length := by
        have hlt := (List.getElem?_eq_some_iff.mp hr).1
        rw [List.length_append, List.length_singleton] at hlt
        omega
      subst hk
      rw [List.getElem?_concat_length] at hr
      obtain rfl := Option.some.inj hr
      rw [hw.length, List.getElem?_concat_length] at hstream
      obtain rfl := Option.some.inj hstream
      have hnone : coming h.readers.length = [] := hw.ended _ fun r hr => by
        rw [List.getElem?_eq_none (Nat.le_refl _)] at hr
        cases hr
      rw [hnone]
      exact ⟨[], .empty p, fun _ => rfl⟩
  ended k hk := by
    refine hw.ended k fun r hr => hk r ?_
    rw [List.getElem?_append_left (List.getElem?_eq_some_iff.mp hr).1]
    exact hr

/-- A call that writes to one connection. -/
theorem extend (hw : h.Wired m coming) {k : Nat} {part : List UInt8} {call : SendCall}
    (hothers : ∀ j, j ≠ k → coming' j = coming j)
    (hcarried : ∀ r stream, h.readers[k]? = some r → h.network.streams[k]? = some stream →
      r.running = true → ∃ left, Connection (stream ++ part) r (coming' k) left ∧
        (left = [] ∨ NetworkManager.Sealed { h.network with calls := call :: h.network.calls } k))
    (hended : (∀ r, h.readers[k]? = some r → r.running = false) → coming' k = []) :
    Host.Wired m coming' { h with
      network := { h.network with
        streams := h.network.streams.modify k (· ++ part)
        calls := call :: h.network.calls } } where
  addresses := hw.addresses
  length := hw.length.trans (List.length_modify _ _ _).symm
  hosted := hw.hosted
  stored := hw.stored
  carried j r stream hr hstream hrunning := by
    by_cases hj : j = k
    · subst hj
      have hmodified : (h.network.streams.modify j (· ++ part))[j]? = some stream := hstream
      rw [List.getElem?_modify_eq] at hmodified
      obtain ⟨old, hold, rfl⟩ := Option.map_eq_some_iff.mp hmodified
      obtain ⟨left, hconnection, hleft⟩ := hcarried r old hr hold hrunning
      exact ⟨left, hconnection, fun hnot => hleft.resolve_right hnot⟩
    · have hsame : (h.network.streams.modify k (· ++ part))[j]? = some stream := hstream
      rw [List.getElem?_modify_ne _ _ (Ne.symm hj)] at hsame
      obtain ⟨left, hconnection, hopen⟩ := hw.carried j r stream hr hsame hrunning
      rw [hothers j hj]
      exact ⟨left, hconnection, fun hnot => hopen fun hsealed => hnot
        (sealed_mono hsealed (fun _ hp => hp) fun _ => List.mem_cons_of_mem _)⟩
  ended j hj := by
    by_cases hjk : j = k
    · subst hjk
      exact hended hj
    · rw [hothers j hjk]
      exact hw.ended j hj

/-- A failed call for the peer seals its connection. -/
theorem isSealed (hw : h.Wired m coming) {p : String} {k : Nat}
    (hp : h.network.connections.lookup p = some k) {calls : List SendCall}
    (hbroken : ∃ call ∈ calls, call.peerId = p ∧ call.result = .broken) :
    NetworkManager.Sealed { h.network with calls := calls } k := by
  intro q hq
  obtain ⟨r, hr, hhost⟩ := hw.stored p k hp
  obtain ⟨r', hr', hhost'⟩ := hw.stored q k hq
  rw [hr] at hr'
  obtain rfl := Option.some.inj hr'
  rw [← hhost', hhost]
  exact hbroken

/-- `write_all` and `flush` of one message: its frame is complete and the connection brings it, or
it does not. -/
theorem write (hw : h.Wired m coming) {p : String} {k : Nat}
    (hp : h.network.connections.lookup p = some k) {env : MessageEnvelope} (henv : env.InRange)
    (hrecipient : env.recipient.asStr = p) (dialed : Bool) (link : Link)
    (htcp : (∃ call ∈ h.network.calls, call.peerId = p ∧ call.result = .broken) →
      link.breaksAfter = some 0) :
    ∃ coming', Host.Wired m coming'
        { h with network := h.network.write p dialed k (sendBuffer env) link } ∧
      (∀ j, j ≠ k → coming' j = coming j) ∧
        (coming' k = coming k ∨ coming' k = coming k ++ [env]) := by
  obtain ⟨r, hr, hhost⟩ := hw.stored p k hp
  have hsame : ∀ {r' : Reader}, h.readers[k]? = some r' → r' = r := fun hr' =>
    Option.some.inj (hr'.symm.trans hr)
  by_cases hbroken : ∃ call ∈ h.network.calls, call.peerId = p ∧ call.result = .broken
  · -- Nothing more is taken.
    rw [NetworkManager.write_nothing (htcp hbroken)]
    refine ⟨coming, hw.extend (fun _ _ => rfl) (fun r' stream hr' hstream hrunning => ?_)
      (hw.ended k), fun _ _ => rfl, Or.inl rfl⟩
    obtain ⟨left, hconnection, -⟩ := hw.carried k r' stream hr' hstream hrunning
    rw [List.append_nil]
    exact ⟨left, hconnection, Or.inr (hw.isSealed hp ⟨_, List.mem_cons_self, rfl, rfl⟩)⟩
  · have hopen : ∀ {r' : Reader} {stream : List UInt8}, h.readers[k]? = some r' →
        h.network.streams[k]? = some stream → r'.running = true →
        Connection stream r' (coming k) [] := by
      intro r' stream hr' hstream hrunning
      obtain ⟨left, hconnection, hopen⟩ := hw.carried k r' stream hr' hstream hrunning
      obtain rfl := hopen fun hsealed => hbroken (hsealed p hp)
      exact hconnection
    obtain ⟨part, result, hwrite, hcases⟩ :=
      NetworkManager.write_cases h.network p dialed k (sendBuffer env) link
    rw [hwrite]
    by_cases hmore : part = sendBuffer env ∧ r.running = true
    · obtain ⟨rfl, hrunning⟩ := hmore
      refine ⟨Function.update coming k (coming k ++ [env]), hw.extend
        (fun j hj => Function.update_of_ne hj _ _) (fun r' stream hr' hstream hrunning' => ?_)
        (fun hnone => ?_), fun j hj => Function.update_of_ne hj _ _,
        Or.inr (Function.update_self _ _ _)⟩
      · have hconnection := hopen hr' hstream hrunning'
        obtain rfl := hsame hr'
        rw [Function.update_self]
        exact ⟨[], hconnection.write henv (hrecipient.trans hhost.symm), Or.inl rfl⟩
      · rw [hnone r hr] at hrunning
        cases hrunning
    · refine ⟨coming, hw.extend (fun _ _ => rfl) (fun r' stream hr' hstream hrunning => ?_)
        (hw.ended k), fun _ _ => rfl, Or.inl rfl⟩
      have hconnection := hopen hr' hstream hrunning
      obtain rfl := hsame hr'
      have hpart : part ≠ sendBuffer env := fun heq => hmore ⟨heq, hrunning⟩
      rcases hcases with ⟨heq, -⟩ | ⟨hfirst, rfl⟩
      · exact absurd heq hpart
      · exact ⟨part, hconnection.writePart henv hfirst hpart,
          Or.inr (hw.isSealed hp ⟨_, List.mem_cons_self, rfl, rfl⟩)⟩

theorem same (hw : h.Wired m coming) {h' : Host} (hnetwork : h'.network = h.network)
    (hreaders : h'.readers = h.readers) : h'.Wired m coming := by
  obtain ⟨node, outgoing, network, readers⟩ := h'
  subst hnetwork hreaders
  exact ⟨hw.addresses, hw.length, hw.hosted, hw.stored, hw.carried, hw.ended⟩

/-- One connection brings one message more, or does not. -/
theorem perm_coming {n k : Nat} (hk : k < n) (hothers : ∀ j, j ≠ k → coming' j = coming j)
    {env : MessageEnvelope} (hcoming : coming' k = coming k ∨ coming' k = coming k ++ [env]) :
    (pool (List.range n) coming').Perm (pool (List.range n) coming) ∨
      (pool (List.range n) coming').Perm (env :: pool (List.range n) coming) := by
  obtain ⟨others, hperm⟩ :=
    Lib.exists_pool_perm List.nodup_range (List.mem_range.mpr hk) coming
  have hold := hperm coming fun _ _ _ => rfl
  have hnew := hperm coming' fun j _ hj => hothers j hj
  rcases hcoming with heq | heq
  · rw [heq] at hnew
    exact Or.inl (hnew.trans hold.symm)
  · rw [heq] at hnew
    have hfront : (coming k ++ [env] ++ others).Perm (env :: (coming k ++ others)) := by
      rw [List.append_assoc]
      exact List.perm_middle
    exact Or.inr ((hnew.trans hfront).trans (hold.symm.cons env))

/-- The member that listens where a peer's address leads is the peer. -/
theorem listener_eq (hw : h.Wired m coming)
    (hdistinct : ∀ a ∈ m.ids, ∀ b ∈ m.ids, m.address a = m.address b → a = b) (p : String) :
    m.listener h.network p = (h.network.peerAddresses.lookup p).map fun _ => p := by
  rw [Membership.listener]
  cases haddress : h.network.peerAddresses.lookup p with
  | none => rfl
  | some address =>
      obtain ⟨hp, rfl⟩ := hw.addresses p address haddress
      show m.ids.find? (fun id => decide (m.address id = m.address p)) = some p
      cases hfind : m.ids.find? fun id => decide (m.address id = m.address p) with
      | none =>
          have hnone := List.find?_eq_none.mp hfind p hp
          simp at hnone
      | some q =>
          have hq := List.mem_of_find?_eq_some hfind
          have hsame : m.address q = m.address p := by simpa using List.find?_some hfind
          rw [hdistinct q hq p hp hsame]

/-- `send_message` for the first envelope of the channel: a connection brings it, or it is lost. -/
theorem sendNext (hw : h.Wired m coming)
    (hdistinct : ∀ a ∈ m.ids, ∀ b ∈ m.ids, m.address a = m.address b → a = b)
    {env : MessageEnvelope} (henv : env.InRange) (rest : List MessageEnvelope) {link : Link}
    (htcp : (∃ call ∈ h.network.calls,
      call.peerId = env.recipient.asStr ∧ call.result = .broken) → link.breaksAfter = some 0) :
    ∃ coming', (m.sendNext h env rest link).Wired m coming' ∧
      (((m.sendNext h env rest link).coming coming').Perm (h.coming coming) ∨
        ((m.sendNext h env rest link).coming coming').Perm (env :: h.coming coming)) := by
  have hlistener := hw.listener_eq hdistinct env.recipient.asStr
  -- The connection is there already.
  have hstored : ∀ {k : Nat} (link' : Link), link'.breaksAfter = link.breaksAfter →
      h.network.connections.lookup env.recipient.asStr = some k →
      ∃ coming', Host.Wired m coming'
          { h with
            outgoing := rest
            network := h.network.sendMessage env.recipient.asStr env link' } ∧
        ((pool (List.range h.readers.length) coming').Perm (h.coming coming) ∨
          (pool (List.range h.readers.length) coming').Perm (env :: h.coming coming)) ∧
        (h.network.sendMessage env.recipient.asStr env link').streams.length =
          h.network.streams.length := by
    intro k link' hlink hk
    obtain ⟨r, hr, -⟩ := hw.stored _ k hk
    obtain ⟨coming', hwired, hothers, hcoming⟩ := hw.write hk henv rfl false
      link' fun hbroken => hlink.trans (htcp hbroken)
    have hsend : h.network.sendMessage env.recipient.asStr env link' =
        h.network.write env.recipient.asStr false k (sendBuffer env) link' := by
      rw [NetworkManager.sendMessage, hk]
    rw [hsend]
    refine ⟨coming', hwired.same rfl rfl,
      perm_coming (List.getElem?_eq_some_iff.mp hr).1 hothers hcoming, ?_⟩
    exact hwired.length.symm.trans hw.length
  cases haddress : h.network.peerAddresses.lookup env.recipient.asStr with
  | none =>
      rw [haddress] at hlistener
      have hnext : m.sendNext h env rest link = { h with
          outgoing := rest
          network := h.network.sendMessage env.recipient.asStr env
            { link with connects := false } } := by
        rw [Membership.sendNext, hlistener]
        rfl
      rw [hnext]
      cases hk : h.network.connections.lookup env.recipient.asStr with
      | some k =>
          obtain ⟨coming', hwired, hperm, -⟩ := hstored { link with connects := false } rfl hk
          exact ⟨coming', hwired, hperm⟩
      | none =>
          have hsend :
              h.network.sendMessage env.recipient.asStr env { link with connects := false } =
              h.network.finish env.recipient.asStr false .noAddress := by
            rw [NetworkManager.sendMessage, hk, haddress]
          rw [hsend]
          exact ⟨coming, (hw.finish _ _ _).same rfl rfl, Or.inl (List.Perm.refl _)⟩
  | some address =>
      rw [haddress] at hlistener
      have hnext : m.sendNext h env rest link = { h with
          outgoing := rest
          network := h.network.sendMessage env.recipient.asStr env link
          readers :=
            if (h.network.sendMessage env.recipient.asStr env link).streams.length =
                h.network.streams.length then h.readers
            else h.readers ++ [⟨env.recipient.asStr, true, 0, []⟩] } := by
        rw [Membership.sendNext, hlistener]
        rfl
      rw [hnext]
      cases hk : h.network.connections.lookup env.recipient.asStr with
      | some k =>
          obtain ⟨coming', hwired, hperm, hlength⟩ := hstored link rfl hk
          rw [if_pos hlength]
          exact ⟨coming', hwired, hperm⟩
      | none =>
          by_cases hconnects : link.connects = true
          · -- A new connection, and the first write to it.
            have hdial := hw.dial (hw.addresses _ _ haddress).1
            obtain ⟨coming', hwired, hothers, hcoming⟩ := hdial.write
              (AList.lookup_insert _) henv rfl true link htcp
            have hsend : h.network.sendMessage env.recipient.asStr env link =
                { h.network with
                  connections :=
                    h.network.connections.insert env.recipient.asStr h.network.streams.length
                  streams := h.network.streams ++ [[]] }.write env.recipient.asStr true
                    h.network.streams.length (sendBuffer env) link := by
              rw [NetworkManager.sendMessage, hk, haddress]
              exact if_pos hconnects
            have hlength : (h.network.sendMessage env.recipient.asStr env link).streams.length =
                h.readers.length + 1 := by
              rw [hsend]
              refine hwired.length.symm.trans ?_
              rw [List.length_append, List.length_singleton]
            rw [if_neg (by rw [hlength, hw.length]; omega)]
            refine ⟨coming', ?_, ?_⟩
            · rw [hsend]
              exact hwired.same rfl rfl
            · have hpool : pool (List.range (h.readers.length + 1)) coming = h.coming coming := by
                have hnone : coming h.readers.length = [] := hw.ended _ fun r hr => by
                  rw [List.getElem?_eq_none (Nat.le_refl _)] at hr
                  cases hr
                rw [pool, List.range_succ, List.flatMap_append, List.flatMap_singleton, hnone,
                  List.append_nil]
                rfl
              have hperm := perm_coming (n := h.readers.length + 1)
                (by rw [hw.length]; omega) hothers hcoming
              rw [hpool] at hperm
              rw [Host.coming, List.length_append, List.length_singleton]
              exact hperm
          · have hsend : h.network.sendMessage env.recipient.asStr env link =
                h.network.finish env.recipient.asStr true .refused := by
              rw [NetworkManager.sendMessage, hk, haddress]
              exact if_neg hconnects
            have hlength : (h.network.finish env.recipient.asStr true .refused).streams.length =
                h.network.streams.length := rfl
            rw [hsend, if_pos hlength]
            exact ⟨coming, (hw.finish _ _ _).same rfl rfl, Or.inl (List.Perm.refl _)⟩

/-! ### The readers -/

theorem exists_stream (hw : h.Wired m coming) {k : Nat} {r : Reader} (hr : h.readers[k]? = some r) :
    ∃ stream, h.network.streams[k]? = some stream :=
  ⟨_, List.getElem?_eq_getElem (hw.length ▸ (List.getElem?_eq_some_iff.mp hr).1)⟩

/-- Something happens at the other end of one connection. -/
theorem setReader (hw : h.Wired m coming) {k : Nat} {r r' : Reader} (hr : h.readers[k]? = some r)
    (hhost : r'.host = r.host) (hothers : ∀ j, j ≠ k → coming' j = coming j)
    (hcarried : ∀ stream, h.network.streams[k]? = some stream → r'.running = true →
      ∃ part, Connection stream r' (coming' k) part ∧ (¬ h.network.Sealed k → part = []))
    (hended : r'.running = false → coming' k = []) :
    Host.Wired m coming' { h with readers := h.readers.set k r' } := by
  have hlt := (List.getElem?_eq_some_iff.mp hr).1
  have hself : (h.readers.set k r')[k]? = some r' := List.getElem?_set_self hlt
  have hother : ∀ {j : Nat}, j ≠ k → (h.readers.set k r')[j]? = h.readers[j]? := fun hj =>
    List.getElem?_set_ne (Ne.symm hj)
  constructor
  · exact hw.addresses
  · exact (List.length_set).trans hw.length
  · intro j q hq
    have hq : (h.readers.set k r')[j]? = some q := hq
    by_cases hj : j = k
    · subst hj
      rw [hself] at hq
      obtain rfl := Option.some.inj hq
      exact hhost ▸ hw.hosted j r hr
    · rw [hother hj] at hq
      exact hw.hosted j q hq
  · intro p j hp
    obtain ⟨q, hq, hhost'⟩ := hw.stored p j hp
    by_cases hj : j = k
    · subst hj
      rw [hr] at hq
      obtain rfl := Option.some.inj hq
      exact ⟨r', hself, hhost.trans hhost'⟩
    · exact ⟨q, (hother hj).trans hq, hhost'⟩
  · intro j q stream hq hstream hrunning
    have hq : (h.readers.set k r')[j]? = some q := hq
    by_cases hj : j = k
    · subst hj
      rw [hself] at hq
      obtain rfl := Option.some.inj hq
      exact hcarried stream hstream hrunning
    · rw [hother hj] at hq
      rw [hothers j hj]
      exact hw.carried j q stream hq hstream hrunning
  · intro j hj
    by_cases hjk : j = k
    · subst hjk
      exact hended (hj r' hself)
    · rw [hothers j hjk]
      exact hw.ended j fun q hq => hj q ((hother hjk).trans hq)

/-- More bytes are read. -/
theorem read (hw : h.Wired m coming) {k count : Nat} {r : Reader} {stream : List UInt8}
    (hr : h.readers[k]? = some r) (hstream : h.network.streams[k]? = some stream)
    (hrunning : r.running = true) (hle : r.read + count ≤ stream.length) :
    Host.Wired m coming { h with
      readers := h.readers.set k { r with
        read := r.read + count
        buf := r.buf ++ (stream.drop r.read).take count } } := by
  refine hw.setReader hr rfl (fun _ _ => rfl) (fun stream' hstream' _ => ?_) fun hnot => ?_
  · rw [hstream] at hstream'
    obtain rfl := Option.some.inj hstream'
    obtain ⟨part, hconnection, hopen⟩ := hw.carried k r stream hr hstream hrunning
    exact ⟨part, hconnection.read hle, hopen⟩
  · rw [show r.running = false from hnot] at hrunning
    cases hrunning

/-- A message is taken off. -/
theorem take (hw : h.Wired m coming) {k : Nat} {r : Reader} {payload buf : List UInt8}
    (hr : h.readers[k]? = some r) (hrunning : r.running = true)
    (hframe : nextFrame r.buf = .frame payload buf) :
    ∃ env rest, coming k = env :: rest ∧ payload = env.toVec ∧ env.InRange ∧
      env.recipient.asStr = r.host ∧
      Host.Wired m (Function.update coming k rest)
        { h with readers := h.readers.set k { r with buf } } := by
  obtain ⟨stream, hstream⟩ := hw.exists_stream hr
  obtain ⟨part, hconnection, hopen⟩ := hw.carried k r _ hr hstream hrunning
  obtain ⟨env, rest, hcoming, hpayload, henv, hhost, hleft⟩ := hconnection.frame hframe
  refine ⟨env, rest, hcoming, hpayload, henv, hhost, hw.setReader hr rfl
    (fun j hj => Function.update_of_ne hj _ _) (fun stream' hstream' _ => ?_) fun hnot => ?_⟩
  · rw [hstream] at hstream'
    obtain rfl := Option.some.inj hstream'
    rw [Function.update_self]
    exact ⟨part, hleft, hopen⟩
  · rw [show r.running = false from hnot] at hrunning
    cases hrunning

/-- No connection is given up on a message that is too large. -/
theorem not_bad (hw : h.Wired m coming) {k : Nat} {r : Reader} (hr : h.readers[k]? = some r)
    (hrunning : r.running = true) : nextFrame r.buf ≠ .bad := by
  obtain ⟨stream, hstream⟩ := hw.exists_stream hr
  obtain ⟨part, hconnection, -⟩ := hw.carried k r _ hr hstream hrunning
  exact hconnection.not_bad

/-- A reader ends. -/
theorem stop (hw : h.Wired m coming) {k : Nat} {r : Reader} (hr : h.readers[k]? = some r) :
    Host.Wired m (Function.update coming k [])
      { h with readers := h.readers.set k { r with running := false } } :=
  hw.setReader hr rfl (fun j hj => Function.update_of_ne hj _ _)
    (fun _ _ hrunning => by cases hrunning)
    fun _ => Function.update_self _ _ _

/-- The readers at a member that crashed end. -/
theorem lose (hw : h.Wired m coming) (id : String) :
    (h.lose id).Wired m fun k =>
      if (h.readers[k]?.map (·.host)) = some id then [] else coming k := by
  have hreader : ∀ {k : Nat} {r : Reader}, (h.lose id).readers[k]? = some r →
      ∃ q, h.readers[k]? = some q ∧ r.host = q.host ∧
        ((q.host = id ∧ r.running = false) ∨ (q.host ≠ id ∧ r = q)) := by
    intro k r hr
    rw [Host.lose, List.getElem?_map] at hr
    obtain ⟨q, hq, rfl⟩ := Option.map_eq_some_iff.mp hr
    by_cases hhost : q.host = id
    · rw [if_pos hhost]
      exact ⟨q, hq, rfl, Or.inl ⟨hhost, rfl⟩⟩
    · rw [if_neg hhost]
      exact ⟨q, hq, rfl, Or.inr ⟨hhost, rfl⟩⟩
  constructor
  · exact hw.addresses
  · exact (List.length_map _).trans hw.length
  · intro k r hr
    obtain ⟨q, hq, hhost, -⟩ := hreader hr
    exact hhost ▸ hw.hosted k q hq
  · intro p k hp
    obtain ⟨q, hq, hhost⟩ := hw.stored p k hp
    refine ⟨if q.host = id then { q with running := false } else q, ?_, ?_⟩
    · rw [Host.lose, List.getElem?_map, hq]
      rfl
    · split
      · exact hhost
      · exact hhost
  · intro k r stream hr hstream hrunning
    obtain ⟨q, hq, -, ⟨-, hnot⟩ | ⟨hne, rfl⟩⟩ := hreader hr
    · rw [hnot] at hrunning
      cases hrunning
    · rw [hq, Option.map_some, if_neg fun heq => hne (Option.some.inj heq)]
      exact hw.carried k r stream hq hstream hrunning
  · intro k hk
    split
    · rfl
    · rename_i hne
      refine hw.ended k fun q hq => ?_
      have hkept : (h.lose id).readers[k]? = some q := by
        rw [hq, Option.map_some] at hne
        rw [Host.lose, List.getElem?_map, hq, Option.map_some,
          if_neg fun heq => hne (congrArg some heq)]
      exact hk q hkept

/-- A member that starts again writes to none of its connections. -/
theorem started (hw : h.Wired m coming) {network : NetworkManager}
    (haddresses : ∀ p address, network.peerAddresses.lookup p = some address →
      p ∈ m.ids ∧ m.address p = address)
    (hnone : network.connections = ∅) (hstreams : network.streams = h.network.streams)
    {h' : Host} (hnetwork : h'.network = network) (hreaders : h'.readers = h.readers) :
    h'.Wired m coming := by
  obtain ⟨node, outgoing, network', readers⟩ := h'
  subst hnetwork hreaders
  have hno : ∀ p k, network'.connections.lookup p ≠ some k := by
    intro p k hp
    rw [hnone, AList.lookup_empty] at hp
    cases hp
  refine ⟨haddresses, hw.length.trans (congrArg List.length hstreams.symm), hw.hosted,
    fun p k hp => absurd hp (hno p k), fun k r stream hr hstream hrunning => ?_, hw.ended⟩
  obtain ⟨part, hconnection, -⟩ := hw.carried k r stream hr (hstreams ▸ hstream) hrunning
  exact ⟨part, hconnection, fun hnot => absurd (fun p hp => absurd hp (hno p k)) hnot⟩

end Host.Wired

end RaftEbpf
