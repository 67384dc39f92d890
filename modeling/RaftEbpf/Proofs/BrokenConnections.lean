import RaftEbpf.Lib.Run
import RaftEbpf.Proofs.Frames

/-!
# `RaftEbpf.Proofs.BrokenConnections`: connections after a failed send

`send_message` keeps the connection of a peer, also where writing to it has failed. The next send to
the peer then writes behind a frame that was cut off, and no new connection is made.

* `usedWell_iff`: in a run of sends, an error is always followed by a new connection, and each
  connection carries whole frames and at most one cut off at its end, exactly if nothing is sent to
  a peer any more once a write or a flush to it has failed.
* `not_usedWell`: two sends over one broken connection.
-/

set_option autoImplicit false

namespace RaftEbpf

open RaftEbpf.Lib (HashMap)
open RaftEbpf.Network (askVote sendBuffer)

/-- One call of `send_message`, and what the network does with it. -/
structure SendRequest where
  peerId : String
  envelope : MessageEnvelope
  link : Link

namespace NetworkManager

/-- The network manager after the call. -/
def step (m : NetworkManager) (req : SendRequest) : Option NetworkManager :=
  some (m.sendMessage req.peerId req.envelope req.link)

/-- The last call for a peer. -/
def lastCall (calls : List SendCall) (peerId : String) : Option SendCall :=
  calls.find? fun call => call.peerId = peerId

/-- In these calls, newest first, each one that follows an error for the same peer dialed. -/
def DialsAgain : List SendCall → Prop
  | [] => True
  | call :: earlier =>
      (∀ last ∈ lastCall earlier call.peerId, last.result.IsErr → call.dialed = true) ∧
        DialsAgain earlier

/-- Whole frames, and behind them a part of one or nothing. -/
def WholeFrames (stream : List UInt8) : Prop :=
  ∃ (sent : List MessageEnvelope) (last : MessageEnvelope) (part : List UInt8),
    part <+: sendBuffer last ∧ stream = sent.flatMap sendBuffer ++ part

/-- After an error the next call for the peer dialed, and the connections carry whole frames, the
last one of each possibly cut off. -/
structure UsedWell (m : NetworkManager) : Prop where
  dials : DialsAgain m.calls
  framed : ∀ stream ∈ m.streams, WholeFrames stream

/-- No write or flush for this peer has failed. -/
def Unbroken (m : NetworkManager) (peerId : String) : Prop :=
  ∀ call ∈ m.calls, call.peerId = peerId → call.result ≠ .broken

instance (m : NetworkManager) (peerId : String) : Decidable (m.Unbroken peerId) :=
  inferInstanceAs (Decidable (∀ _ ∈ _, _ → _))

/-! ### One call -/

/-- What a write does: the whole buffer joins the stream, or a part of it does and the call ends
with an error. A flush that fails counts as an error behind the whole buffer. -/
theorem write_cases (m : NetworkManager) (peerId : String) (dialed : Bool) (connection : Nat)
    (buf : List UInt8) (link : Link) : ∃ part result,
      m.write peerId dialed connection buf link =
        { m with
          streams := m.streams.modify connection (· ++ part)
          calls := ⟨peerId, dialed, result⟩ :: m.calls } ∧
      ((part = buf ∧ result = .sent) ∨ (part <+: buf ∧ result = .broken)) := by
  have hpart : ((link.breaksAfter.map buf.take).getD buf) <+: buf := by
    cases link.breaksAfter with
    | none => exact List.prefix_refl buf
    | some k => exact List.take_prefix k buf
  rw [write]
  generalize (link.breaksAfter.map buf.take).getD buf = part at hpart ⊢
  by_cases hfails : part.length < buf.length ∨ link.flushes = false
  · exact ⟨part, .broken, if_pos hfails, Or.inr ⟨hpart, rfl⟩⟩
  · have hwhole : part = buf := hpart.eq_of_length_le (by omega)
    exact ⟨part, .sent, if_neg hfails, Or.inl ⟨hwhole, rfl⟩⟩

/-! ### What holds while nothing is sent over a broken connection -/

/-- Each peer has a connection of its own from its first send on, and the connection carries whole
frames until a write fails. That failure is the last call for the peer. -/
structure Sound (m : NetworkManager) : Prop where
  exists_stream : ∀ p c, m.connections.lookup p = some c → c < m.streams.length
  own : ∀ p q c, m.connections.lookup p = some c → m.connections.lookup q = some c → p = q
  stored : ∀ call ∈ m.calls, call.result = .sent ∨ call.result = .broken →
    (m.connections.lookup call.peerId).isSome
  addressed : ∀ call ∈ m.calls, call.result.IsErr →
    (m.peerAddresses.lookup call.peerId).isSome ∨ (m.connections.lookup call.peerId).isSome
  whole : ∀ p c, m.connections.lookup p = some c → m.Unbroken p →
    ∃ sent : List MessageEnvelope, m.streams[c]? = some (sent.flatMap sendBuffer)
  last : ∀ call ∈ m.calls, call.result = .broken →
    ∀ last ∈ lastCall m.calls call.peerId, last.result = .broken
  usedWell : m.UsedWell

/-- Nothing has been sent yet. -/
theorem registered_empty (peers : List (String × String)) :
    (registered peers).connections = ∅ ∧ (registered peers).streams = [] ∧
      (registered peers).calls = [] := by
  have hempty : ∀ (ps : List (String × String)) (m : NetworkManager),
      m.connections = ∅ → m.streams = [] → m.calls = [] →
        let m' := ps.foldl (fun m p => m.registerPeer p.1 p.2) m
        m'.connections = ∅ ∧ m'.streams = [] ∧ m'.calls = [] := by
    intro ps
    induction ps with
    | nil => exact fun m h1 h2 h3 => ⟨h1, h2, h3⟩
    | cons p ps ih => exact fun m h1 h2 h3 => ih (m.registerPeer p.1 p.2) h1 h2 h3
  exact hempty peers new rfl rfl rfl

theorem sound_registered (peers : List (String × String)) : (registered peers).Sound := by
  obtain ⟨hconnections, hstreams, hcalls⟩ := registered_empty peers
  have hnone : ∀ p c, (registered peers).connections.lookup p ≠ some c := by
    intro p c h
    rw [hconnections, AList.lookup_empty] at h
    cases h
  have hnocall : ∀ call, call ∉ (registered peers).calls := by
    intro call h
    rw [hcalls] at h
    cases h
  refine ⟨fun p c h => absurd h (hnone p c), fun p q c h => absurd h (hnone p c),
    fun call h => absurd h (hnocall call), fun call h => absurd h (hnocall call),
    fun p c h => absurd h (hnone p c), fun call h => absurd h (hnocall call), ?_, ?_⟩
  · rw [hcalls]
    trivial
  · rw [hstreams]
    nofun

section Step
variable {m : NetworkManager} {p : String}

theorem unbroken_cons {call : SendCall} {calls : List SendCall} {q : String}
    (h : ∀ c ∈ call :: calls, c.peerId = q → c.result ≠ .broken) :
    ∀ c ∈ calls, c.peerId = q → c.result ≠ .broken :=
  fun c hc => h c (List.mem_cons_of_mem _ hc)

/-- The last call, once another has been made. -/
theorem lastCall_cons (call : SendCall) (calls : List SendCall) (q : String) :
    lastCall (call :: calls) q = if call.peerId = q then some call else lastCall calls q := by
  rw [lastCall, List.find?_cons]
  by_cases hq : call.peerId = q
  · simp [hq]
  · simp [hq, lastCall]

/-- A call that ends without a connection. -/
theorem Sound.finish (h : m.Sound) (hstored : m.connections.lookup p = none) {dialed : Bool}
    {result : SendResult} (hresult : result = .noAddress ∨ result = .refused)
    (haddress : result.IsErr → (m.peerAddresses.lookup p).isSome)
    (hdials : ∀ last ∈ lastCall m.calls p, last.result.IsErr → dialed = true) :
    (m.finish p dialed result).Sound := by
  have hnot : result ≠ .sent ∧ result ≠ .broken := by
    rcases hresult with rfl | rfl
    · exact ⟨nofun, nofun⟩
    · exact ⟨nofun, nofun⟩
  have hbroken : ∀ call ∈ m.calls, call.result = .broken → call.peerId ≠ p := by
    intro call hcall hres hp
    have hsome := h.stored call hcall (Or.inr hres)
    rw [hp, hstored] at hsome
    cases hsome
  constructor
  · exact h.exists_stream
  · exact h.own
  · intro call hcall hres
    rcases List.mem_cons.mp hcall with rfl | hcall
    · exact absurd hres (not_or.mpr hnot)
    · exact h.stored call hcall hres
  · intro call hcall herr
    rcases List.mem_cons.mp hcall with rfl | hcall
    · exact Or.inl (haddress herr)
    · exact h.addressed call hcall herr
  · intro q c hq hunbroken
    exact h.whole q c hq (unbroken_cons hunbroken)
  · intro call hcall hres last hlast
    rcases List.mem_cons.mp hcall with rfl | hcall
    · exact absurd hres hnot.2
    · have hlast : last ∈ lastCall (⟨p, dialed, result⟩ :: m.calls) call.peerId := hlast
      rw [lastCall_cons, if_neg (Ne.symm (hbroken call hcall hres))] at hlast
      exact h.last call hcall hres last hlast
  · exact ⟨⟨hdials, h.usedWell.dials⟩, h.usedWell.framed⟩

/-- A call that writes to the connection of its peer. Nothing is broken there yet. -/
theorem Sound.write (h : m.Sound) {c : Nat} (hstored : m.connections.lookup p = some c)
    (hunbroken : m.Unbroken p) {dialed : Bool}
    (hdials : ∀ last ∈ lastCall m.calls p, last.result.IsErr → dialed = true)
    (envelope : MessageEnvelope) (link : Link) :
    (m.write p dialed c (sendBuffer envelope) link).Sound := by
  obtain ⟨part, result, hwrite, hcases⟩ := write_cases m p dialed c (sendBuffer envelope) link
  obtain ⟨sent, hsent⟩ := h.whole p c hstored hunbroken
  have hstream : (m.streams.modify c (· ++ part))[c]? = some (sent.flatMap sendBuffer ++ part) := by
    rw [List.getElem?_modify_eq, hsent]
    rfl
  rw [hwrite]
  constructor
  · intro q d hq
    show d < (m.streams.modify c _).length
    rw [List.length_modify]
    exact h.exists_stream q d hq
  · exact h.own
  · intro call hcall hres
    rcases List.mem_cons.mp hcall with rfl | hcall
    · show (m.connections.lookup p).isSome
      rw [hstored]
      rfl
    · exact h.stored call hcall hres
  · intro call hcall herr
    rcases List.mem_cons.mp hcall with rfl | hcall
    · refine Or.inr ?_
      show (m.connections.lookup p).isSome
      rw [hstored]
      rfl
    · exact h.addressed call hcall herr
  · intro q d hq hnone
    show ∃ sent : List MessageEnvelope, (m.streams.modify c _)[d]? = some (sent.flatMap sendBuffer)
    by_cases hd : d = c
    · subst hd
      obtain rfl : p = q := h.own p q d hstored hq
      rcases hcases with ⟨rfl, -⟩ | ⟨-, rfl⟩
      · refine ⟨sent ++ [envelope], ?_⟩
        rw [hstream, List.flatMap_append, List.flatMap_singleton]
      · exact absurd rfl (hnone _ List.mem_cons_self rfl)
    · rw [List.getElem?_modify_ne _ _ (Ne.symm hd)]
      exact h.whole q d hq (unbroken_cons hnone)
  · intro call hcall hres last hlast
    have hlast : last ∈ lastCall (⟨p, dialed, result⟩ :: m.calls) call.peerId := hlast
    rw [lastCall_cons] at hlast
    rcases List.mem_cons.mp hcall with rfl | hcall
    · rw [if_pos rfl] at hlast
      obtain rfl := Option.some.inj hlast
      exact hres
    · have hother : call.peerId ≠ p := fun hp => hunbroken call hcall hp hres
      rw [if_neg (Ne.symm hother)] at hlast
      exact h.last call hcall hres last hlast
  · constructor
    · exact ⟨hdials, h.usedWell.dials⟩
    · intro stream hmem
      obtain ⟨d, hd⟩ := List.mem_iff_getElem?.mp hmem
      have hd : (m.streams.modify c (· ++ part))[d]? = some stream := hd
      by_cases hdc : d = c
      · subst hdc
        rw [hstream] at hd
        obtain rfl := Option.some.inj hd
        refine ⟨sent, envelope, part, ?_, rfl⟩
        rcases hcases with ⟨rfl, -⟩ | ⟨hcut, -⟩
        · exact List.prefix_refl _
        · exact hcut
      · rw [List.getElem?_modify_ne _ _ (Ne.symm hdc)] at hd
        exact h.usedWell.framed stream (List.mem_of_getElem? hd)

/-- A new connection, with nothing written to it. -/
theorem Sound.dial (h : m.Sound) (hstored : m.connections.lookup p = none) :
    { m with
      connections := m.connections.insert p m.streams.length
      streams := m.streams ++ [[]] }.Sound := by
  have hlookup : ∀ q c, (m.connections.insert p m.streams.length).lookup q = some c →
      (q = p ∧ c = m.streams.length) ∨ (q ≠ p ∧ m.connections.lookup q = some c) := by
    intro q c hq
    by_cases hqp : q = p
    · subst hqp
      rw [AList.lookup_insert] at hq
      exact Or.inl ⟨rfl, (Option.some.inj hq).symm⟩
    · rw [AList.lookup_insert_ne hqp] at hq
      exact Or.inr ⟨hqp, hq⟩
  have hkeeps : ∀ q, (m.connections.lookup q).isSome →
      ((m.connections.insert p m.streams.length).lookup q).isSome := by
    intro q hq
    by_cases hqp : q = p
    · subst hqp
      rw [AList.lookup_insert]
      rfl
    · rwa [AList.lookup_insert_ne hqp]
  constructor
  · intro q c hq
    show c < (m.streams ++ [[]]).length
    rw [List.length_append, List.length_singleton]
    rcases hlookup q c hq with ⟨-, rfl⟩ | ⟨-, hq⟩
    · omega
    · have hlt := h.exists_stream q c hq
      omega
  · intro q r c hq hr
    rcases hlookup q c hq with ⟨hqp, hc⟩ | ⟨-, hq'⟩
    · rcases hlookup r c hr with ⟨hrp, -⟩ | ⟨-, hr'⟩
      · rw [hqp, hrp]
      · have hlt := h.exists_stream r c hr'
        omega
    · rcases hlookup r c hr with ⟨-, hc⟩ | ⟨-, hr'⟩
      · have hlt := h.exists_stream q c hq'
        omega
      · exact h.own q r c hq' hr'
  · intro call hcall hres
    exact hkeeps _ (h.stored call hcall hres)
  · intro call hcall herr
    exact (h.addressed call hcall herr).imp id (hkeeps _)
  · intro q c hq hunbroken
    show ∃ sent : List MessageEnvelope, (m.streams ++ [[]])[c]? = some (sent.flatMap sendBuffer)
    rcases hlookup q c hq with ⟨-, rfl⟩ | ⟨-, hq⟩
    · exact ⟨[], by simp⟩
    · rw [List.getElem?_append_left (h.exists_stream q c hq)]
      exact h.whole q c hq hunbroken
  · exact h.last
  · constructor
    · exact h.usedWell.dials
    · intro stream hmem
      rcases List.mem_append.mp hmem with hmem | hmem
      · exact h.usedWell.framed stream hmem
      · obtain rfl := List.mem_singleton.mp hmem
        exact ⟨[], ⟨.pushStr 64 "", .pushStr 64 "", .clientRequest ⟨0, .noop⟩⟩, [],
          List.nil_prefix, rfl⟩

end Step

/-- A peer whose last call did not get a connection has none. -/
def NotConnected (m : NetworkManager) : Prop :=
  ∀ p, ∀ last ∈ lastCall m.calls p, last.result = .refused → m.connections.lookup p = none

/-- What holds in a run as long as nothing is sent over a broken connection. -/
def Good (m : NetworkManager) : Prop := m.Sound ∧ m.NotConnected

theorem good_registered (peers : List (String × String)) : (registered peers).Good := by
  refine ⟨sound_registered peers, fun p last hlast _ => ?_⟩
  rw [(registered_empty peers).2.2] at hlast
  cases hlast

section Step
variable {m : NetworkManager} {p : String}

/-- An error that is not of a broken connection is one of a dial. -/
theorem refused_of_unbroken (hunbroken : m.Unbroken p) {last : SendCall}
    (hlast : last ∈ lastCall m.calls p) (herr : last.result.IsErr) :
    last ∈ m.calls ∧ last.peerId = p ∧ last.result = .refused := by
  have hmem := List.mem_of_find?_eq_some hlast
  have hpeer : last.peerId = p := by simpa using List.find?_some hlast
  have hres := hunbroken last hmem hpeer
  cases hr : last.result with
  | refused => exact ⟨hmem, hpeer, rfl⟩
  | broken => exact absurd hr hres
  | sent =>
      rw [hr] at herr
      cases herr
  | noAddress =>
      rw [hr] at herr
      cases herr

/-- One more call, after which only the connection of its own peer may be another one. -/
theorem NotConnected.cons (h : m.NotConnected) {m' : NetworkManager} (call : SendCall)
    (hcalls : m'.calls = call :: m.calls)
    (hown : call.result = .refused → m'.connections.lookup call.peerId = none)
    (hothers : ∀ q, q ≠ call.peerId → m'.connections.lookup q = m.connections.lookup q) :
    m'.NotConnected := by
  intro q last hlast hrefused
  rw [hcalls, lastCall_cons] at hlast
  by_cases hq : call.peerId = q
  · rw [if_pos hq] at hlast
    obtain rfl := Option.some.inj hlast
    rw [← hq]
    exact hown hrefused
  · rw [if_neg hq] at hlast
    rw [hothers q (Ne.symm hq)]
    exact h q last hlast hrefused

/-- A write refuses nothing and leaves the connections as they are. -/
theorem NotConnected.write (h : m.NotConnected) (dialed : Bool) (connection : Nat)
    (buf : List UInt8) (link : Link) {m' : NetworkManager} (hcalls : m'.calls = m.calls)
    (hothers : ∀ q, q ≠ p → m'.connections.lookup q = m.connections.lookup q) :
    (m'.write p dialed connection buf link).NotConnected := by
  obtain ⟨part, result, hwrite, hcases⟩ := write_cases m' p dialed connection buf link
  rw [hwrite]
  refine h.cons ⟨p, dialed, result⟩ ?_ ?_ hothers
  · show _ :: m'.calls = _
    rw [hcalls]
  · intro hrefused
    rcases hcases with ⟨-, rfl⟩ | ⟨-, rfl⟩
    · cases hrefused
    · cases hrefused

/-- A send to a peer for which nothing is broken. -/
theorem Good.sendMessage (h : m.Good) (hunbroken : m.Unbroken p) (envelope : MessageEnvelope)
    (link : Link) : (m.sendMessage p envelope link).Good := by
  obtain ⟨hsound, hnot⟩ := h
  rw [NetworkManager.sendMessage]
  cases hstored : m.connections.lookup p with
  | some c =>
      -- A connection that is there was not refused.
      have hdials : ∀ last ∈ lastCall m.calls p, last.result.IsErr → false = true := by
        intro last hlast herr
        obtain ⟨-, -, hrefused⟩ := refused_of_unbroken hunbroken hlast herr
        rw [hnot p last hlast hrefused] at hstored
        cases hstored
      exact ⟨hsound.write hstored hunbroken hdials envelope link,
        hnot.write false c _ link rfl fun q _ => rfl⟩
  | none =>
      cases haddress : m.peerAddresses.lookup p with
      | none =>
          -- An error would have had an address.
          have hdials : ∀ last ∈ lastCall m.calls p, last.result.IsErr → false = true := by
            intro last hlast herr
            obtain ⟨hmem, hpeer, -⟩ := refused_of_unbroken hunbroken hlast herr
            have hsome := hsound.addressed last hmem herr
            rw [hpeer, haddress, hstored] at hsome
            rcases hsome with hsome | hsome
            · cases hsome
            · cases hsome
          refine ⟨hsound.finish hstored (Or.inl rfl) (fun herr => by cases herr) hdials, ?_⟩
          exact hnot.cons _ rfl (fun _ => hstored) fun q _ => rfl
      | some address =>
          have hdials : ∀ last ∈ lastCall m.calls p, last.result.IsErr → true = true :=
            fun _ _ _ => rfl
          by_cases hconnects : link.connects = true
          · have hown : (m.connections.insert p m.streams.length).lookup p =
                some m.streams.length := AList.lookup_insert _
            simp only [hconnects, if_true]
            refine ⟨(hsound.dial hstored).write hown hunbroken hdials envelope link, ?_⟩
            exact hnot.write true _ _ link rfl fun q hq => AList.lookup_insert_ne hq
          · simp only [hconnects]
            refine ⟨hsound.finish hstored (Or.inr rfl) (fun _ => ?_) hdials, ?_⟩
            · rw [haddress]
              rfl
            · exact hnot.cons _ rfl (fun _ => hstored) fun q _ => rfl

/-- A call behind a broken one writes to the same connection. -/
theorem Sound.unbroken_of_usedWell (h : m.Sound) {envelope : MessageEnvelope} {link : Link}
    (hwell : (m.sendMessage p envelope link).UsedWell) : m.Unbroken p := by
  rintro call hcall rfl hbroken
  obtain ⟨c, hstored⟩ := Option.isSome_iff_exists.mp (h.stored call hcall (Or.inr hbroken))
  obtain ⟨last, hlast⟩ : ∃ last, lastCall m.calls call.peerId = some last := by
    rw [← Option.isSome_iff_exists, lastCall, List.find?_isSome]
    exact ⟨call, hcall, by simp⟩
  have hlastBroken := h.last call hcall hbroken last hlast
  have hdials := hwell.dials
  obtain ⟨part, result, hwrite, -⟩ :=
    write_cases m call.peerId false c (sendBuffer envelope) link
  simp only [NetworkManager.sendMessage, hstored, hwrite] at hdials
  have hdialed : false = true := hdials.1 last hlast (by rw [hlastBroken]; trivial)
  cases hdialed

end Step

/-- In a run of sends from the start, the connections are used well in all states exactly if no
send was to a peer for which a write or a flush had failed before. -/
theorem usedWell_iff (peers : List (String × String))
    {tr : List (NetworkManager × List (NetworkManager × SendRequest × NetworkManager))}
    (h : Lib.Run (Lib.recorded step) (registered peers, []) (fun _ _ => True) tr) :
    ∀ s ∈ tr, (∀ x ∈ s.2, x.2.2.UsedWell) ↔ ∀ x ∈ s.2, x.1.Unbroken x.2.1.peerId := by
  refine @Lib.Run.recorded_iff_of_invariant _ _ step _ (fun _ _ => True) UsedWell Good
    (fun m req => m.Unbroken req.peerId) (good_registered peers)
    (fun _ hgood => hgood.1.usedWell) ?_ ?_ _ h
  · intro m req m' hgood _ hstep hunbroken
    obtain rfl := Option.some.inj hstep
    exact hgood.sendMessage hunbroken req.envelope req.link
  · intro m req m' hgood _ hstep hwell
    obtain rfl := Option.some.inj hstep
    exact hgood.1.unbroken_of_usedWell hwell

/-- A peer that cannot be reached at first: the second send dials again. -/
def secondDial : List SendRequest :=
  [⟨"B", askVote, ⟨false, none, true⟩⟩, ⟨"B", askVote, ⟨true, none, true⟩⟩]

theorem usedWell_iff_secondDial :
    let ok : NetworkManager × List (NetworkManager × SendRequest × NetworkManager) →
      SendRequest → Prop := fun _ _ => True
    let tr := Lib.trace (Lib.recorded step) (registered [("B", "b:7000")], []) ok secondDial
    tr.length = 3 ∧
      ∀ s ∈ tr, (∀ x ∈ s.2, x.2.2.UsedWell) ↔ ∀ x ∈ s.2, x.1.Unbroken x.2.1.peerId :=
  ⟨rfl, usedWell_iff [("B", "b:7000")] (Lib.run_trace rfl)⟩

/-- A write that breaks off behind one byte is broken. -/
theorem broken_of_breaksAfter (m : NetworkManager) (peerId : String) (dialed : Bool)
    (connection : Nat) (envelope : MessageEnvelope) :
    ⟨peerId, dialed, .broken⟩ ∈
      (m.write peerId dialed connection (sendBuffer envelope) ⟨true, some 1, true⟩).calls := by
  have hshort : ((sendBuffer envelope).take 1).length < (sendBuffer envelope).length := by
    simp [sendBuffer, Network.toBeBytes]
  simp only [write, Option.map_some, Option.getD_some, if_pos (Or.inl hshort)]
  exact List.mem_cons_self

/-- A send whose write breaks off behind one byte. -/
def brokenSend : SendRequest := ⟨"B", askVote, ⟨true, some 1, true⟩⟩

/-- A send that finds the network in order. -/
def laterSend : SendRequest := ⟨"B", askVote, ⟨true, none, true⟩⟩

theorem not_usedWell :
    ¬ ∀ (peers : List (String × String)) (tr : List NetworkManager),
      Lib.Run step (registered peers) (fun _ _ => True) tr → ∀ m ∈ tr, m.UsedWell := by
  intro h
  let start := registered [("B", "b:7000")]
  let once := start.sendMessage "B" askVote ⟨true, some 1, true⟩
  have hrun : Lib.Run step start (fun _ _ => True)
      [once.sendMessage "B" askVote ⟨true, none, true⟩, once, start] :=
    (Lib.Run.start.step (a := brokenSend) trivial rfl).step (a := laterSend) trivial rfl
  have hwell := h _ _ hrun _ List.mem_cons_self
  have hconnections : start.connections.lookup "B" = none := rfl
  have haddress : start.peerAddresses.lookup "B" = some "b:7000" := rfl
  have honce : once.Good :=
    (good_registered _).sendMessage (by rintro call hcall; cases hcall) askVote _
  have hbroken : ⟨"B", true, .broken⟩ ∈ once.calls := by
    simp only [once, NetworkManager.sendMessage, hconnections, haddress, if_true]
    exact broken_of_breaksAfter _ _ _ _ _
  exact honce.1.unbroken_of_usedWell hwell _ hbroken rfl rfl

end NetworkManager

end RaftEbpf
