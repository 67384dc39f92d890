import RaftEbpf.Proofs.WireSize

/-!
# `RaftEbpf.Proofs.Frames`: messages on a stream

What a connection hands to the parser depends on the bytes it brings, not on the reads they come
in. `Framed` says what these bytes are, without a buffer: frame behind frame, up to a header above
the limit or a tail that is not complete.

* `frames_of_stream`: a connection hands over exactly these payloads, and the messages of senders
  arrive as they were sent.
* `every_message_fits`: no message that a node can send closes a connection.
-/

set_option autoImplicit false

namespace RaftEbpf.Network

open RaftEbpf.Lib (Scan Scanner)

/-- The payloads at the start of a stream, in order. -/
inductive Framed : List UInt8 → List (List UInt8) → Prop where
  /-- A header is not complete. -/
  | noHeader {stream : List UInt8} : stream.length < 4 → Framed stream []
  /-- A payload is not complete. -/
  | incomplete {len : Nat} {tail : List UInt8} :
      len ≤ maxMessageSize → tail.length < len → Framed (toBeBytes len ++ tail) []
  | tooLarge {len : Nat} {tail : List UInt8} :
      maxMessageSize < len → len < 2 ^ 32 → Framed (toBeBytes len ++ tail) []
  | frame {payload stream : List UInt8} {payloads : List (List UInt8)} :
      payload.length ≤ maxMessageSize → Framed stream payloads →
        Framed (toBeBytes payload.length ++ payload ++ stream) (payload :: payloads)

/-! ### Headers -/

theorem fromBeBytes_lt (b0 b1 b2 b3 : UInt8) : fromBeBytes b0 b1 b2 b3 < 2 ^ 32 := by
  have h0 := b0.toNat_lt
  have h1 := b1.toNat_lt
  have h2 := b2.toNat_lt
  have h3 := b3.toNat_lt
  unfold fromBeBytes
  omega

/-- The length that is written is read. -/
theorem fromBeBytes_toBeBytes {n : Nat} (h : n < 2 ^ 32) :
    fromBeBytes (UInt8.ofNat (n / 2 ^ 24)) (UInt8.ofNat (n / 2 ^ 16)) (UInt8.ofNat (n / 2 ^ 8))
      (UInt8.ofNat n) = n := by
  simp only [fromBeBytes, UInt8.toNat_ofNat']
  omega

/-- Any four bytes are a header. -/
theorem toBeBytes_fromBeBytes (b0 b1 b2 b3 : UInt8) :
    toBeBytes (fromBeBytes b0 b1 b2 b3) = [b0, b1, b2, b3] := by
  have h0 := b0.toNat_lt
  have h1 := b1.toNat_lt
  have h2 := b2.toNat_lt
  have h3 := b3.toNat_lt
  have hbyte : ∀ (n : Nat) (b : UInt8), n % 2 ^ 8 = b.toNat → UInt8.ofNat n = b := by
    intro n b h
    rw [← UInt8.toNat_inj, UInt8.toNat_ofNat']
    exact h
  simp only [toBeBytes, fromBeBytes]
  rw [hbyte _ b0 (by omega), hbyte _ b1 (by omega), hbyte _ b2 (by omega), hbyte _ b3 (by omega)]

/-- What one turn of the loop does behind a header. -/
theorem nextFrame_toBeBytes {n : Nat} (h : n < 2 ^ 32) (rest : List UInt8) :
    nextFrame (toBeBytes n ++ rest) =
      if n > maxMessageSize then .bad
      else if rest.length < n then .more else .frame (rest.take n) (rest.drop n) := by
  show nextFrame (_ :: _ :: _ :: _ :: rest) = _
  rw [nextFrame, fromBeBytes_toBeBytes h]

/-! ### One stream -/

theorem scan_frames (buf : List UInt8) : frames.scan buf = nextFrame buf := rfl

theorem scan_nil : frames.scan [] = .more := rfl

theorem maxMessageSize_lt : maxMessageSize < 2 ^ 32 := by decide

/-- One frame at the start. -/
theorem nextFrame_frame {payload : List UInt8} (h : payload.length ≤ maxMessageSize)
    (rest : List UInt8) :
    nextFrame (toBeBytes payload.length ++ payload ++ rest) = .frame payload rest := by
  have hlt := maxMessageSize_lt
  rw [List.append_assoc, nextFrame_toBeBytes (by omega), if_neg (by omega), if_neg, List.take_left,
    List.drop_left]
  rw [List.length_append]
  omega

/-- The loop finds the payloads of the stream. -/
theorem Framed.drain {stream : List UInt8} {payloads : List (List UInt8)}
    (h : Framed stream payloads) : (frames.drain stream).1 = payloads := by
  have hlt := maxMessageSize_lt
  induction h with
  | noHeader hshort =>
      rw [Scanner.drain_more]
      exact nextFrame_short hshort
  | @incomplete len tail hle hshort =>
      have hscan : frames.scan (toBeBytes len ++ tail) = .more := by
        rw [scan_frames, nextFrame_toBeBytes (by omega), if_neg (by omega), if_pos hshort]
      rw [Scanner.drain_more hscan]
  | @tooLarge len tail hlarge hword =>
      have hscan : frames.scan (toBeBytes len ++ tail) = .bad := by
        rw [scan_frames, nextFrame_toBeBytes hword, if_pos hlarge]
      rw [Scanner.drain_bad hscan]
  | @frame payload stream payloads hle hrest ih =>
      rw [Scanner.drain_frame (nextFrame_frame hle stream), ih]

/-- Each stream has payloads, if none. -/
theorem exists_framed (stream : List UInt8) : ∃ payloads, Framed stream payloads := by
  -- Induction on the length: behind a frame the stream is shorter.
  induction stream using (measure List.length).wf.induction with
  | _ stream ih =>
      match stream, ih with
      | [], _ | [_], _ | [_, _], _ | [_, _, _], _ => exact ⟨[], .noHeader (by simp)⟩
      | b0 :: b1 :: b2 :: b3 :: tail, ih =>
          have hword := fromBeBytes_lt b0 b1 b2 b3
          have hheader : b0 :: b1 :: b2 :: b3 :: tail =
              toBeBytes (fromBeBytes b0 b1 b2 b3) ++ tail := by
            rw [toBeBytes_fromBeBytes]
            rfl
          rcases Nat.lt_or_ge maxMessageSize (fromBeBytes b0 b1 b2 b3) with hlarge | hle
          · rw [hheader]
            exact ⟨[], .tooLarge hlarge hword⟩
          · rcases Nat.lt_or_ge tail.length (fromBeBytes b0 b1 b2 b3) with hshort | hlen
            · rw [hheader]
              exact ⟨[], .incomplete hle hshort⟩
            · have hdrop : (tail.drop (fromBeBytes b0 b1 b2 b3)).length <
                  (b0 :: b1 :: b2 :: b3 :: tail).length := by
                simp only [List.length_drop, List.length_cons]
                omega
              obtain ⟨payloads, hrest⟩ := ih _ hdrop
              have htake : (tail.take (fromBeBytes b0 b1 b2 b3)).length =
                  fromBeBytes b0 b1 b2 b3 := by
                rw [List.length_take]
                omega
              have hframe := Framed.frame (by rw [htake]; exact hle) hrest
              rw [htake, List.append_assoc, List.take_append_drop, ← hheader] at hframe
              exact ⟨_, hframe⟩

/-- Nothing is left of a stream of frames. -/
theorem drain_frames {payloads : List (List UInt8)}
    (h : ∀ payload ∈ payloads, payload.length ≤ maxMessageSize) :
    frames.drain (payloads.flatMap fun payload => toBeBytes payload.length ++ payload) =
      (payloads, some []) := by
  induction payloads with
  | nil => exact Scanner.drain_more scan_nil
  | cons payload payloads ih =>
      rw [List.flatMap_cons,
        Scanner.drain_frame (nextFrame_frame (h payload List.mem_cons_self) _),
        ih fun p hp => h p (List.mem_cons_of_mem _ hp)]

/-! ### Reads -/

/-- The outer loop takes each read as it comes. -/
theorem readLoop_eq_drain {buf : List UInt8} {reads : List (List UInt8)}
    (hreads : ∀ read ∈ reads, read ≠ []) (hbuf : frames.scan buf = .more) :
    readLoop buf reads = frames.drain (buf ++ reads.flatten) := by
  rw [← Scanner.feed_eq_drain hbuf]
  clear hbuf
  induction reads generalizing buf with
  | nil => rfl
  | cons read reads ih =>
      cases read with
      | nil => exact absurd rfl (hreads [] List.mem_cons_self)
      | cons b read =>
          rw [readLoop, Scanner.feed]
          cases frames.drain (buf ++ b :: read) with
          | mk payloads rest =>
              cases rest with
              | none => rfl
              | some rest =>
                  show (payloads ++ (readLoop rest reads).1, (readLoop rest reads).2) = _
                  rw [ih fun r hr => hreads r (List.mem_cons_of_mem _ hr)]

/-- A connection finds what one look at the whole stream finds. -/
theorem readLoop_nil {reads : List (List UInt8)} (hreads : ∀ read ∈ reads, read ≠ []) :
    readLoop [] reads = frames.drain reads.flatten :=
  readLoop_eq_drain hreads scan_nil

/-- The cast of its length does not change the frame of an envelope. -/
theorem sendBuffer_eq {envelope : MessageEnvelope} (h : envelope.InRange) :
    sendBuffer envelope = toBeBytes envelope.toVec.length ++ envelope.toVec := by
  have hle := MessageEnvelope.length_toVec_le h
  have hlt := maxMessageSize_lt
  rw [sendBuffer, Nat.mod_eq_of_lt (by omega)]

/-- The frames of envelopes, as frames of their payloads. -/
theorem flatMap_sendBuffer {envelopes : List MessageEnvelope} (h : ∀ e ∈ envelopes, e.InRange) :
    envelopes.flatMap sendBuffer = (envelopes.map MessageEnvelope.toVec).flatMap fun payload =>
      toBeBytes payload.length ++ payload := by
  rw [List.flatMap_map]
  exact List.flatMap_congr fun e he => sendBuffer_eq (h e he)

theorem length_le_of_mem_map_toVec {envelopes : List MessageEnvelope}
    (h : ∀ e ∈ envelopes, e.InRange) :
    ∀ payload ∈ envelopes.map MessageEnvelope.toVec, payload.length ≤ maxMessageSize := by
  intro payload hpayload
  obtain ⟨e, he, rfl⟩ := List.mem_map.mp hpayload
  exact MessageEnvelope.length_toVec_le (h e he)

/-! ### The two results -/

/-- For every stream in non-empty reads: the parser is handed exactly the payloads of the stream,
and the node those that parse. Where the stream is made of frames of envelopes that JSON brings
back, the node is handed these envelopes. `encode_message` makes the same frames, and `decode_message` reads
them, whatever follows. -/
theorem frames_of_stream {fromSlice : List UInt8 → Option MessageEnvelope}
    {reads : List (List UInt8)} (hreads : ∀ read ∈ reads, read ≠ []) :
    let incoming := handleConnection fromSlice reads
    (∀ payloads, Framed reads.flatten payloads ↔ payloads = incoming.payloads) ∧
      incoming.messages = incoming.payloads.filterMap fromSlice ∧
      (∀ envelopes : List MessageEnvelope,
        (∀ e ∈ envelopes, e.InRange ∧ fromSlice e.toVec = some e) →
          reads.flatten = envelopes.flatMap sendBuffer → incoming.messages = envelopes) ∧
      ∀ e : MessageEnvelope, e.InRange → fromSlice e.toVec = some e →
        sendBuffer e = encodeMessage e ∧
          ∀ tail, decodeMessage fromSlice (encodeMessage e ++ tail) = some e := by
  have hloop := readLoop_nil hreads
  refine ⟨?_, rfl, ?_, ?_⟩
  · intro payloads
    show Framed _ _ ↔ payloads = (readLoop [] reads).1
    rw [hloop]
    constructor
    · intro h
      exact h.drain.symm
    · intro h
      obtain ⟨payloads', h'⟩ := exists_framed reads.flatten
      rw [h, h'.drain]
      exact h'
  · intro envelopes henvelopes hstream
    have hrange : ∀ e ∈ envelopes, e.InRange := fun e he => (henvelopes e he).1
    show (readLoop [] reads).1.filterMap fromSlice = envelopes
    rw [hloop, hstream, flatMap_sendBuffer hrange,
      drain_frames (length_le_of_mem_map_toVec hrange), List.filterMap_map]
    have hparse : ∀ es : List MessageEnvelope, (∀ e ∈ es, fromSlice e.toVec = some e) →
        es.filterMap (fromSlice ∘ MessageEnvelope.toVec) = es := by
      intro es hes
      induction es with
      | nil => rfl
      | cons e es ih =>
          have he : (fromSlice ∘ MessageEnvelope.toVec) e = some e := hes e List.mem_cons_self
          rw [List.filterMap_cons, he]
          exact congrArg (e :: ·) (ih fun d hd => hes d (List.mem_cons_of_mem _ hd))
    exact hparse envelopes fun e he => (henvelopes e he).2
  · intro e he hparse
    refine ⟨rfl, fun tail => ?_⟩
    have hword : e.toVec.length < 2 ^ 32 :=
      Nat.lt_of_le_of_lt (MessageEnvelope.length_toVec_le he) maxMessageSize_lt
    have hencode : encodeMessage e = toBeBytes e.toVec.length ++ e.toVec := sendBuffer_eq he
    rw [hencode, List.append_assoc]
    show decodeMessage fromSlice (_ :: _ :: _ :: _ :: (e.toVec ++ tail)) = _
    rw [decodeMessage, fromBeBytes_toBeBytes hword]
    show (if (e.toVec ++ tail).length < e.toVec.length then none
      else fromSlice ((e.toVec ++ tail).take e.toVec.length)) = _
    rw [if_neg (by rw [List.length_append]; omega), List.take_left, hparse]

/-- A vote that "A" asks "B" for. -/
def askVote : MessageEnvelope :=
  .new "A" "B" (.requestVote ⟨1, .pushStr 64 "A", 0, 0⟩)

/-- Two frames of it with an empty frame between them, cut inside the first header and inside the
second payload. -/
def askVoteReads : List (List UInt8) :=
  [(sendBuffer askVote).take 2, (sendBuffer askVote).drop 2 ++ [0, 0, 0, 0, 0, 0],
    (sendBuffer askVote).drop 2]

theorem frames_of_stream_askVote :
    let fromSlice := fun payload => if payload = askVote.toVec then some askVote else none
    let incoming := handleConnection fromSlice askVoteReads
    (∀ payloads, Framed askVoteReads.flatten payloads ↔ payloads = incoming.payloads) ∧
      incoming.messages = incoming.payloads.filterMap fromSlice ∧
      (∀ envelopes : List MessageEnvelope,
        (∀ e ∈ envelopes, e.InRange ∧ fromSlice e.toVec = some e) →
          askVoteReads.flatten = envelopes.flatMap sendBuffer → incoming.messages = envelopes) ∧
      ∀ e : MessageEnvelope, e.InRange → fromSlice e.toVec = some e →
        sendBuffer e = encodeMessage e ∧
          ∀ tail, decodeMessage fromSlice (encodeMessage e ++ tail) = some e := by
  have hreads : ∀ read ∈ askVoteReads, read ≠ [] := by decide
  exact frames_of_stream hreads

/-- For every envelope: its JSON is within the limit, the cast of its length to 32 bits is exact,
and a connection that brings frames of such envelopes, the last one cut anywhere, is not given up. -/
theorem every_message_fits {env : MessageEnvelope} (h : env.InRange) :
    env.toVec.length ≤ maxMessageSize ∧ env.toVec.length % 2 ^ 32 = env.toVec.length ∧
      ∀ (fromSlice : List UInt8 → Option MessageEnvelope) (envelopes : List MessageEnvelope)
        (reads : List (List UInt8)), (∀ e ∈ envelopes, e.InRange) → (∀ read ∈ reads, read ≠ []) →
        reads.flatten <+: (env :: envelopes).flatMap sendBuffer →
          (handleConnection fromSlice reads).tooLarge = false := by
  have hle := MessageEnvelope.length_toVec_le h
  have hlt := maxMessageSize_lt
  refine ⟨hle, Nat.mod_eq_of_lt (by omega), ?_⟩
  intro fromSlice envelopes reads henvelopes hreads hbegins
  have hrange : ∀ e ∈ env :: envelopes, e.InRange := by
    intro e he
    rcases List.mem_cons.mp he with rfl | he
    · exact h
    · exact henvelopes e he
  obtain ⟨tail, htail⟩ := hbegins
  -- What is given up early is given up on the whole stream too, and that has nothing left.
  have hall := drain_frames (length_le_of_mem_map_toVec hrange)
  rw [← flatMap_sendBuffer hrange, ← htail, Scanner.drain_append] at hall
  show (readLoop [] reads).2.isNone = false
  rw [readLoop_nil hreads]
  cases hdrain : frames.drain reads.flatten with
  | mk payloads rest =>
      cases rest with
      | some rest => rfl
      | none =>
          rw [hdrain] at hall
          cases hall

theorem every_message_fits_askVote :
    askVote.toVec.length ≤ maxMessageSize ∧ askVote.toVec.length % 2 ^ 32 = askVote.toVec.length ∧
      ∀ (fromSlice : List UInt8 → Option MessageEnvelope) (envelopes : List MessageEnvelope)
        (reads : List (List UInt8)), (∀ e ∈ envelopes, e.InRange) → (∀ read ∈ reads, read ≠ []) →
        reads.flatten <+: (askVote :: envelopes).flatMap sendBuffer →
          (handleConnection fromSlice reads).tooLarge = false := by
  have hrange : askVote.InRange := by decide
  exact every_message_fits hrange

end RaftEbpf.Network
