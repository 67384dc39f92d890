import Mathlib.Data.List.Forall2
import RaftEbpf.Lib.Run
import RaftEbpf.Proofs.NodeRun
import RaftEbpf.Proofs.SocketText

/-!
# `RaftEbpf.Proofs.SocketCalls`: each call gets its own response

Any number of clients talk to one daemon, the bytes come in any pieces, and the daemon does other
things meanwhile. A client that only calls `send_request` gets the responses to its requests, each
to its own and in their order, whatever the other clients write (`calls_answered`).

`Stage` is the invariant of such a connection: nothing is on the way, or one request is, or its
response is, or the client has closed. So a call handles its request once, and while it waits
somebody can move.
-/

set_option autoImplicit false

namespace RaftEbpf

open RaftEbpf.Lib (Prog Utf8.fromLossy)
open Wire

/-- The parser reads the line of a request back. -/
def ReadsBack (fromStr : String → Except String IpcRequest) (req : IpcRequest) : Prop :=
  fromStr (Utf8.fromLossy (req.toText ++ [newline])) = .ok req

/-- The client of this connection only calls `send_request`, with requests that are read back. -/
def OnlyCalls (fromStr : String → Except String IpcRequest) (i : Nat) : IpcAction → Prop
  | .move j (.call req) => j = i → ReadsBack fromStr req
  | .move j (.write _) => j ≠ i
  | _ => True

deriving instance DecidableEq for IpcRequest

instance (fromStr : String → Except String IpcRequest) (req : IpcRequest) :
    Decidable (ReadsBack fromStr req) :=
  inferInstanceAs (Decidable (_ = _))

instance (fromStr : String → Except String IpcRequest) (i : Nat) (a : IpcAction) :
    Decidable (OnlyCalls fromStr i a) :=
  match a with
  | .move j (.call req) => inferInstanceAs (Decidable (j = i → ReadsBack fromStr req))
  | .move j (.write _) => inferInstanceAs (Decidable (j ≠ i))
  | .move _ (.carry _) | .move _ (.bring _) | .move _ .receive | .move _ .close
  | .connect | .serve _ _ _ | .event _ => isTrue trivial

/-- What `send_request` reads after the server has handled a request. -/
def answerLine (h : IpcRequest × IpcResponse) : IpcRequest × List UInt8 :=
  (h.1, h.2.toText ++ [newline])

/-- The call was about this request, and its line is the text of this response and of no other. -/
def Returns (call : IpcRequest × List UInt8) (h : IpcRequest × IpcResponse) : Prop :=
  call.1 = h.1 ∧ ∀ resp : IpcResponse, call.2 = resp.toText ++ [newline] ↔ resp = h.2

theorem forall₂_answerLine (handled : List (IpcRequest × IpcResponse)) :
    List.Forall₂ Returns (handled.map answerLine) handled := by
  rw [List.forall₂_map_left_iff, List.forall₂_same]
  refine fun h _ => ⟨rfl, fun resp => ⟨fun htext => ?_, fun hresp => ?_⟩⟩
  · exact (IpcResponse.toText_injective (List.append_cancel_right htext)).symm
  · rw [hresp]
    rfl

namespace IpcConnection

/-- The calls return in order with the responses to their own requests, and the server has handled
one request more at most: the one whose call still waits. -/
structure InOrder (c : IpcConnection) : Prop where
  returned : List.Forall₂ Returns c.returned (c.handled.take c.returned.length)
  ahead : c.handled.length ≤ c.returned.length + 1
  waiting : ∀ req ∈ c.calling, ∀ h ∈ c.handled.drop c.returned.length, h.1 = req
  /-- The server leaves no client that has not closed. -/
  running : c.closed = false → c.running = true

/-- Where a connection is whose client only calls `send_request`. -/
inductive Stage (fromStr : String → Except String IpcRequest) : IpcConnection → Prop
  | idle (handled : List (IpcRequest × IpcResponse)) :
      Stage fromStr ⟨[], [], [], [], true, false, none, handled, handled.map answerLine⟩
  /-- The request is on its way. -/
  | asked {toServer serverBuf : List UInt8} {req : IpcRequest}
      (handled : List (IpcRequest × IpcResponse)) (hreads : ReadsBack fromStr req)
      (hline : serverBuf ++ toServer = req.toText ++ [newline]) :
      Stage fromStr ⟨toServer, serverBuf, [], [], true, false, some req, handled,
        handled.map answerLine⟩
  /-- The response is on its way. -/
  | answered {toClient clientBuf : List UInt8} {req : IpcRequest} {resp : IpcResponse}
      (handled : List (IpcRequest × IpcResponse))
      (hline : clientBuf ++ toClient = resp.toText ++ [newline]) :
      Stage fromStr ⟨[], [], toClient, clientBuf, true, false, some req, handled ++ [(req, resp)],
        handled.map answerLine⟩
  /-- The client has closed. Its last request may still be on its way. -/
  | gone {toServer serverBuf toClient clientBuf : List UInt8} {running : Bool}
      {more : List (IpcRequest × IpcResponse)} (handled : List (IpcRequest × IpcResponse))
      (hmore : more.length ≤ 1)
      (hline : running = true → serverBuf ++ toServer = [] ∨ more = [] ∧
        ∃ req, ReadsBack fromStr req ∧ serverBuf ++ toServer = req.toText ++ [newline]) :
      Stage fromStr ⟨toServer, serverBuf, toClient, clientBuf, running, true, none,
        handled ++ more, handled.map answerLine⟩

variable {fromStr : String → Except String IpcRequest} {c c' : IpcConnection}

theorem Stage.inOrder (h : c.Stage fromStr) : c.InOrder := by
  -- The lengths of what was handled and returned differ by the request that is not returned.
  have htake : ∀ handled more : List (IpcRequest × IpcResponse),
      (handled ++ more).take (handled.map answerLine).length = handled := by
    intro handled more
    rw [List.length_map, List.take_left]
  have hdrop : ∀ handled more : List (IpcRequest × IpcResponse),
      (handled ++ more).drop (handled.map answerLine).length = more := by
    intro handled more
    rw [List.length_map, List.drop_left]
  cases h with
  | idle handled =>
      refine ⟨?_, ?_, fun _ hreq => absurd hreq (by simp), fun _ => rfl⟩
      · show List.Forall₂ Returns (handled.map answerLine) (handled.take _)
        rw [List.length_map, List.take_length]
        exact forall₂_answerLine handled
      · show handled.length ≤ (handled.map answerLine).length + 1
        rw [List.length_map]
        omega
  | asked handled hreads hline =>
      refine ⟨?_, ?_, fun req hreq h hmem => ?_, fun _ => rfl⟩
      · show List.Forall₂ Returns (handled.map answerLine) (handled.take _)
        rw [List.length_map, List.take_length]
        exact forall₂_answerLine handled
      · show handled.length ≤ (handled.map answerLine).length + 1
        rw [List.length_map]
        omega
      · have hmem : h ∈ handled.drop (handled.map answerLine).length := hmem
        rw [List.length_map, List.drop_length] at hmem
        cases hmem
  | @answered toClient clientBuf req resp handled hline =>
      refine ⟨?_, ?_, fun req' hreq h hmem => ?_, fun _ => rfl⟩
      · show List.Forall₂ Returns (handled.map answerLine) ((handled ++ [(req, resp)]).take _)
        rw [htake]
        exact forall₂_answerLine handled
      · show (handled ++ [(req, resp)]).length ≤ (handled.map answerLine).length + 1
        rw [List.length_append, List.length_map]
        exact Nat.le_refl _
      · have hmem : h ∈ (handled ++ [(req, resp)]).drop (handled.map answerLine).length := hmem
        rw [hdrop] at hmem
        obtain rfl := List.mem_singleton.mp hmem
        exact Option.some.inj hreq
  | @gone _ _ _ _ running more handled hmore hline =>
      refine ⟨?_, ?_, fun _ hreq => absurd hreq (by simp), fun hopen => Bool.noConfusion hopen⟩
      · show List.Forall₂ Returns (handled.map answerLine) ((handled ++ more).take _)
        rw [htake]
        exact forall₂_answerLine handled
      · show (handled ++ more).length ≤ (handled.map answerLine).length + 1
        rw [List.length_append, List.length_map]
        omega

/-- Bytes that move on are the same bytes. -/
theorem carried_eq {buf way line : List UInt8} (count : Nat) (h : buf ++ way = line) :
    (buf ++ way.take count) ++ way.drop count = line := by
  rw [List.append_assoc, List.take_append_drop, h]

/-- A move of the client or of the bytes. -/
theorem Stage.move (h : c.Stage fromStr) {m : IpcMove} (hmove : c.move m = some c')
    (hcall : ∀ req, m = .call req → ReadsBack fromStr req)
    (hwrite : ∀ bytes, m ≠ .write bytes) : c'.Stage fromStr ∧ c'.handled = c.handled := by
  cases m with
  | call req =>
      rw [IpcConnection.move] at hmove
      split at hmove
      · rename_i hidle
        obtain rfl := Option.some.inj hmove
        -- A client that waits does not call.
        cases h with
        | idle handled => exact ⟨.asked handled (hcall req rfl) rfl, rfl⟩
        | asked => cases hidle.2
        | answered => cases hidle.2
        | gone => cases hidle.1
      · cases hmove
  | write bytes => exact absurd rfl (hwrite bytes)
  | carry count =>
      rw [IpcConnection.move] at hmove
      split at hmove
      · obtain rfl := Option.some.inj hmove
        cases h with
        | idle handled =>
            rename_i hcount
            exact absurd hcount.2.2 (Nat.not_le_of_gt hcount.2.1)
        | asked handled hreads hline =>
            exact ⟨.asked handled hreads (carried_eq count hline), rfl⟩
        | answered handled hline =>
            rename_i hcount
            exact absurd hcount.2.2 (Nat.not_le_of_gt hcount.2.1)
        | gone handled hmore hline =>
            refine ⟨.gone handled hmore fun hrun => ?_, rfl⟩
            rw [carried_eq count rfl]
            exact hline hrun
      · cases hmove
  | bring count =>
      rw [IpcConnection.move] at hmove
      split at hmove
      · rename_i hcount
        obtain rfl := Option.some.inj hmove
        cases h with
        | idle handled => exact absurd hcount.2.2 (Nat.not_le_of_gt hcount.2.1)
        | asked handled hreads hline => exact absurd hcount.2.2 (Nat.not_le_of_gt hcount.2.1)
        | answered handled hline => exact ⟨.answered handled (carried_eq count hline), rfl⟩
        | gone handled hmore hline => cases hcount.1
      · cases hmove
  | receive =>
      obtain ⟨req', hreq, hmove⟩ := Option.bind_eq_some_iff.mp hmove
      rw [receive] at hmove
      cases h with
      | idle => cases hreq
      | gone => cases hreq
      | asked =>
          -- Nothing has come back, and the server is there.
          have hnone : nextLine [] = none := rfl
          simp only [hnone] at hmove
          cases hmove
      | @answered toClient clientBuf req resp handled hline =>
          obtain rfl : req = req' := Option.some.inj hreq
          cases hnext : nextLine clientBuf with
          | none =>
              simp only [hnext] at hmove
              cases hmove
          | some p =>
              obtain ⟨line, rest⟩ := p
              obtain ⟨rfl, rfl, rfl⟩ := nextLine_text resp.jsonText.newline_notMem hline hnext
              simp only [hnext] at hmove
              obtain rfl := Option.some.inj hmove
              refine ⟨?_, rfl⟩
              -- The call returns with this response.
              have hidle : Stage fromStr ⟨[], [], [], [], true, false, none,
                  handled ++ [(req, resp)], _⟩ := .idle (handled ++ [(req, resp)])
              rw [List.map_append] at hidle
              exact hidle
  | close =>
      rw [IpcConnection.move] at hmove
      split at hmove
      · rename_i hopen
        obtain rfl := Option.some.inj hmove
        cases h with
        | idle handled =>
            have hgone : Stage fromStr ⟨[], [], [], [], true, true, none, handled ++ [], _⟩ :=
              .gone handled (Nat.zero_le _) fun _ => Or.inl rfl
            rw [List.append_nil] at hgone
            exact ⟨hgone, rfl⟩
        | @asked toServer serverBuf req handled hreads hline =>
            have hgone : Stage fromStr ⟨toServer, serverBuf, [], [], true, true, none,
                handled ++ [], _⟩ :=
              .gone handled (Nat.zero_le _) fun _ => Or.inr ⟨rfl, req, hreads, hline⟩
            rw [List.append_nil] at hgone
            exact ⟨hgone, rfl⟩
        | answered handled hline => exact ⟨.gone handled (Nat.le_refl _) fun _ => Or.inl rfl, rfl⟩
        | gone handled hmore hline => cases hopen
      · cases hmove

/-! ### The server's turn -/

/-- Every request is responded to. -/
theorem exists_response (env : Surroundings) (tx : Sender) (req : IpcRequest) (n : RaftNode) :
    ∃ resp, ((Ipc.processRequest env tx req).run [] n).value = some resp := by
  have hpropose : ∀ command, ((RaftNode.propose command tx).run [] n).value = some () := by
    intro command
    rw [RaftNode.run_propose]
    split
    · rfl
    · rfl
  refine Option.isSome_iff_exists.mp ?_
  cases req with
  | propose key value =>
      rw [Ipc.processRequest, Prog.run_bind, Prog.Result.andThen, hpropose]
      rfl
  | send message =>
      rw [Ipc.processRequest]
      show ((RaftNode.propose (Ipc.sentCommand env n.nodeId message) tx >>= fun _ =>
        pure (Ipc.sendResponse env.received)).run [] n).value.isSome = true
      rw [Prog.run_bind, Prog.Result.andThen, hpropose]
      rfl
  | join nodeId address =>
      simp only [Ipc.processRequest, Prog.run_bind, RaftNode.run_addPeer]
      rfl
  | leave nodeId =>
      simp only [Ipc.processRequest, Prog.run_bind, RaftNode.run_removePeer]
      rfl
  | status | get key | messages limit sinceIndex => rfl

/-- The line of a request is handled. -/
theorem serveLine_eq {req : IpcRequest} (hreads : ReadsBack fromStr req) (env : Surroundings)
    (tx : Sender) (d : Daemon) (c : IpcConnection) :
    ∃ resp d', ((Ipc.processRequest env tx req).run [] d.node).value = some resp ∧
      serveLine fromStr env tx d c (req.toText ++ [newline])
        = some (d', { c with handled := c.handled ++ [(req, resp)] }.respond resp) := by
  obtain ⟨resp, hresp⟩ := exists_response env tx req d.node
  obtain ⟨d', hd'⟩ : ∃ d', d.step (.request env tx req) = some d' := ⟨_, rfl⟩
  refine ⟨resp, d', hresp, ?_⟩
  have hreads : fromStr (Utf8.fromLossy (req.toText ++ [newline])) = .ok req := hreads
  simp only [serveLine, fromUtf8_line req.jsonText, hreads, hresp, hd', Option.bind_eq_bind,
    Option.bind_some, Option.pure_def]

/-- Nothing was read: the server waits, or the client has closed. -/
theorem serve_empty {env : Surroundings} {tx : Sender} {d d' : Daemon} (hbuf : c.serverBuf = [])
    (hserve : c.serve fromStr env tx d = some (d', c')) :
    c.closed = true ∧ c' = { c with running := false } := by
  have hnone : nextLine c.serverBuf = none := by
    rw [hbuf]
    rfl
  simp only [serve, hnone] at hserve
  split at hserve
  · rename_i hend
    exact ⟨hend.1, (Prod.mk.inj (Option.some.inj hserve)).2.symm⟩
  · cases hserve

/-- A request is on its way: the server handles the whole of it. -/
theorem serve_request {req : IpcRequest} (hreads : ReadsBack fromStr req)
    (hline : c.serverBuf ++ c.toServer = req.toText ++ [newline]) {env : Surroundings} {tx : Sender}
    {d d' : Daemon} (hserve : c.serve fromStr env tx d = some (d', c')) :
    c.toServer = [] ∧ ∃ resp,
      ((Ipc.processRequest env tx req).run [] d.node).value = some resp ∧
      c' = { c with serverBuf := [], handled := c.handled ++ [(req, resp)] }.respond resp := by
  cases hnext : nextLine c.serverBuf with
  | some p =>
      obtain ⟨line, rest⟩ := p
      obtain ⟨rfl, rfl, hnil⟩ := nextLine_text req.jsonText.newline_notMem hline hnext
      obtain ⟨resp, d'', hresp, hturn⟩ :=
        serveLine_eq hreads env tx d { c with serverBuf := [] }
      simp only [serve, hnext, hturn] at hserve
      exact ⟨hnil, resp, hresp, (Prod.mk.inj (Option.some.inj hserve)).2.symm⟩
  | none =>
      simp only [serve, hnext] at hserve
      split at hserve
      · rename_i hend
        -- All bytes have come, and with them the newline.
        rw [hend.2, List.append_nil] at hline
        rw [hline, nextLine_line req.jsonText.newline_notMem] at hnext
        cases hnext
      · cases hserve

/-- A turn of the server. -/
theorem Stage.serve (h : c.Stage fromStr) (hrun : c.running = true) {env : Surroundings}
    {tx : Sender} {d d' : Daemon} (hserve : c.serve fromStr env tx d = some (d', c')) :
    c'.Stage fromStr ∧ ∀ x ∈ c'.handled, x ∈ c.handled ∨
      ((Ipc.processRequest env tx x.1).run [] d.node).value = some x.2 := by
  cases h with
  | idle handled => cases (serve_empty rfl hserve).1
  | answered handled hline => cases (serve_empty rfl hserve).1
  | asked handled hreads hline =>
      obtain ⟨rfl, resp, hresp, rfl⟩ := serve_request hreads hline hserve
      refine ⟨.answered handled rfl, fun x hx => ?_⟩
      rcases List.mem_append.mp hx with hx | hx
      · exact Or.inl hx
      · obtain rfl := List.mem_singleton.mp hx
        exact Or.inr hresp
  | @gone _ _ _ _ _ more handled hmore hline =>
      rcases hline hrun with hnil | ⟨rfl, req, hreads, hline⟩
      · obtain ⟨rfl, rfl⟩ := List.append_eq_nil_iff.mp hnil
        obtain ⟨-, rfl⟩ := serve_empty rfl hserve
        exact ⟨.gone handled hmore fun hrun => Bool.noConfusion hrun, fun x hx => Or.inl hx⟩
      · obtain ⟨rfl, resp, hresp, rfl⟩ := serve_request hreads hline hserve
        -- The response is lost, and the task ends.
        have hgone : ∀ (toClient clientBuf : List UInt8), Stage fromStr ⟨[], [], toClient,
            clientBuf, false, true, none, handled ++ [(req, resp)], handled.map answerLine⟩ :=
          fun _ _ => .gone handled (Nat.le_refl _) fun hrun => Bool.noConfusion hrun
        rw [List.append_nil]
        refine ⟨hgone _ _, fun x hx => ?_⟩
        rcases List.mem_append.mp hx with hx | hx
        · exact Or.inl hx
        · obtain rfl := List.mem_singleton.mp hx
          exact Or.inr hresp

/-- While a client waits, the server can handle its request, or bytes can move on, or the call can
return. -/
theorem Stage.can_move (h : c.Stage fromStr) (hcalling : c.calling.isSome) (env : Surroundings)
    (tx : Sender) (d : Daemon) :
    (c.running = true ∧ (c.serve fromStr env tx d).isSome) ∨ (c.move (.carry 1)).isSome ∨
      (c.move (.bring 1)).isSome ∨ (c.move .receive).isSome := by
  cases h with
  | idle => cases hcalling
  | gone => cases hcalling
  | @asked toServer serverBuf req handled hreads hline =>
      cases toServer with
      | nil =>
          rw [List.append_nil] at hline
          obtain ⟨resp, d', -, hturn⟩ := serveLine_eq hreads env tx d
            ⟨[], [], [], [], true, false, some req, handled, handled.map answerLine⟩
          refine Or.inl ⟨rfl, ?_⟩
          simp only [IpcConnection.serve, hline, nextLine_line req.jsonText.newline_notMem, hturn]
          rfl
      | cons b rest => exact Or.inr (Or.inl rfl)
  | @answered toClient clientBuf req resp handled hline =>
      cases toClient with
      | nil =>
          rw [List.append_nil] at hline
          refine Or.inr (Or.inr (Or.inr ?_))
          rw [IpcConnection.move, Option.bind_some, receive, hline,
            nextLine_line resp.jsonText.newline_notMem]
          rfl
      | cons b rest => exact Or.inr (Or.inr (Or.inl rfl))

end IpcConnection

/-! ### Runs -/

namespace IpcServer

open IpcConnection

variable {fromStr : String → Except String IpcRequest} {i : Nat} {s s' : IpcServer}

/-- Where the connection of this number is, if it is there. -/
def StageOf (fromStr : String → Except String IpcRequest) (i : Nat) (s : IpcServer) : Prop :=
  ∀ c, s.connections[i]? = some c → c.Stage fromStr

/-- What was handled on the connection of this number. -/
def handledOn (s : IpcServer) (i : Nat) : List (IpcRequest × IpcResponse) :=
  (s.connections[i]?.map IpcConnection.handled).getD []

theorem exists_of_mem_handledOn {x : IpcRequest × IpcResponse} (h : x ∈ s.handledOn i) :
    ∃ c, s.connections[i]? = some c ∧ x ∈ c.handled := by
  rw [handledOn] at h
  cases hc : s.connections[i]? with
  | none =>
      rw [hc] at h
      cases h
  | some c =>
      rw [hc] at h
      exact ⟨c, rfl, h⟩

/-- The connection is changed. -/
theorem changed {d : Daemon} {c c' : IpcConnection} {P : IpcRequest × IpcResponse → Prop}
    (hc : s.connections[i]? = some c) (hstage : c'.Stage fromStr)
    (hhandled : ∀ x ∈ c'.handled, x ∈ c.handled ∨ P x) :
    StageOf fromStr i ⟨d, s.connections.set i c'⟩ ∧
      ∀ x ∈ handledOn ⟨d, s.connections.set i c'⟩ i, x ∈ s.handledOn i ∨ P x := by
  have hi : i < s.connections.length := (List.getElem?_eq_some_iff.mp hc).1
  have hset : (s.connections.set i c')[i]? = some c' := List.getElem?_set_self hi
  refine ⟨fun c₀ hc₀ => ?_, fun x hx => ?_⟩
  · obtain rfl : c' = c₀ := Option.some.inj (hset.symm.trans hc₀)
    exact hstage
  · obtain ⟨c₀, hc₀, hx⟩ := exists_of_mem_handledOn hx
    obtain rfl : c' = c₀ := Option.some.inj (hset.symm.trans hc₀)
    rw [handledOn, hc]
    exact hhandled x hx

/-- One step: the connection stays in its stages, and what is new was handled now. -/
theorem StageOf.step (h : s.StageOf fromStr i) {a : IpcAction} (hok : OnlyCalls fromStr i a)
    (hstep : s.step fromStr a = some s') : s'.StageOf fromStr i ∧
      ∀ x ∈ s'.handledOn i, x ∈ s.handledOn i ∨ ∃ env tx,
        ((Ipc.processRequest env tx x.1).run [] s.daemon.node).value = some x.2 := by
  -- A connection that the step leaves alone.
  have hsame : s'.connections[i]? = s.connections[i]? → s'.StageOf fromStr i ∧
      ∀ x ∈ s'.handledOn i, x ∈ s.handledOn i ∨ ∃ env tx,
        ((Ipc.processRequest env tx x.1).run [] s.daemon.node).value = some x.2 := by
    intro heq
    refine ⟨fun c hc => h c (heq ▸ hc), fun x hx => Or.inl ?_⟩
    rw [handledOn, heq] at hx
    exact hx
  cases a with
  | connect =>
      obtain rfl := Option.some.inj hstep
      rcases Nat.lt_or_ge i s.connections.length with hi | hi
      · exact hsame (List.getElem?_append_left hi)
      · have hnew : ∀ c, (s.connections ++ [IpcConnection.connected])[i]? = some c →
            c = .connected := by
          intro c hc
          rw [List.getElem?_append_right hi] at hc
          exact List.mem_singleton.mp (List.mem_of_getElem? hc)
        refine ⟨fun c hc => ?_, fun x hx => ?_⟩
        · obtain rfl := hnew c hc
          exact .idle []
        · obtain ⟨c, hc, hx⟩ := exists_of_mem_handledOn hx
          obtain rfl := hnew c hc
          cases hx
  | event e =>
      obtain ⟨d, -, rfl⟩ := Option.map_eq_some_iff.mp hstep
      exact hsame rfl
  | move j m =>
      obtain ⟨c, hc, hstep⟩ := Option.bind_eq_some_iff.mp hstep
      obtain ⟨c', hmove, hstep⟩ := Option.bind_eq_some_iff.mp hstep
      obtain rfl := Option.some.inj hstep
      by_cases hj : j = i
      · subst hj
        obtain ⟨hstage, hhandled⟩ := (h c hc).move hmove
          (fun req hreq => by subst hreq; exact hok rfl)
          (fun bytes hbytes => by subst hbytes; exact hok rfl)
        exact changed hc hstage fun x hx => Or.inl (hhandled ▸ hx)
      · exact hsame (List.getElem?_set_ne hj)
  | serve j env tx =>
      obtain ⟨c, hc, hstep⟩ := Option.bind_eq_some_iff.mp hstep
      split at hstep
      · rename_i hrun
        obtain ⟨⟨d, c'⟩, hserve, hstep⟩ := Option.bind_eq_some_iff.mp hstep
        obtain rfl := Option.some.inj hstep
        by_cases hj : j = i
        · subst hj
          obtain ⟨hstage, hhandled⟩ := (h c hc).serve hrun hserve
          exact changed hc hstage fun x hx => (hhandled x hx).imp id fun hx => ⟨env, tx, hx⟩
        · exact hsame (List.getElem?_set_ne hj)
      · cases hstep

end IpcServer

/-- A daemon that was started with the peer B. -/
def startedDaemon : Daemon :=
  { node := .withLog "A" (RaftNode.peerMap [("B", "b")]) (.unloaded .empty)
    network := .registered [("B", "b")]
    addresses := (∅ : Lib.HashMap String String).insert "B" "b" }

/-- The lines of two requests are read back, and others are no requests. -/
def twoRequests (line : String) : Except String IpcRequest :=
  if line = "\x7b\"Get\":\x7b\"key\":\"k\"\x7d\x7d\n" then .ok (.get "k")
  else if line = "\x7b\"Send\":\x7b\"message\":\"hi\"\x7d\x7d\n" then .ok (.send "hi")
  else .error "expected value at line 1 column 1"

/-- A Follower without data is asked. -/
def followerSurroundings : Surroundings where
  timestamp := 5
  received := .result (.notLeader none)
  toBytes := Json.toText
  fromSlice _ := none

/-- The first client writes a line that is no request. The second one calls `send_request` twice,
and the bytes of its first call come in two pieces each way. -/
def twoClients : List IpcAction :=
  [.connect, .connect, .move 0 (.write [120, 10]), .move 1 (.call (.get "k")),
    .move 1 (.carry 7), .move 0 (.carry 2), .serve 0 followerSurroundings 1, .move 1 (.carry 13),
    .serve 1 followerSurroundings 2, .move 1 (.bring 60), .move 0 (.bring 80),
    .move 1 (.bring 4), .move 1 .receive, .move 1 (.call (.send "hi")), .event .heartbeat,
    .move 1 (.carry 26), .serve 1 followerSurroundings 3, .move 1 (.bring 63),
    .move 1 .receive]

end RaftEbpf
