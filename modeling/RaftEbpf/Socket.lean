import RaftEbpf.Daemon

/-!
# `RaftEbpf.Socket`: the socket of the command line

`handle_ipc_connection` of `raft/src/ipc.rs` and `IpcClient::send_request` of
`raft-cli/src/commands/client.rs`. A request and a response travel as JSON, each on a line of its
own. Any number of clients are connected, and between their turns the daemon does whatever else it
does. A request is handled to its end before the next, as in `RaftEbpf.Daemon`.

What `serde_json::from_str` makes of a line is a parameter, with the text of its error. A client
may close its connection at any time, and closes both directions at once.
-/

set_option autoImplicit false

namespace RaftEbpf

open RaftEbpf.Lib (Utf8.bytes Utf8.fromLossy)
open Wire

/-! ### Texts -/

namespace Json

mutual

/-- `serde_json::to_string`. -/
def toText : Json → List UInt8
  | .null => Utf8.bytes "null"
  | .bool b => Wire.bool b
  | .num n => Wire.num n
  | .str s => Wire.str s
  | .arr items => Wire.arr (itemTexts items)
  | .obj fields => Wire.obj (fieldTexts fields)

def itemTexts : List Json → List (List UInt8)
  | [] => []
  | v :: vs => v.toText :: itemTexts vs

def fieldTexts : List (String × Json) → List (String × List UInt8)
  | [] => []
  | (name, v) :: fields => (name, v.toText) :: fieldTexts fields

end

end Json

/-- `serde_json::to_string(request)`. -/
def IpcRequest.toText : IpcRequest → List UInt8
  | .join nodeId address =>
      obj [("Join", obj [("node_id", str nodeId), ("address", str address)])]
  | .leave nodeId => obj [("Leave", obj [("node_id", str nodeId)])]
  | .status => str "Status"
  | .propose key value => obj [("Propose", obj [("key", str key), ("value", option str value)])]
  | .get key => obj [("Get", obj [("key", str key)])]
  | .send message => obj [("Send", obj [("message", str message)])]
  | .messages limit sinceIndex =>
      obj [("Messages", obj [("limit", option num limit), ("since_index", option num sinceIndex)])]

/-- `serde_json::to_string(response)`. Without data there is no such field. -/
def IpcResponse.toText (resp : IpcResponse) : List UInt8 :=
  obj ([("success", bool resp.success), ("message", str resp.message)] ++
    resp.data.toList.map fun v => ("data", v.toText))

/-! ### Lines -/

/-- The byte `\n`. -/
def newline : UInt8 := 10

/-- What `read_line` takes off a buffer, with the newline at its end. `none`: it waits for more. -/
def nextLine (buf : List UInt8) : Option (List UInt8 × List UInt8) :=
  match buf.dropWhile fun b => decide (b ≠ newline) with
  | [] => none
  | b :: rest => some ((buf.takeWhile fun b => decide (b ≠ newline)) ++ [b], rest)

/-- The string that bytes are. `none`: they are no UTF-8. -/
def fromUtf8 (line : List UInt8) : Option String :=
  if Utf8.bytes (Utf8.fromLossy line) = line then some (Utf8.fromLossy line) else none

/-! ### One connection -/

/-- A connection: the two streams, what each end has read of them and not used, and where client
and server are. -/
structure IpcConnection where
  /-- On the way to the server. -/
  toServer : List UInt8
  serverBuf : List UInt8
  /-- On the way to the client. -/
  toClient : List UInt8
  clientBuf : List UInt8
  /-- The task of `handle_ipc_connection` has not ended. -/
  running : Bool
  /-- The client has closed the connection. -/
  closed : Bool
  /-- The request that `send_request` waits for the response to. -/
  calling : Option IpcRequest
  /-- Ghost: the requests that the server has handled, with their responses, the oldest first. -/
  handled : List (IpcRequest × IpcResponse)
  /-- Ghost: the requests that `send_request` has returned for, with the line that it read. -/
  returned : List (IpcRequest × List UInt8)

namespace IpcConnection

/-- `UnixStream::connect`. -/
def connected : IpcConnection := ⟨[], [], [], [], true, false, none, [], []⟩

/-- The server writes a response. Where the client has closed, the write fails and the task
ends. -/
def respond (c : IpcConnection) (resp : IpcResponse) : IpcConnection :=
  if c.closed then { c with running := false }
  else { c with toClient := c.toClient ++ (resp.toText ++ [newline]) }

/-- One turn of the loop of `handle_ipc_connection`, with a line. A line that is no UTF-8 ends the
task, one that is no request gets an answer. -/
def serveLine (fromStr : String → Except String IpcRequest) (env : Surroundings) (tx : Sender)
    (d : Daemon) (c : IpcConnection) (line : List UInt8) : Option (Daemon × IpcConnection) :=
  match fromUtf8 line with
  | none => some (d, { c with running := false })
  | some text =>
      match fromStr text with
      | .error e => some (d, c.respond ⟨false, s!"Invalid request: {e}", none⟩)
      | .ok req => do
          let resp ← ((Ipc.processRequest env tx req).run [] d.node).value
          let d' ← d.step (.request env tx req)
          return (d', { c with handled := c.handled ++ [(req, resp)] }.respond resp)

/-- The server reads a line and handles it. At the end of the stream what is left is a line too,
and nothing left ends the task. `none`: it waits. -/
def serve (fromStr : String → Except String IpcRequest) (env : Surroundings) (tx : Sender)
    (d : Daemon) (c : IpcConnection) : Option (Daemon × IpcConnection) :=
  match nextLine c.serverBuf with
  | some (line, rest) => serveLine fromStr env tx d { c with serverBuf := rest } line
  | none =>
      if c.closed ∧ c.toServer = [] then
        if c.serverBuf = [] then some (d, { c with running := false })
        else serveLine fromStr env tx d { c with serverBuf := [] } c.serverBuf
      else none

/-- `send_request` up to the response. -/
def call (c : IpcConnection) (req : IpcRequest) : IpcConnection :=
  { c with
    toServer := c.toServer ++ (req.toText ++ [newline])
    calling := some req }

/-- `send_request` reads the response. Where the server has gone it gives up, and the client ends.
`none`: it waits. -/
def receive (c : IpcConnection) (req : IpcRequest) : Option IpcConnection :=
  match nextLine c.clientBuf with
  | some (line, rest) =>
      some { c with
        clientBuf := rest
        calling := none
        returned := c.returned ++ [(req, line)] }
  | none =>
      if c.running = false ∧ c.toClient = [] then some { c with closed := true, calling := none }
      else none

end IpcConnection

/-- What happens to a connection beside the server's turns. -/
inductive IpcMove where
  /-- The client calls `send_request`. -/
  | call (req : IpcRequest)
  /-- A program of another kind writes whatever it likes. -/
  | write (bytes : List UInt8)
  /-- So many bytes reach the server. -/
  | carry (count : Nat)
  /-- So many bytes reach the client. -/
  | bring (count : Nat)
  /-- `send_request` goes on. -/
  | receive
  /-- The client closes, or ends. -/
  | close

/-- `none`: the move is not possible. -/
def IpcConnection.move (c : IpcConnection) : IpcMove → Option IpcConnection
  | .call req => if c.closed = false ∧ c.calling = none then some (c.call req) else none
  | .write bytes =>
      if c.closed = false then some { c with toServer := c.toServer ++ bytes } else none
  | .carry count =>
      if c.running = true ∧ 0 < count ∧ count ≤ c.toServer.length then
        some { c with
          toServer := c.toServer.drop count
          serverBuf := c.serverBuf ++ c.toServer.take count }
      else none
  | .bring count =>
      if c.closed = false ∧ 0 < count ∧ count ≤ c.toClient.length then
        some { c with
          toClient := c.toClient.drop count
          clientBuf := c.clientBuf ++ c.toClient.take count }
      else none
  | .receive => c.calling.bind c.receive
  | .close => if c.closed = false then some { c with closed := true, calling := none } else none

/-! ### All connections -/

/-- The daemon and the connections of its socket, by their number. -/
structure IpcServer where
  daemon : Daemon
  connections : List IpcConnection

/-- What can happen next. -/
inductive IpcAction where
  /-- A client connects. -/
  | connect
  | move (i : Nat) (m : IpcMove)
  /-- A turn of the task that handles the connection. -/
  | serve (i : Nat) (env : Surroundings) (tx : Sender)
  /-- Something else that the daemon does. -/
  | event (e : DaemonEvent)

/-- One step. `none`: the action is not possible. -/
def IpcServer.step (fromStr : String → Except String IpcRequest) (s : IpcServer) :
    IpcAction → Option IpcServer
  | .connect => some { s with connections := s.connections ++ [.connected] }
  | .move i m => do
      let c ← s.connections[i]?
      let c' ← c.move m
      return { s with connections := s.connections.set i c' }
  | .serve i env tx => do
      let c ← s.connections[i]?
      if c.running = true then
        let (d, c') ← c.serve fromStr env tx s.daemon
        return ⟨d, s.connections.set i c'⟩
      else none
  | .event e => (s.daemon.step e).map fun d => { s with daemon := d }

end RaftEbpf
