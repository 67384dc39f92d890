import RaftEbpf.Lib.Prog
import RaftEbpf.Log
import RaftEbpf.StateMachine

/-!
# `RaftEbpf.Node`: the core RAFT node

`RaftNode` of `raft/src/node.rs`. Each `async fn` is a `NodeProg`, with the source's lock
acquisitions and drops in the source's order: a temporary guard (`*self.role.read().await`)
is `withRead` or `withWrite`, a named guard is `lock` or `readLock` with an `unlock` at
every place where it is dropped. A function that takes no lock itself and reads only what
its caller has locked is a plain function (`heartbeatRequest`, `findCommit`).

Left out: `config` and `last_heartbeat`, which only the timers read, so an election or a
heartbeat may start at any time; the bound of the outgoing channel; log output.

Three outputs are ghosts that no code reads: `elected` marks the line where the vote
threshold is reached, `appended` the entry `propose` appended, `applied` the call of
`StateMachine::apply`.
-/

set_option autoImplicit false

namespace RaftEbpf

open RaftEbpf.Lib (HashMap Prog)

/-- The response channel of one proposal, by its identity. -/
abbrev Sender : Type := Nat

/-- Result of a propose operation. -/
inductive ProposeResult where
  /-- Command was committed. -/
  | success (index : Nat)
  /-- Node is not the leader. -/
  | notLeader (leaderId : Option String)
  /-- Failed to replicate. -/
  | failed (reason : String)
  deriving DecidableEq

/-- Current status of the node. -/
structure NodeStatus where
  nodeId : String
  role : NodeRole
  currentTerm : Nat
  commitIndex : Nat
  lastApplied : Nat
  leaderId : Option String
  peers : List String

/-- The main RAFT node. -/
structure RaftNode where
  /-- Node ID. -/
  nodeId : String
  /-- Current role. -/
  role : NodeRole
  /-- Persistent log. -/
  log : RaftLog
  /-- State machine. -/
  stateMachine : StateMachine
  /-- Commit index. -/
  commitIndex : Nat
  /-- Last applied index. -/
  lastApplied : Nat
  /-- Current leader ID. -/
  leaderId : Option String
  /-- Peers in the cluster. -/
  peers : HashMap String PeerInfo
  /-- Leader state: next_index for each peer. -/
  nextIndex : HashMap String Nat
  /-- Leader state: match_index for each peer. -/
  matchIndex : HashMap String Nat
  /-- Votes received (candidate state). -/
  votesReceived : List String
  /-- Pending client requests (index -> response channel). -/
  pendingRequests : HashMap Nat Sender

/-- The locks of a node: three mutexes (`log`, `stateMachine`, `pendingRequests`) and eight
read-write locks. -/
inductive Lock where
  | role
  | log
  | stateMachine
  | commitIndex
  | lastApplied
  | leaderId
  | peers
  | nextIndex
  | matchIndex
  | votesReceived
  | pendingRequests
  deriving DecidableEq

/-- The places in the text of `node.rs` that statements about interleavings name. -/
inductive Site where
  | plain
  /-- The second `self.log.lock()` of a step-down, on a response of this term. -/
  | stepDown (term : Nat)
  /-- `self.log.lock()` in `start_election`. -/
  | startElection
  /-- `*self.role.write().await = NodeRole::Leader` in `become_leader`. -/
  | becomeLeader
  /-- `self.log.lock()` in `send_heartbeats`, after its role check. -/
  | sendHeartbeats
  /-- `self.log.lock()` in `propose`, after its role check. -/
  | propose
  deriving DecidableEq

/-- What a node hands to the outside. -/
inductive Output where
  /-- `outgoing_tx.send`. -/
  | send (env : MessageEnvelope)
  /-- `response_tx.send`, on the channel of one proposal. -/
  | reply (tx : Sender) (result : ProposeResult)
  /-- Ghost: the vote threshold was reached in this term. -/
  | elected (term : Nat)
  /-- Ghost: `propose` appended this entry for this channel. -/
  | appended (tx : Sender) (entry : LogEntry)
  /-- Ghost: the entry found at this index was passed to `StateMachine::apply`. -/
  | applied (index : Nat) (entry : LogEntry)
  deriving DecidableEq

/-- A task of the node. -/
abbrev NodeProg : Type → Type := Prog Lock RaftNode Output WriteResult Site

namespace RaftNode

/-! ### Locks and state access -/

/-- `self.l.lock().await` or `self.l.write().await`, as a named guard. -/
def lockAt (l : Lock) (site : Site) : NodeProg Unit := .acquire l true site (.done ())

/-- A lock whose place in the text no statement names. -/
def lock (l : Lock) : NodeProg Unit := lockAt l .plain

/-- `self.l.read().await`, as a named guard. -/
def readLock (l : Lock) : NodeProg Unit := .acquire l false .plain (.done ())

/-- The guard is dropped. -/
def unlock (l : Lock) : NodeProg Unit := .release l (.done ())

/-- What the guards held make visible. -/
def get : NodeProg RaftNode := .read .done

/-- A change through the guards held. -/
def modify (f : RaftNode → RaftNode) : NodeProg Unit := .write .plain f (.done ())

/-- `*self.l.read().await` as a temporary. -/
def withRead {α : Type} (l : Lock) (f : RaftNode → α) : NodeProg α := do
  readLock l
  let n ← get
  unlock l
  return f n

/-- `*self.l.write().await = ..` as a temporary. -/
def withWriteAt (l : Lock) (site : Site) (f : RaftNode → RaftNode) : NodeProg Unit := do
  lock l
  .write site f (.done ())
  unlock l

/-- A temporary write guard whose place in the text no statement names. -/
def withWrite (l : Lock) (f : RaftNode → RaftNode) : NodeProg Unit := withWriteAt l .plain f

/-- `*self.role.write().await = role`. -/
def setRole (role : NodeRole) : NodeProg Unit := withWrite .role fun n => { n with role }

/-- The outcome of `save_state`, passed on by `?`. -/
def checkWrite : WriteResult → NodeProg Unit
  | .ok => .done ()
  | _ => .fail

/-- `log.set_current_term(term)?` under the log mutex. -/
def setCurrentTerm (term : Nat) : NodeProg Unit :=
  .choose fun w =>
    .write .plain (fun n => { n with log := n.log.setCurrentTerm term w }) (checkWrite w)

/-- `log.set_voted_for(Some(candidate_id))?` under the log mutex. -/
def setVotedFor (candidateId : String) : NodeProg Unit :=
  .choose fun w =>
    .write .plain (fun n => { n with log := n.log.setVotedFor (some candidateId) w })
      (checkWrite w)

/-- `self.outgoing_tx.send(envelope).await`, once for each envelope. -/
def sendAll : List MessageEnvelope → NodeProg Unit
  | [] => pure ()
  | env :: rest => do
      .emit (.send env) (.done ())
      sendAll rest

/-! ### Applying and committing -/

/-- The loop of `apply_committed_entries`, `steps` turns of it. -/
def applyEntries : (steps : Nat) → NodeProg Unit
  | 0 => pure ()
  | steps + 1 => do
      modify fun n => { n with lastApplied := n.lastApplied + 1 }
      let n ← get
      match n.log.get n.lastApplied with
      | some entry =>
          modify fun n => { n with stateMachine := n.stateMachine.apply entry }
          .emit (.applied n.lastApplied entry) (.done ())
      | none => pure ()
      applyEntries steps

/-- `apply_committed_entries`. -/
def applyCommittedEntries : NodeProg Unit := do
  let commitIndex ← withRead .commitIndex (·.commitIndex)
  lock .lastApplied
  lock .log
  lock .stateMachine
  let n ← get
  -- `while *last_applied < commit_index { *last_applied += 1; .. }`
  applyEntries (commitIndex - n.lastApplied)
  unlock .stateMachine
  unlock .log
  unlock .lastApplied

/-- The loop of `notify_pending_requests`: the channel of each index is removed and told. -/
def notifyEach : List Nat → NodeProg Unit
  | [] => pure ()
  | idx :: rest => do
      let n ← get
      match n.pendingRequests.lookup idx with
      | some tx =>
          modify fun n => { n with pendingRequests := n.pendingRequests.erase idx }
          .emit (.reply tx (.success idx)) (.done ())
      | none => pure ()
      notifyEach rest

/-- `notify_pending_requests`. -/
def notifyPendingRequests (upToIndex : Nat) : NodeProg Unit := do
  lock .pendingRequests
  let n ← get
  notifyEach (n.pendingRequests.keys.filter (fun idx => decide (idx ≤ upToIndex)))
  unlock .pendingRequests

/-- `total_nodes / 2 + 1` with `total_nodes = peers.len() + 1`. -/
def majority (peers : HashMap String PeerInfo) : Nat := (peers.keys.length + 1) / 2 + 1

/-- The scan of `try_advance_commit_index`: the highest index above `currentCommit` that
holds an entry of the current term and that a majority of `match_index` reaches. -/
def findCommit (n : RaftNode) (currentCommit : Nat) : Option Nat :=
  let start := addOne currentCommit
  (List.range' start (n.log.lastIndex + 1 - start)).reverse.find? fun k =>
    decide (n.log.termAt k = some n.log.currentTerm) &&
      decide (majority n.peers ≤ 1 + HashMap.countValues (fun idx => decide (k ≤ idx)) n.matchIndex)

/-- `try_advance_commit_index`. -/
def tryAdvanceCommitIndex : NodeProg Unit := do
  let role ← withRead .role (·.role)
  if role ≠ .leader then
    pure ()
  else
    lock .log
    let currentCommit ← withRead .commitIndex (·.commitIndex)
    readLock .matchIndex
    readLock .peers
    let n ← get
    match findCommit n currentCommit with
    | some k =>
        -- Release all locks before modifying commit_index.
        unlock .matchIndex
        unlock .peers
        unlock .log
        withWrite .commitIndex fun n => { n with commitIndex := k }
        applyCommittedEntries
        notifyPendingRequests k
    | none =>
        unlock .peers
        unlock .matchIndex
        unlock .log

/-! ### Heartbeats and leadership -/

/-- The request `send_heartbeats` builds for one peer. -/
def heartbeatRequest (n : RaftNode) (currentTerm commitIndex : Nat) (peerId : String) :
    AppendEntriesRequest :=
  let nextIdx := (n.nextIndex.lookup peerId).getD 1
  let prevLogIndex := nextIdx - 1
  { term := currentTerm
    leaderId := .pushStr 64 n.nodeId
    prevLogIndex := prevLogIndex
    prevLogTerm := (n.log.termAt prevLogIndex).getD 0
    entries := .collectTake 64 (n.log.getEntries nextIdx n.log.lastIndex)
    leaderCommit := commitIndex }

/-- `send_heartbeats`. -/
def sendHeartbeats : NodeProg Unit := do
  let role ← withRead .role (·.role)
  if role ≠ .leader then
    pure ()
  else
    lockAt .log .sendHeartbeats
    let n ← get
    let currentTerm := n.log.currentTerm
    let commitIndex ← withRead .commitIndex (·.commitIndex)
    readLock .peers
    readLock .nextIndex
    let n ← get
    sendAll (n.peers.keys.map fun peerId =>
      .new n.nodeId peerId (.appendEntries (heartbeatRequest n currentTerm commitIndex peerId)))
    unlock .nextIndex
    unlock .peers
    unlock .log

/-- `become_leader`. -/
def becomeLeader : NodeProg Unit := do
  -- No guard is held here, and the term is not read again.
  withWriteAt .role .becomeLeader fun n => { n with role := .leader }
  withWrite .leaderId fun n => { n with leaderId := some n.nodeId }
  lock .log
  let n ← get
  let lastIndex := n.log.lastIndex
  unlock .log
  -- Only the entries of present peers are reset.
  readLock .peers
  lock .nextIndex
  lock .matchIndex
  modify fun n =>
    { n with
      nextIndex := n.peers.keys.foldl (fun m id => m.insert id (addOne lastIndex)) n.nextIndex
      matchIndex := n.peers.keys.foldl (fun m id => m.insert id 0) n.matchIndex }
  unlock .nextIndex
  unlock .matchIndex
  unlock .peers
  sendHeartbeats

/-- `propose`. -/
def propose (command : Command) (responseTx : Sender) : NodeProg Unit := do
  let role ← withRead .role (·.role)
  if role ≠ .leader then
    let leaderId ← withRead .leaderId (·.leaderId)
    .emit (.reply responseTx (.notLeader leaderId)) (.done ())
  else
    -- The role is not checked again under the mutex.
    lockAt .log .propose
    let n ← get
    let term := n.log.currentTerm
    let index := (n.log.append term command).2
    modify fun n => { n with log := (n.log.append term command).1 }
    .emit (.appended responseTx ⟨index, term, command⟩) (.done ())
    unlock .log
    -- The entry is in the log before its client waits for it.
    withWrite .pendingRequests fun n =>
      { n with pendingRequests := n.pendingRequests.insert index responseTx }
    sendHeartbeats

/-- `start_election`. -/
def startElection : NodeProg Unit := do
  lockAt .log .startElection
  let n ← get
  let newTerm := addOne n.log.currentTerm
  setCurrentTerm newTerm
  setVotedFor n.nodeId
  setRole .candidate
  withWrite .votesReceived fun n => { n with votesReceived := [n.nodeId] }
  let n ← get
  let request : RequestVoteRequest :=
    { term := newTerm
      candidateId := .pushStr 64 n.nodeId
      lastLogIndex := n.log.lastIndex
      lastLogTerm := n.log.lastTerm }
  readLock .peers
  let n ← get
  sendAll (n.peers.keys.map fun peerId => .new n.nodeId peerId (.requestVote request))
  -- A single-node cluster elects itself.
  if n.peers.keys.isEmpty then
    .emit (.elected newTerm) (.done ())
    unlock .peers
    unlock .log
    becomeLeader
  else
    unlock .peers
    unlock .log

/-! ### The message handlers -/

/-- `send_append_entries_response`. It takes the log mutex itself. -/
def sendAppendEntriesResponse (recipient : String) (term : Nat) (success : Bool) :
    NodeProg Unit := do
  lock .log
  let n ← get
  let response : AppendEntriesResponse :=
    { term := term
      success := success
      lastLogIndex := n.log.lastIndex
      nodeId := .pushStr 64 n.nodeId }
  sendAll [.new n.nodeId recipient (.appendEntriesResponse response)]
  unlock .log

/-- The scan over the entries of a request: the log is cut at the first entry whose index
holds an entry of another term. -/
def deleteConflicting (log : RaftLog) : List LogEntry → RaftLog
  | [] => log
  | entry :: rest =>
      match log.termAt entry.index with
      | some existingTerm =>
          if existingTerm ≠ entry.term then log.truncateFrom entry.index
          else deleteConflicting log rest
      | none => deleteConflicting log rest

/-- `handle_append_entries`. -/
def handleAppendEntries (sender : String) (req : AppendEntriesRequest) : NodeProg Unit := do
  lock .log
  let n ← get
  let currentTerm := n.log.currentTerm
  if req.term < currentTerm then
    -- The guard is not dropped before the answer.
    sendAppendEntriesResponse sender currentTerm false
    unlock .log
  else
    -- Update term if needed.
    if req.term > currentTerm then
      setCurrentTerm req.term
      setRole .follower
    withWrite .leaderId fun n => { n with leaderId := some req.leaderId.asStr }
    -- Check log consistency.
    let n ← get
    if req.prevLogIndex > 0 ∧ n.log.hasEntry req.prevLogIndex req.prevLogTerm = false then
      -- Nor is it here.
      sendAppendEntriesResponse sender n.log.currentTerm false
      unlock .log
    else
      -- All entries of the request are appended, also those the log has.
      if req.entries.toVec ≠ [] then
        modify fun n => { n with log := deleteConflicting n.log req.entries.toVec }
        modify fun n => { n with log := n.log.appendEntries req.entries.toVec }
      -- `last_new_entry` is the last index of the whole log.
      let commitIndex ← withRead .commitIndex (·.commitIndex)
      if req.leaderCommit > commitIndex then
        let n ← get
        let lastNewEntry := n.log.lastIndex
        withWrite .commitIndex fun n =>
          { n with commitIndex := min req.leaderCommit lastNewEntry }
      unlock .log
      applyCommittedEntries
      -- The answer carries the term read on entry.
      sendAppendEntriesResponse sender currentTerm true

/-- `handle_append_entries_response`. -/
def handleAppendEntriesResponse (sender : String) (resp : AppendEntriesResponse) :
    NodeProg Unit := do
  lock .log
  let role ← withRead .role (·.role)
  if role ≠ .leader then
    unlock .log
  else
    let n ← get
    if resp.term > n.log.currentTerm then
      unlock .log
      lockAt .log (.stepDown resp.term)
      setCurrentTerm resp.term
      setRole .follower
      unlock .log
    else if resp.success then
      -- The last index of the sender's log becomes its match index.
      lock .nextIndex
      lock .matchIndex
      modify fun n =>
        { n with
          matchIndex := n.matchIndex.insert sender resp.lastLogIndex
          nextIndex := n.nextIndex.insert sender (addOne resp.lastLogIndex) }
      unlock .nextIndex
      unlock .matchIndex
      unlock .log
      tryAdvanceCommitIndex
    else
      -- Decrement next_index and retry.
      lock .nextIndex
      modify fun n =>
        match n.nextIndex.lookup sender with
        | some idx => { n with nextIndex := n.nextIndex.insert sender (max (idx - 1) 1) }
        | none => n
      unlock .nextIndex
      unlock .log

/-- `send_request_vote_response`. -/
def sendRequestVoteResponse (recipient : String) (term : Nat) (voteGranted : Bool) :
    NodeProg Unit := do
  let n ← get
  let response : RequestVoteResponse :=
    { term := term
      voteGranted := voteGranted
      nodeId := .pushStr 64 n.nodeId }
  sendAll [.new n.nodeId recipient (.requestVoteResponse response)]

/-- `handle_request_vote`. -/
def handleRequestVote (sender : String) (req : RequestVoteRequest) : NodeProg Unit := do
  lock .log
  let n ← get
  let currentTerm := n.log.currentTerm
  if req.term < currentTerm then
    sendRequestVoteResponse sender currentTerm false
    unlock .log
  else
    if req.term > currentTerm then
      setCurrentTerm req.term
      setRole .follower
    -- The vote compares the candidate the request names, not its sender.
    let n ← get
    let canVote := n.log.votedFor = none ∨ n.log.votedFor = some req.candidateId.asStr
    let logOk := req.lastLogTerm > n.log.lastTerm ∨
      (req.lastLogTerm = n.log.lastTerm ∧ req.lastLogIndex ≥ n.log.lastIndex)
    if canVote ∧ logOk then
      setVotedFor req.candidateId.asStr
      let n ← get
      sendRequestVoteResponse sender n.log.currentTerm true
      unlock .log
    else
      sendRequestVoteResponse sender n.log.currentTerm false
      unlock .log

/-- `handle_request_vote_response`. -/
def handleRequestVoteResponse (sender : String) (resp : RequestVoteResponse) :
    NodeProg Unit := do
  lock .log
  let role ← withRead .role (·.role)
  if role ≠ .candidate then
    unlock .log
  else
    let n ← get
    if resp.term > n.log.currentTerm then
      unlock .log
      lockAt .log (.stepDown resp.term)
      setCurrentTerm resp.term
      setRole .follower
      unlock .log
    else if resp.voteGranted then
      lock .votesReceived
      modify fun n =>
        if sender ∈ n.votesReceived then n
        else { n with votesReceived := n.votesReceived ++ [sender] }
      readLock .peers
      let n ← get
      -- `votes_received` starts with the node's own id, and `+ 1` counts it again.
      if n.votesReceived.length + 1 ≥ majority n.peers then
        .emit (.elected n.log.currentTerm) (.done ())
        -- The role is stored only after the log mutex is dropped.
        unlock .votesReceived
        unlock .peers
        unlock .log
        becomeLeader
      else
        unlock .peers
        unlock .votesReceived
        unlock .log
    else
      unlock .log

/-- `handle_message`. -/
def handleMessage (envelope : MessageEnvelope) : NodeProg Unit :=
  match envelope.message with
  | .appendEntries req => handleAppendEntries envelope.sender.asStr req
  | .appendEntriesResponse resp => handleAppendEntriesResponse envelope.sender.asStr resp
  | .requestVote req => handleRequestVote envelope.sender.asStr req
  | .requestVoteResponse resp => handleRequestVoteResponse envelope.sender.asStr resp
  | .clientRequest _ => pure ()
  | .clientResponse _ => pure ()

/-! ### Membership and queries -/

/-- `add_peer`. -/
def addPeer (id address : String) : NodeProg Unit := do
  withWrite .peers fun n => { n with peers := n.peers.insert id (.new id address) }
  let role ← withRead .role (·.role)
  if role = .leader then
    lock .log
    let n ← get
    let lastIndex := n.log.lastIndex
    withWrite .nextIndex fun n => { n with nextIndex := n.nextIndex.insert id (addOne lastIndex) }
    withWrite .matchIndex fun n => { n with matchIndex := n.matchIndex.insert id 0 }
    unlock .log
  else
    pure ()

/-- `remove_peer`. What is committed is not looked at again. -/
def removePeer (id : String) : NodeProg Unit := do
  withWrite .peers fun n => { n with peers := n.peers.erase id }
  withWrite .nextIndex fun n => { n with nextIndex := n.nextIndex.erase id }
  withWrite .matchIndex fun n => { n with matchIndex := n.matchIndex.erase id }

/-- `get_status`. -/
def getStatus : NodeProg NodeStatus := do
  lock .log
  readLock .peers
  readLock .role
  let role := (← get).role
  let currentTerm := (← get).log.currentTerm
  readLock .commitIndex
  let commitIndex := (← get).commitIndex
  readLock .lastApplied
  let lastApplied := (← get).lastApplied
  readLock .leaderId
  let n ← get
  -- The guards of a struct literal in tail position outlive the locals.
  unlock .peers
  unlock .log
  unlock .leaderId
  unlock .lastApplied
  unlock .commitIndex
  unlock .role
  return {
    nodeId := n.nodeId
    role := role
    currentTerm := currentTerm
    commitIndex := commitIndex
    lastApplied := lastApplied
    leaderId := n.leaderId
    peers := n.peers.keys }

/-- `get_value`. -/
def getValue (key : String) : NodeProg (Option (List UInt8)) := do
  lock .stateMachine
  let n ← get
  unlock .stateMachine
  return n.stateMachine.get key

/-- `get_messages`. The index is not used. -/
def getMessages {V : Type} (fromSlice : List UInt8 → Option V) (limit _sinceIndex : Nat) :
    NodeProg (List V) := do
  lock .stateMachine
  let n ← get
  unlock .stateMachine
  return n.stateMachine.getMessages fromSlice limit

/-! ### Construction -/

/-- The peer map that `RaftNode::new` fills from the configuration. -/
def peerMap (peers : List (String × String)) : HashMap String PeerInfo :=
  peers.foldl (fun m p => m.insert p.1 (.new p.1 p.2)) ∅

/-- The node that `RaftNode::new` builds around its log. -/
def withLog (nodeId : String) (peers : HashMap String PeerInfo) (log : RaftLog) : RaftNode where
  nodeId := nodeId
  role := .follower
  log := log
  stateMachine := .new
  commitIndex := 0
  lastApplied := 0
  leaderId := none
  peers := peers
  nextIndex := ∅
  matchIndex := ∅
  votesReceived := []
  pendingRequests := ∅

/-- `RaftNode::new` on a data directory with these contents. `none` is `Err`: the log did
not load. -/
def new (nodeId : String) (peers : HashMap String PeerInfo) (dir : DataDir) :
    Option RaftNode :=
  (RaftLog.new dir).map (withLog nodeId peers)

end RaftNode

end RaftEbpf
