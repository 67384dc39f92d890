import RaftEbpf.Cluster
import RaftEbpf.Interleaving
import RaftEbpf.Proofs.LogList
import RaftEbpf.Proofs.Neutral

/-!
# `RaftEbpf.Proofs.Durable`: one durable vote per term

One node handles messages, timeouts and proposals one at a time. Writes of `state.json` may
fail, and the node may crash between handlers and start again from what is on disk.

* `votes_durable`: over the whole history of the node, the term is at least that of each
  vote, after a restart too, and no term has votes for two candidates.

A vote is a grant, for the candidate of the request, or a RequestVote of the node itself.
`Durable` is the invariant: memory and disk both remember each vote, so that neither can
lose it to the other.
-/

set_option autoImplicit false

namespace RaftEbpf

open RaftEbpf.Lib (HashMap Prog)
open RaftNode

/-! ### The life of one node -/

/-- The node after it handled an event, with these outcomes of its writes. -/
def Event.after (ev : Event) (ws : List WriteResult) (n : RaftNode) : RaftNode :=
  (ev.handler.run ws n).state

/-- What the handler of an event outputs. -/
def Event.emissions (ev : Event) (ws : List WriteResult) (n : RaftNode) : List Emission :=
  (ev.handler.run ws n).out.map fun o => ⟨ev.cause, o, ev.after ws n⟩

/-- The states that one node goes through, with all it has output: it starts on some data
directory, handles events with any outcome of its writes, and restarts from its own data
directory where that loads. Terms stay below `u64::MAX`. -/
inductive Life (id : String) (peers : HashMap String PeerInfo) :
    RaftNode → List Emission → Prop where
  | boot {dir : DataDir} {n : RaftNode} (h : RaftNode.new id peers dir = some n) :
      Life id peers n []
  | handle {n : RaftNode} {history : List Emission} (life : Life id peers n history)
      (ev : Event) (ws : List WriteResult)
      (hterm : ev = .electionTimeout → n.log.currentTerm < u64Max) :
      Life id peers (ev.after ws n) (history ++ ev.emissions ws n)
  | restart {n n' : RaftNode} {history : List Emission} (life : Life id peers n history)
      (h : RaftNode.new id peers n.log.dataDir = some n') : Life id peers n' history

/-- The candidate of the request handled. -/
def candidate (cause : Option RaftMessage) : String :=
  match cause with
  | some (.requestVote req) => req.candidateId.asStr
  | _ => ""

/-- An output of node `id` is a vote in this term for this candidate: a grant, or a
RequestVote of its own. -/
def Output.Votes (id : String) (cause : Option RaftMessage) (o : Output) (term : Nat)
    (name : String) : Prop :=
  match o with
  | .send env =>
      match env.message with
      | .requestVoteResponse resp =>
          resp.voteGranted = true ∧ resp.term = term ∧ candidate cause = name
      | .requestVote req => req.term = term ∧ id = name
      | _ => False
  | _ => False

instance (id : String) (cause : Option RaftMessage) (o : Output) (term : Nat) (name : String) :
    Decidable (o.Votes id cause term name) := by
  unfold Output.Votes
  exact match o with
    | .send ⟨_, _, message⟩ =>
        match message with
        | .appendEntries _ | .appendEntriesResponse _ | .requestVote _ | .requestVoteResponse _
        | .clientRequest _ | .clientResponse _ => inferInstance
    | .reply _ _ | .elected _ | .appended _ _ | .applied _ _ => inferInstance

/-- Node `id` has voted in this term for this candidate. -/
def Voted (id : String) (history : List Emission) (term : Nat) (name : String) : Prop :=
  ∃ em ∈ history, em.output.Votes id em.cause term name

instance (id : String) (history : List Emission) (term : Nat) (name : String) :
    Decidable (Voted id history term name) :=
  inferInstanceAs (Decidable (∃ em ∈ history, _))

/-! ### The invariant -/

/-- Term and vote remember a vote: the term has been reached, and while it lasts the vote is
still there. -/
def PersistentState.Remembers (ps : PersistentState) (term : Nat) (name : String) : Prop :=
  term ≤ ps.currentTerm ∧ (ps.currentTerm = term → ps.votedFor.map (·.asStr) = some name)

/-- What `state.json` remembers: nothing is lost where it does not exist, and nothing can be
loaded where it does not parse. -/
def StateFile.Remembers (file : StateFile) (term : Nat) (name : String) : Prop :=
  match file with
  | .absent => False
  | .json ps => ps.Remembers term name
  | .unparsable => True

/-- Memory and disk remember all these votes, and no term has votes for two candidates. -/
structure Durable (id : String) (votes : Nat → String → Prop) (n : RaftNode) : Prop where
  nodeId : n.nodeId = id
  memory : ∀ term name, votes term name → n.log.persistentState.Remembers term name
  disk : ∀ term name, votes term name → n.log.dataDir.stateJson.Remembers term name
  unique : ∀ term name name', votes term name → votes term name' → name = name'

namespace Durable

variable {id : String} {votes : Nat → String → Prop} {n : RaftNode}

/-- The invariant reads the id, the persistent state and `state.json`. -/
theorem congr (h : Durable id votes n) {n' : RaftNode} (hid : n'.nodeId = n.nodeId)
    (hps : n'.log.persistentState = n.log.persistentState)
    (hfile : n'.log.dataDir.stateJson = n.log.dataDir.stateJson) : Durable id votes n' where
  nodeId := hid.trans h.nodeId
  memory := hps ▸ h.memory
  disk := hfile ▸ h.disk
  unique := h.unique

/-- What remembers more votes remembers fewer. -/
theorem imp (h : Durable id votes n) {votes' : Nat → String → Prop}
    (hsub : ∀ t c, votes' t c → votes t c) : Durable id votes' n :=
  ⟨h.nodeId, fun t c hv => h.memory t c (hsub t c hv), fun t c hv => h.disk t c (hsub t c hv),
    fun t c c' hv hv' => h.unique t c c' (hsub t c hv) (hsub t c' hv')⟩

/-- A write of `state.json`, whatever its outcome, keeps what memory and disk remember. -/
theorem saveState (h : Durable id votes n) (log : RaftLog)
    (hmem : ∀ term name, votes term name → log.persistentState.Remembers term name)
    (hdisk : log.dataDir.stateJson = n.log.dataDir.stateJson) (w : WriteResult) :
    Durable id votes { n with log := log.saveState w } := by
  cases w with
  | ok => exact ⟨h.nodeId, hmem, hmem, h.unique⟩
  | errOld => exact ⟨h.nodeId, hmem, hdisk ▸ h.disk, h.unique⟩
  | errUnparsable => exact ⟨h.nodeId, hmem, fun _ _ _ => trivial, h.unique⟩

/-- A newer term forgets no vote. -/
theorem setCurrentTerm (h : Durable id votes n) {term : Nat} (hlt : n.log.currentTerm < term)
    (w : WriteResult) : Durable id votes { n with log := n.log.setCurrentTerm term w } := by
  refine h.saveState { n.log with persistentState := ⟨term, none⟩ } (fun t name hv => ?_) rfl w
  have hle : t ≤ n.log.currentTerm := (h.memory t name hv).1
  exact ⟨Nat.le_trans hle (Nat.le_of_lt hlt), fun heq => absurd heq (by simp only; omega)⟩

/-- A vote for a candidate of at most 64 bytes forgets no vote where the node has not voted
in its term or has voted for the same one. -/
theorem setVotedFor (h : Durable id votes n) {name : String} (hname : name.utf8ByteSize ≤ 64)
    (hcan : n.log.votedFor = none ∨ n.log.votedFor = some name) (w : WriteResult) :
    Durable id votes { n with log := n.log.setVotedFor (some name) w } := by
  refine h.saveState { n.log with
    persistentState.votedFor := some (.pushStr 64 name) } (fun t name' hv => ?_) rfl w
  obtain ⟨hle, hvote⟩ := h.memory t name' hv
  refine ⟨hle, fun heq => ?_⟩
  have hvoted : n.log.votedFor = some name' := hvote heq
  show some (HeaplessString.pushStr 64 name).asStr = some name'
  rw [HeaplessString.asStr_pushStr hname]
  rcases hcan with hnone | hsome
  · rw [hnone] at hvoted
    cases hvoted
  · rw [← hsome, hvoted]

end Durable

/-! ### One handler -/

section Primitives
variable {Q : Unit → RaftNode → List Output → Prop} {F : RaftNode → List Output → Prop}
  (n : RaftNode) (out : List Output)

@[simp] theorem wp_lockAt (l : Lock) (site : Site) :
    (lockAt l site).wp Q F n out ↔ Q () n out := Iff.rfl

@[simp] theorem wp_lock (l : Lock) : (lock l).wp Q F n out ↔ Q () n out := Iff.rfl

@[simp] theorem wp_readLock (l : Lock) : (readLock l).wp Q F n out ↔ Q () n out := Iff.rfl

@[simp] theorem wp_unlock (l : Lock) : (unlock l).wp Q F n out ↔ Q () n out := Iff.rfl

@[simp] theorem wp_get {Q : RaftNode → RaftNode → List Output → Prop} :
    get.wp Q F n out ↔ Q n n out := Iff.rfl

@[simp] theorem wp_withRead {α : Type} {Q : α → RaftNode → List Output → Prop} (l : Lock)
    (f : RaftNode → α) : (withRead l f).wp Q F n out ↔ Q (f n) n out := Iff.rfl

@[simp] theorem wp_modify (f : RaftNode → RaftNode) :
    (modify f).wp Q F n out ↔ Q () (f n) out := Iff.rfl

@[simp] theorem wp_withWrite (l : Lock) (f : RaftNode → RaftNode) :
    (withWrite l f).wp Q F n out ↔ Q () (f n) out := Iff.rfl

@[simp] theorem wp_setRole (role : NodeRole) :
    (setRole role).wp Q F n out ↔ Q () { n with role } out := Iff.rfl

@[simp] theorem wp_emit (o : Output) :
    (.emit o (.done ()) : NodeProg Unit).wp Q F n out ↔ Q () n (out ++ [o]) := Iff.rfl

@[simp] theorem wp_sendAll (envs : List MessageEnvelope) :
    (sendAll envs).wp Q F n out ↔ Q () n (out ++ envs.map .send) := by
  induction envs generalizing out with
  | nil => rw [List.map_nil, List.append_nil]; rfl
  | cons env envs ih => simp [sendAll, ih]

/-- A write of `state.json` that fails ends the task. -/
theorem wp_checked {f : WriteResult → RaftNode → RaftNode} :
    (Prog.choose fun w => .write .plain (f w) (checkWrite w) : NodeProg Unit).wp Q F n out ↔
      Q () (f .ok n) out ∧ ∀ w, w ≠ .ok → F (f w n) out := by
  constructor
  · intro h
    refine ⟨h .ok, fun w hw => ?_⟩
    cases w with
    | ok => exact absurd rfl hw
    | errOld => exact h .errOld
    | errUnparsable => exact h .errUnparsable
  · rintro ⟨hok, herr⟩ w
    cases w with
    | ok => exact hok
    | errOld => exact herr .errOld (by decide)
    | errUnparsable => exact herr .errUnparsable (by decide)

theorem wp_setCurrentTerm (term : Nat) : (setCurrentTerm term).wp Q F n out ↔
    Q () { n with log := n.log.setCurrentTerm term .ok } out ∧
      ∀ w, w ≠ .ok → F { n with log := n.log.setCurrentTerm term w } out := wp_checked n out

theorem wp_setVotedFor (name : String) : (setVotedFor name).wp Q F n out ↔
    Q () { n with log := n.log.setVotedFor (some name) .ok } out ∧
      ∀ w, w ≠ .ok → F { n with log := n.log.setVotedFor (some name) w } out := wp_checked n out

end Primitives

theorem RaftNode.NoVote.not_votes {o : Output} (h : NoVote o) (id : String)
    (cause : Option RaftMessage) (term : Nat) (name : String) :
    ¬ o.Votes id cause term name := by
  intro hv
  cases o with
  | send env =>
      simp only [NoVote, Output.Votes] at h hv
      split at h
      · rename_i resp heq
        simp only [heq] at hv
        exact absurd (hv.1.symm.trans h) (by decide)
      · exact h
      · split at hv <;> simp_all
  | reply => exact hv
  | elected => exact hv
  | appended => exact hv
  | applied => exact hv

/-- Memory and disk remember the votes of the past and those of a handler so far. -/
def Recorded (id : String) (cause : Option RaftMessage) (past : Nat → String → Prop)
    (n : RaftNode) (out : List Output) : Prop :=
  Durable id (fun t c => past t c ∨ ∃ o ∈ out, o.Votes id cause t c) n

section Handlers
variable {id : String} {cause : Option RaftMessage} {past : Nat → String → Prop}

/-- What is no vote and leaves the vote alone keeps all votes recorded. -/
theorem recorded_of_only {p : NodeProg Unit} (h : p.Only LogExclusive KeepsVote NoVote)
    {n : RaftNode} {out : List Output} (hrec : Recorded id cause past n out) :
    p.wp (fun _ => Recorded id cause past) (Recorded id cause past) n out := by
  refine h.wp (fun f hf n out hrec => hrec.congr (hf.nodeId n) (hf.persistentState n)
    (hf.stateJson n)) (fun o ho n out hrec => ?_) hrec
  refine hrec.imp fun t c hv => ?_
  rcases hv with hv | ⟨o', ho', hv⟩
  · exact Or.inl hv
  · rcases List.mem_append.mp ho' with ho' | ho'
    · exact Or.inr ⟨o', ho', hv⟩
    · obtain rfl := List.mem_singleton.mp ho'
      exact absurd hv (ho.not_votes id cause t c)

/-- A vote that is in memory and on disk may be cast, in any number of envelopes. -/
theorem recorded_vote {n : RaftNode} {out : List Output} (hrec : Recorded id cause past n out)
    (name : String) (hvote : n.log.votedFor = some name)
    (hfile : n.log.dataDir.stateJson = .json n.log.persistentState)
    {envs : List MessageEnvelope} (henvs : ∀ env ∈ envs, ∀ t c,
      (Output.send env).Votes id cause t c → t = n.log.currentTerm ∧ c = name) :
    Recorded id cause past n (out ++ envs.map .send) := by
  have hnew : n.log.persistentState.Remembers n.log.currentTerm name :=
    ⟨Nat.le_refl _, fun _ => hvote⟩
  have hcases : ∀ t c, (past t c ∨ ∃ o ∈ out ++ envs.map .send, o.Votes id cause t c) →
      (past t c ∨ ∃ o ∈ out, o.Votes id cause t c) ∨ t = n.log.currentTerm ∧ c = name := by
    rintro t c (hv | ⟨o, ho, hv⟩)
    · exact Or.inl (Or.inl hv)
    · rcases List.mem_append.mp ho with ho | ho
      · exact Or.inl (Or.inr ⟨o, ho, hv⟩)
      · obtain ⟨env, henv, rfl⟩ := List.mem_map.mp ho
        exact Or.inr (henvs env henv t c hv)
  -- A vote of this term in the past was for the same candidate.
  have hsame : ∀ c, (past n.log.currentTerm c ∨ ∃ o ∈ out, o.Votes id cause n.log.currentTerm c) →
      c = name := by
    intro c hv
    have hold : n.log.votedFor = some c := (hrec.memory _ c hv).2 rfl
    exact Option.some.inj (hold.symm.trans hvote)
  refine ⟨hrec.nodeId, fun t c hv => ?_, fun t c hv => ?_, fun t c c' hv hv' => ?_⟩
  · rcases hcases t c hv with hold | ⟨rfl, rfl⟩
    · exact hrec.memory t c hold
    · exact hnew
  · rcases hcases t c hv with hold | ⟨rfl, rfl⟩
    · exact hrec.disk t c hold
    · rw [hfile]
      exact hnew
  · rcases hcases t c hv with hold | ⟨rfl, rfl⟩
    · rcases hcases t c' hv' with hold' | ⟨rfl, rfl⟩
      · exact hrec.unique t c c' hold hold'
      · exact hsame c hold
    · rcases hcases _ c' hv' with hold' | ⟨-, rfl⟩
      · exact (hsame c' hold').symm
      · rfl

theorem recorded_stepDown {n : RaftNode} (hrec : Recorded id cause past n []) {term : Nat}
    (hgt : term > n.log.currentTerm) :
    (stepDown term).wp (fun _ => Recorded id cause past) (Recorded id cause past) n [] := by
  simp only [stepDown, Prog.wp_bind, wp_unlock, wp_lockAt, wp_setCurrentTerm, wp_setRole]
  exact ⟨(hrec.setCurrentTerm hgt .ok).congr rfl rfl rfl,
    fun w _ => hrec.setCurrentTerm hgt w⟩

theorem recorded_startElection (hid : id.utf8ByteSize ≤ 64) {n : RaftNode}
    (hrec : Recorded id none past n []) (hterm : n.log.currentTerm < u64Max) :
    startElection.wp (fun _ => Recorded id none past) (Recorded id none past) n [] := by
  have hlt : n.log.currentTerm < addOne n.log.currentTerm := by
    rw [addOne_of_lt hterm]
    exact Nat.lt_succ_self _
  have hname : n.nodeId.utf8ByteSize ≤ 64 := hrec.nodeId ▸ hid
  have hraised := hrec.setCurrentTerm hlt .ok
  simp only [startElection, Prog.wp_bind, wp_lockAt, wp_get, wp_setCurrentTerm, wp_setVotedFor,
    wp_setRole, wp_withWrite, wp_readLock, wp_sendAll]
  refine ⟨⟨?_, fun w _ => hraised.setVotedFor hname (Or.inl rfl) w⟩,
    fun w _ => hrec.setCurrentTerm hlt w⟩
  -- The vote for itself is on disk before the first request goes out.
  have hvoted : Recorded id none past (candidateOf n) [] :=
    (hraised.setVotedFor hname (Or.inl rfl) .ok).congr rfl rfl rfl
  have hsent : Recorded id none past (candidateOf n) ([] ++ (n.peers.keys.map fun peerId =>
      .new n.nodeId peerId (.requestVote (voteRequest n))).map .send) := by
    refine recorded_vote hvoted id ?_ rfl ?_
    · show some (HeaplessString.pushStr 64 n.nodeId).asStr = some id
      rw [HeaplessString.asStr_pushStr hname, hrec.nodeId]
    · intro env henv t c hv
      obtain ⟨peerId, -, rfl⟩ := List.mem_map.mp henv
      exact ⟨hv.1.symm, hv.2.symm⟩
  split
  · refine recorded_of_only ?_ hsent
    simp only [only_emit_bind, only_unlock_bind]
    exact ⟨trivial, keepsVote_becomeLeader⟩
  · exact hsent

/-- A vote is on disk before its grant goes out. -/
theorem recorded_castVote (sender : String) (req : RequestVoteRequest) {n : RaftNode}
    (hrec : Recorded id (some (.requestVote req)) past n []) :
    (castVote sender req).wp (fun _ => Recorded id (some (.requestVote req)) past)
      (Recorded id (some (.requestVote req)) past) n [] := by
  rw [castVote]
  simp only [Prog.wp_bind, wp_get]
  split
  · rename_i hcan
    have hvoted := hrec.setVotedFor req.candidateId.fits hcan.1
    simp only [Prog.wp_bind, wp_setVotedFor, wp_get, sendRequestVoteResponse, wp_sendAll, wp_unlock]
    refine ⟨recorded_vote (hvoted .ok) req.candidateId.asStr ?_ rfl ?_,
      fun w _ => hvoted w⟩
    · show some (HeaplessString.pushStr 64 req.candidateId.asStr).asStr = _
      rw [HeaplessString.pushStr_asStr]
    · intro env henv t c hv
      obtain rfl := List.mem_singleton.mp henv
      exact ⟨hv.2.1.symm, hv.2.2.symm⟩
  · exact recorded_of_only (keepsVote_of_only
      ((only_sendRequestVoteResponse _ _).bind fun _ => only_unlock _)) hrec

theorem recorded_handleRequestVote (sender : String) (req : RequestVoteRequest) {n : RaftNode}
    (hrec : Recorded id (some (.requestVote req)) past n []) :
    (handleRequestVote sender req).wp (fun _ => Recorded id (some (.requestVote req)) past)
      (Recorded id (some (.requestVote req)) past) n [] := by
  have hrefuse : ∀ (n' : RaftNode) (term : Nat), Recorded id (some (.requestVote req)) past n' [] →
      (sendRequestVoteResponse sender term false >>= fun _ => unlock .log).wp
        (fun _ => Recorded id (some (.requestVote req)) past)
        (Recorded id (some (.requestVote req)) past) n' [] :=
    fun n' term => recorded_of_only (keepsVote_of_only
      ((only_sendRequestVoteResponse _ _).bind fun _ => only_unlock _))
  rw [handleRequestVote_eq]
  simp only [Prog.wp_bind, wp_lock, wp_get]
  split
  · exact hrefuse n _ hrec
  · split
    · rename_i hgt
      simp only [Prog.wp_bind, wp_setCurrentTerm, wp_setRole]
      exact ⟨recorded_castVote sender req ((hrec.setCurrentTerm hgt .ok).congr rfl rfl rfl),
        fun w _ => hrec.setCurrentTerm hgt w⟩
    · exact recorded_castVote sender req hrec

theorem recorded_handleAppendEntries (sender : String) (req : AppendEntriesRequest)
    {n : RaftNode} (hrec : Recorded id cause past n []) :
    (handleAppendEntries sender req).wp (fun _ => Recorded id cause past)
      (Recorded id cause past) n [] := by
  rw [handleAppendEntries_eq]
  simp only [Prog.wp_bind, wp_lock, wp_get]
  split
  · exact recorded_of_only (keepsVote_of_only
      ((only_sendAppendEntriesResponse _ _ _).bind fun _ => only_unlock _)) hrec
  · have htail : ∀ n', Recorded id cause past n' [] →
        (afterTermCheck sender req n.log.currentTerm).wp (fun _ => Recorded id cause past)
          (Recorded id cause past) n' [] :=
      fun _ => recorded_of_only (keepsVote_of_only (only_afterTermCheck _ _ _))
    split
    · rename_i hgt
      simp only [Prog.wp_bind, wp_setCurrentTerm, wp_setRole]
      exact ⟨htail _ ((hrec.setCurrentTerm hgt .ok).congr rfl rfl rfl),
        fun w _ => hrec.setCurrentTerm hgt w⟩
    · exact htail n hrec

theorem recorded_handleAppendEntriesResponse (sender : String) (resp : AppendEntriesResponse)
    {n : RaftNode} (hrec : Recorded id cause past n []) :
    (handleAppendEntriesResponse sender resp).wp (fun _ => Recorded id cause past)
      (Recorded id cause past) n [] := by
  rw [handleAppendEntriesResponse_eq]
  simp only [Prog.wp_bind, wp_lock, wp_withRead]
  split
  · exact hrec
  · simp only [Prog.wp_bind, wp_get]
    split
    · rename_i hgt
      exact recorded_stepDown hrec hgt
    · exact recorded_of_only (keepsVote_of_only (only_recordAnswer _ _)) hrec

theorem recorded_handleRequestVoteResponse (sender : String) (resp : RequestVoteResponse)
    {n : RaftNode} (hrec : Recorded id cause past n []) :
    (handleRequestVoteResponse sender resp).wp (fun _ => Recorded id cause past)
      (Recorded id cause past) n [] := by
  rw [handleRequestVoteResponse_eq]
  simp only [Prog.wp_bind, wp_lock, wp_withRead]
  split
  · exact hrec
  · simp only [Prog.wp_bind, wp_get]
    split
    · rename_i hgt
      exact recorded_stepDown hrec hgt
    · split
      · exact recorded_of_only (keepsVote_countVote _) hrec
      · exact hrec

/-- Every handler keeps all votes recorded, whatever its writes do. -/
theorem recorded_handler (hid : id.utf8ByteSize ≤ 64) (ev : Event) {n : RaftNode}
    (hrec : Recorded id ev.cause past n [])
    (hterm : ev = .electionTimeout → n.log.currentTerm < u64Max) :
    ev.handler.wp (fun _ => Recorded id ev.cause past) (Recorded id ev.cause past) n [] := by
  cases ev with
  | electionTimeout => exact recorded_startElection hid hrec (hterm rfl)
  | heartbeatTimeout => exact recorded_of_only keepsVote_sendHeartbeats hrec
  | propose command responseTx => exact recorded_of_only (keepsVote_propose _ _) hrec
  | receive envelope =>
      obtain ⟨sender, recipient, message⟩ := envelope
      cases message with
      | appendEntries req => exact recorded_handleAppendEntries _ req hrec
      | appendEntriesResponse resp => exact recorded_handleAppendEntriesResponse _ resp hrec
      | requestVote req => exact recorded_handleRequestVote _ req hrec
      | requestVoteResponse resp => exact recorded_handleRequestVoteResponse _ resp hrec
      | clientRequest req => exact hrec
      | clientResponse resp => exact hrec

end Handlers

/-! ### The whole life -/

/-- A log that loads keeps its directory, and it holds what `state.json` holds, if that
exists. -/
theorem RaftLog.new_stateJson {dir : DataDir} {log : RaftLog} (h : RaftLog.new dir = some log) :
    log.dataDir = dir ∧
      (dir.stateJson = .absent ∨ dir.stateJson = .json log.persistentState) := by
  obtain ⟨file, lines⟩ := dir
  cases file with
  | absent =>
      obtain rfl := Option.some.inj h
      exact ⟨(foldl_loadLine_frame _ _).1, Or.inl rfl⟩
  | json ps =>
      obtain rfl := Option.some.inj h
      obtain ⟨hdir, hps⟩ := foldl_loadLine_frame lines
        { unloaded ⟨.json ps, lines⟩ with persistentState := ps }
      exact ⟨hdir, Or.inr (congrArg StateFile.json hps.symm)⟩
  | unparsable => cases h

/-- What a restart loads is what `state.json` remembers. -/
theorem Durable.restart {id : String} {peers : HashMap String PeerInfo}
    {votes : Nat → String → Prop} {n n' : RaftNode} (h : Durable id votes n)
    (hnew : RaftNode.new id peers n.log.dataDir = some n') : Durable id votes n' := by
  obtain ⟨log, hlog, rfl⟩ := Option.map_eq_some_iff.mp hnew
  obtain ⟨hdir, hfile⟩ := RaftLog.new_stateJson hlog
  refine ⟨rfl, fun t c hv => ?_, fun t c hv => ?_, h.unique⟩
  · have hremembers := h.disk t c hv
    rcases hfile with habsent | hjson
    · -- No vote was ever on disk, so none was cast.
      rw [habsent] at hremembers
      exact hremembers.elim
    · rw [hjson] at hremembers
      exact hremembers
  · show StateFile.Remembers log.dataDir.stateJson t c
    rw [hdir]
    exact h.disk t c hv

/-- Memory and disk remember every vote of the node's life. -/
theorem Life.durable {id : String} {peers : HashMap String PeerInfo} (hid : id.utf8ByteSize ≤ 64)
    {n : RaftNode} {history : List Emission} (life : Life id peers n history) :
    Durable id (Voted id history) n := by
  induction life with
  | boot h =>
      obtain ⟨log, -, rfl⟩ := Option.map_eq_some_iff.mp h
      exact ⟨rfl, fun t c ⟨_, hem, _⟩ => absurd hem List.not_mem_nil,
        fun t c ⟨_, hem, _⟩ => absurd hem List.not_mem_nil,
        fun t c c' ⟨_, hem, _⟩ => absurd hem List.not_mem_nil⟩
  | @handle n history life ev ws hterm ih =>
      have hrec : Recorded id ev.cause (Voted id history) n [] :=
        ih.imp fun t c hv => hv.resolve_right fun ⟨_, ho, _⟩ => absurd ho List.not_mem_nil
      have hend := Prog.wp_run (recorded_handler hid ev hrec hterm) ws
      have hafter : Recorded id ev.cause (Voted id history) (ev.after ws n)
          ([] ++ (ev.handler.run ws n).out) := by
        split at hend <;> exact hend
      refine hafter.imp fun t c ⟨em, hem, hv⟩ => ?_
      rcases List.mem_append.mp hem with hem | hem
      · exact Or.inl ⟨em, hem, hv⟩
      · obtain ⟨o, ho, rfl⟩ := List.mem_map.mp hem
        exact Or.inr ⟨o, ho, hv⟩
  | restart life h ih => exact ih.restart h

/-- Over the whole life of a node its term is at least that of each vote it has cast, and no
term has votes for two candidates. -/
theorem votes_durable {id : String} {peers : HashMap String PeerInfo} (hid : id.utf8ByteSize ≤ 64)
    {n : RaftNode} {history : List Emission} (life : Life id peers n history) :
    (∀ term name, Voted id history term name → term ≤ n.log.currentTerm) ∧
      ∀ term name name', Voted id history term name → Voted id history term name' →
        name = name' := by
  have hdurable := life.durable hid
  exact ⟨fun t c hv => (hdurable.memory t c hv).1, hdurable.unique⟩

/-- The vote of "A" for "B" in term 1 is not written at the first try. It is at the second,
and "A" restarts, refuses "C" in term 1, and stands in term 2. -/
theorem votes_durable_restart :
    let peers := peerMap [("B", "b"), ("C", "c")]
    let asks (name : String) : Event := .receive ⟨.pushStr 64 name, .pushStr 64 "A",
      .requestVote ⟨1, .pushStr 64 name, 0, 0⟩⟩
    let n₀ := withLog "A" peers (.unloaded .empty)
    let n₁ := (asks "B").after [.ok, .errOld] n₀
    let n₂ := (asks "B").after [] n₁
    let n₃ := (RaftNode.new "A" peers n₂.log.dataDir).getD n₂
    let n₄ := (asks "C").after [] n₃
    let history := [] ++ (asks "B").emissions [.ok, .errOld] n₀ ++ (asks "B").emissions [] n₁ ++
      (asks "C").emissions [] n₃ ++ Event.electionTimeout.emissions [] n₄
    (Voted "A" history 1 "B" ∧ Voted "A" history 2 "A") ∧
      (∀ term name, Voted "A" history term name →
        term ≤ (Event.electionTimeout.after [] n₄).log.currentTerm) ∧
      ∀ term name name', Voted "A" history term name → Voted "A" history term name' →
        name = name' := by
  intro peers asks n₀ n₁ n₂ n₃ n₄ history
  have hload : RaftNode.new "A" peers n₂.log.dataDir = some n₃ := by
    have hsome : (RaftNode.new "A" peers n₂.log.dataDir).isSome = true := by decide +kernel
    obtain ⟨n, hn⟩ := Option.isSome_iff_exists.mp hsome
    simp only [n₃, hn, Option.getD_some]
  have life : Life "A" peers (Event.electionTimeout.after [] n₄) history :=
    (((((Life.boot (show RaftNode.new "A" peers .empty = some n₀ from rfl)).handle (asks "B") [.ok, .errOld] nofun).handle (asks "B") [] nofun).restart
      hload).handle (asks "C") [] nofun).handle .electionTimeout [] fun _ => by decide +kernel
  exact ⟨by decide +kernel, votes_durable (by decide) life⟩

end RaftEbpf
