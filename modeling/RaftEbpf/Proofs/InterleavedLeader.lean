import RaftEbpf.Proofs.Concurrent

/-!
# `RaftEbpf.Proofs.InterleavedLeader`: when only the elected leader acts, under interleaving

A handler that wins an election drops the log mutex before `become_leader` stores the role.
`send_heartbeats` and `propose` check the role before they take the mutex and read the term.

* `not_rightful`: a winner moves to a newer term in between, and sends entries in that term.
* `rightful_of_leaderSound`: where the term has not moved when the role is stored, and the
  role has not moved when the mutex is taken, every request sent and every entry appended is
  of a term that the node was elected for.
-/

set_option autoImplicit false

namespace RaftEbpf

open RaftEbpf.Lib
open RaftNode

/-- Entries are sent and appended only in a term for which the past holds an election. -/
def Entitled (past : List Output) : Output → Prop
  | .send env =>
      match env.message with
      | .appendEntries req => .elected req.term ∈ past
      | _ => True
  | .appended _ entry => .elected entry.term ∈ past
  | _ => True

instance (past : List Output) (o : Output) : Decidable (Entitled past o) := by
  unfold Entitled
  exact match o with
    | .send ⟨_, _, message⟩ =>
        match message with
        | .appendEntries _ | .appendEntriesResponse _ | .requestVote _ | .requestVoteResponse _
        | .clientRequest _ | .clientResponse _ => inferInstance
    | .reply _ _ | .elected _ | .appended _ _ | .applied _ _ => inferInstance

/-- Each output is one that the outputs before it entitle the node to. -/
def Rightful (out : List Output) : Prop :=
  ∀ past o rest, out = past ++ o :: rest → Entitled past o

theorem Rightful.get {out : List Output} (h : Rightful out) {k : Nat} {o : Output}
    (hk : out[k]? = some o) : Entitled (out.take k) o := by
  obtain ⟨hlt, rfl⟩ := List.getElem?_eq_some_iff.mp hk
  refine h (out.take k) out[k] (out.drop (k + 1)) ?_
  rw [← List.drop_eq_getElem_cons hlt, List.take_append_drop]

/-- When a winner stores its role, the term is still the one it won. When `send_heartbeats`
and `propose` get the log mutex, the node is still Leader. -/
def leaderSite : Site → List Output → RaftNode → Prop
  | .becomeLeader, memo, n => .elected n.log.currentTerm ∈ memo
  | .sendHeartbeats, _, n => n.role = .leader
  | .propose, _, n => n.role = .leader
  | _, _, _ => True

instance (site : Site) (memo : List Output) (n : RaftNode) :
    Decidable (leaderSite site memo n) := by
  unfold leaderSite
  exact match site with
    | .plain | .stepDown _ | .startElection | .becomeLeader | .sendHeartbeats | .propose =>
        inferInstance

/-- The step bears `leaderSite` out, and no write of `state.json` fails. -/
def Tasks.LeaderSound (c : Tasks) (ch : Choice) : Prop :=
  Config.Finds leaderSite (· = .ok) c ch.sched

instance (c : Tasks) (ch : Choice) : Decidable (c.LeaderSound ch) :=
  inferInstanceAs (Decidable (Config.Finds _ _ _ _))

/-- The outputs grow by nothing or by one that the node is entitled to. -/
def Extends (out out' : List Output) : Prop :=
  out' = out ∨ ∃ o, out' = out ++ [o] ∧ Entitled out o

theorem Extends.rightful {out out' : List Output} (h : Extends out out') (hout : Rightful out) :
    Rightful out' := by
  rcases h with rfl | ⟨o, rfl, ho⟩
  · exact hout
  · intro past x rest heq
    rcases List.eq_nil_or_concat rest with rfl | ⟨rest, y, rfl⟩
    · obtain ⟨rfl, hxo⟩ := List.append_inj' heq rfl
      obtain rfl := List.singleton_inj.mp hxo
      exact ho
    · rw [List.concat_eq_append, ← List.cons_append, ← List.append_assoc] at heq
      exact hout past x rest (List.append_inj' heq rfl).1

theorem Extends.subset {out out' : List Output} (h : Extends out out') : ∀ o ∈ out, o ∈ out' := by
  rcases h with rfl | ⟨o, rfl, -⟩
  · exact fun _ => id
  · exact fun _ => List.mem_append_left _

/-- The term stays, and the node becomes Leader only where it was elected for that term. -/
def RoleKept (w w' : World RaftNode Output) : Prop :=
  w'.state.log.currentTerm = w.state.log.currentTerm ∧
    (w'.state.role = .leader →
      w.state.role = .leader ∨ .elected w'.state.log.currentTerm ∈ w'.out)

/-- Around the log mutex: outputs are entitled, a task without the mutex keeps term and role
in the sense of `RoleKept`, and a Leader found with the mutex free was elected. -/
def leaderDiscipline : Discipline Lock RaftNode Output WriteResult Site where
  mutex := .log
  inv w := w.state.role = .leader → .elected w.state.log.currentTerm ∈ w.out
  guar held w w' := Extends w.out w'.out ∧ (held = false → RoleKept w w')
  rely held w w' := (∀ o ∈ w.out, o ∈ w'.out) ∧ (held = true → RoleKept w w')
  site := leaderSite
  answer r := r = .ok
  rely_refl _ _ := ⟨fun _ => id, fun _ => ⟨rfl, Or.inl⟩⟩
  rely_trans held w₁ w₂ w₃ h h' := by
    refine ⟨fun o ho => h'.1 o (h.1 o ho), fun hheld => ?_⟩
    obtain ⟨hterm, hrole⟩ := h.2 hheld
    obtain ⟨hterm', hrole'⟩ := h'.2 hheld
    refine ⟨hterm'.trans hterm, fun hl => ?_⟩
    rcases hrole' hl with hl | hel
    · rcases hrole hl with hl | hel
      · exact Or.inl hl
      · exact Or.inr (hterm' ▸ h'.1 _ hel)
    · exact Or.inr hel
  guar_rely held other w w' hexcl h := by
    refine ⟨h.1.subset, fun hother => h.2 ?_⟩
    cases held with
    | false => rfl
    | true => exact absurd (hexcl rfl) (by rw [hother]; decide)
  inv_guar w w' h hinv hl := by
    obtain ⟨hterm, hrole⟩ := h.2 rfl
    rcases hrole hl with hl | hel
    · exact hterm ▸ h.1.subset _ (hinv hl)
    · exact hel

/-- A write that keeps role and term. -/
structure KeepsRole (f : RaftNode → RaftNode) : Prop where
  role : ∀ n, (f n).role = n.role
  currentTerm : ∀ n, (f n).log.currentTerm = n.log.currentTerm

/-- An output that needs no election. -/
def Plain (o : Output) : Prop := ∀ past, Entitled past o

theorem keepsRole_of_only {α : Type} {p : NodeProg α} (h : p.Only LogExclusive Steady Inert) :
    p.Only LogExclusive KeepsRole Plain := by
  refine h.mono (fun f hf => ⟨hf.role, fun n => congrArg (·.currentTerm) (hf.persistentState n)⟩)
    fun o ho past => ?_
  cases o with
  | send env =>
      simp only [Inert, Entitled] at ho ⊢
      split at ho <;> simp_all
  | appended tx entry => exact ho.elim
  | _ => trivial

section Handlers
variable {held : Bool} {memo : List Output} {w w' : World RaftNode Output}

/-- While a task has the mutex the invariant outlasts what the others do. -/
theorem leaderInv_rely (h : leaderDiscipline.rely true w w') (hinv : leaderDiscipline.inv w) :
    leaderDiscipline.inv w' := by
  intro hl
  obtain ⟨hterm, hrole⟩ := h.2 rfl
  rcases hrole hl with hl | hel
  · exact hterm ▸ h.1 _ (hinv hl)
  · exact hel

theorem leaderGuar_write {f : RaftNode → RaftNode} (hf : KeepsRole f) :
    leaderDiscipline.guar held w (w.write f) :=
  ⟨Or.inl rfl, fun _ => ⟨hf.currentTerm _, fun hl => Or.inl (hf.role _ ▸ hl)⟩⟩

theorem leaderInv_write {f : RaftNode → RaftNode} (hf : KeepsRole f)
    (hinv : leaderDiscipline.inv w) : leaderDiscipline.inv (w.write f) := by
  intro hl
  show Output.elected (f w.state).log.currentTerm ∈ w.out
  rw [hf.currentTerm]
  exact hinv (hf.role _ ▸ hl)

theorem leaderGuar_emit {o : Output} (ho : Entitled w.out o) :
    leaderDiscipline.guar held w (w.emit o) :=
  ⟨Or.inr ⟨o, rfl, ho⟩, fun _ => ⟨rfl, Or.inl⟩⟩

theorem leaderInv_emit (o : Output) (hinv : leaderDiscipline.inv w) :
    leaderDiscipline.inv (w.emit o) :=
  fun hl => List.mem_append_left _ (hinv hl)

theorem leaderSafe_of_only {p : NodeProg Unit} (h : p.Only LogExclusive KeepsRole Plain)
    (hinv : held = true → leaderDiscipline.inv w) :
    p.Safe leaderDiscipline held memo (fun _ _ _ _ => True) w :=
  (h.safe (D := leaderDiscipline) (fun _ hex => hex rfl)
    (fun _ hf _ _ => ⟨leaderGuar_write hf, leaderInv_write hf⟩)
    (fun o ho _ w => ⟨leaderGuar_emit (ho w.out), leaderInv_emit o⟩)
    (fun _ _ => leaderInv_rely) hinv).mono fun _ _ _ _ _ => trivial

/-- What a Leader knows under the mutex: its term, and that it was elected for it. -/
def ElectedIn (term : Nat) (w : World RaftNode Output) : Prop :=
  w.state.log.currentTerm = term ∧ .elected term ∈ w.out

theorem ElectedIn.rely {term : Nat} (hP : ElectedIn term w) (h : leaderDiscipline.rely true w w') :
    ElectedIn term w' :=
  ⟨(h.2 rfl).1.trans hP.1, h.1 _ hP.2⟩

theorem ElectedIn.emit {term : Nat} (hP : ElectedIn term w) (o : Output) :
    ElectedIn term (w.emit o) := ⟨hP.1, List.mem_append_left _ hP.2⟩

theorem ElectedIn.inv {term : Nat} (hP : ElectedIn term w) : leaderDiscipline.inv w :=
  fun _ => hP.1 ▸ hP.2

/-- A Leader that finds the mutex free was elected for its term. -/
theorem ElectedIn.of_leader (hrole : w.state.role = .leader) (hinv : leaderDiscipline.inv w) :
    ElectedIn w.state.log.currentTerm w := ⟨rfl, hinv hrole⟩

theorem leaderSafe_sendHeartbeats :
    sendHeartbeats.Safe leaderDiscipline false memo (fun _ _ _ _ => True) w := by
  refine safe_withRead rfl (by decide) fun w₁ _ => ?_
  split
  · exact leaderSafe_of_only (Prog.only_pure ()) fun hheld => absurd hheld Bool.false_ne_true
  · refine safe_lockLog rfl fun w₂ _ hrole hinv => safe_get fun w₃ hw₃ => ?_
    have hP₃ : ElectedIn w₃.state.log.currentTerm w₃ := by
      have hP := (ElectedIn.of_leader hrole hinv).rely hw₃
      exact hP.1.symm ▸ hP
    refine safe_withRead rfl (by decide) fun w₄ hw₄ => safe_readLock rfl (by decide) <|
      safe_readLock rfl (by decide) <| safe_get fun w₅ hw₅ => ?_
    refine safe_sendAll (ElectedIn w₃.state.log.currentTerm) ((hP₃.rely hw₄).rely hw₅)
      (fun w w' hw hP => hP.rely hw) (fun env henv w hP => ?_) fun w' memo' hP => ?_
    · obtain ⟨peerId, -, rfl⟩ := List.mem_map.mp henv
      have hentitled : Entitled w.out (.send (.new w₅.state.nodeId peerId (.appendEntries
          (heartbeatRequest w₅.state w₃.state.log.currentTerm w₄.state.commitIndex peerId)))) :=
        hP.2
      exact ⟨leaderGuar_emit hentitled, hP.emit _⟩
    · refine leaderSafe_of_only ?_ fun _ => hP.inv
      simp

theorem leaderSafe_propose (command : Command) (responseTx : Sender) :
    (propose command responseTx).Safe leaderDiscipline false memo (fun _ _ _ _ => True) w := by
  refine safe_withRead rfl (by decide) fun w₁ _ => ?_
  split
  · refine leaderSafe_of_only ?_ fun hheld => absurd hheld Bool.false_ne_true
    simp only [only_withRead_bind, only_emit, ne_eq, reduceCtorEq, not_false_eq_true]
    exact fun _ _ => trivial
  · refine safe_lockLog rfl fun w₂ _ hrole hinv => safe_get fun w₃ hw₃ => ?_
    have hP₃ : ElectedIn w₃.state.log.currentTerm w₃ := by
      have hP := (ElectedIn.of_leader hrole hinv).rely hw₃
      exact hP.1.symm ▸ hP
    refine safe_modify fun w₄ hw₄ => ?_
    have hP₄ := hP₃.rely hw₄
    have hP₄' : ElectedIn w₃.state.log.currentTerm (w₄.write fun n =>
        { n with log := (n.log.append w₃.state.log.currentTerm command).1 }) := hP₄
    refine ⟨leaderGuar_write ⟨fun _ => rfl, fun _ => rfl⟩, safe_emit fun w₅ hw₅ => ?_⟩
    have hP₅ := hP₄'.rely hw₅
    have hentitled : Entitled w₅.out (.appended responseTx
        ⟨(w₃.state.log.append w₃.state.log.currentTerm command).2, w₃.state.log.currentTerm,
          command⟩) := hP₅.2
    refine ⟨leaderGuar_emit hentitled, safe_unlockLog rfl fun w₆ hw₆ => ⟨fun _ => ?_, ?_⟩⟩
    · exact ((hP₅.emit _).rely hw₆).inv
    · exact safe_withWriteAt rfl (by decide) fun w₇ _ _ _ =>
        ⟨leaderGuar_write ⟨fun _ => rfl, fun _ => rfl⟩, leaderSafe_sendHeartbeats⟩

/-- The role is stored in the term that was won. -/
theorem leaderSafe_becomeLeader :
    becomeLeader.Safe leaderDiscipline false memo (fun _ _ _ _ => True) w := by
  refine safe_withWriteAt rfl (by decide) fun w₁ _ hmemo hsite =>
    ⟨⟨Or.inl rfl, fun _ => ⟨rfl, fun _ => Or.inr (hmemo _ hsite)⟩⟩, ?_⟩
  refine safe_withWriteAt rfl (by decide) fun w₂ _ _ _ =>
    ⟨leaderGuar_write ⟨fun _ => rfl, fun _ => rfl⟩, ?_⟩
  refine safe_lockLog rfl fun w₃ _ _ hinv => safe_get fun w₄ hw₄ => ?_
  refine safe_unlockLog rfl fun w₅ hw₅ =>
    ⟨fun _ => leaderInv_rely hw₅ (leaderInv_rely hw₄ hinv), ?_⟩
  refine safe_readLock rfl (by decide) <| safe_lock rfl (by decide) <| safe_lock rfl (by decide) <|
    safe_modify fun w₆ _ => ⟨leaderGuar_write ⟨fun _ => rfl, fun _ => rfl⟩, ?_⟩
  exact safe_unlock rfl (by decide) <| safe_unlock rfl (by decide) <|
    safe_unlock rfl (by decide) leaderSafe_sendHeartbeats

/-- Under the mutex a term may be stored. The invariant is open until the role follows. -/
theorem leaderSafe_setCurrentTerm {term : Nat} {f : Unit → NodeProg Unit}
    (h : ∀ w', (f ()).Safe leaderDiscipline true memo (fun _ _ _ _ => True) w') :
    (setCurrentTerm term >>= f).Safe leaderDiscipline true memo (fun _ _ _ _ => True) w :=
  safe_checked fun _ hr _ _ => ⟨⟨Or.inl rfl, nofun⟩, fun _ => h _, fun hne => absurd hr hne⟩

/-- Under the mutex a node that is not Leader restores the invariant. -/
theorem leaderSafe_setRole {role : NodeRole} (hrole : role ≠ .leader) {f : Unit → NodeProg Unit}
    (h : ∀ w', leaderDiscipline.inv w' →
      (f ()).Safe leaderDiscipline true memo (fun _ _ _ _ => True) w') :
    (setRole role >>= f).Safe leaderDiscipline true memo (fun _ _ _ _ => True) w :=
  safe_withWriteAt rfl (by decide) fun _ _ _ _ =>
    ⟨⟨Or.inl rfl, nofun⟩, h _ fun hl => absurd hl hrole⟩

theorem keepsRole_setVotedFor (name : String) :
    (setVotedFor name).Only LogExclusive KeepsRole Plain := by
  intro r
  refine ⟨⟨fun _ => rfl, fun n => ?_⟩, ?_⟩
  · show (RaftLog.setVotedFor _ _ _).persistentState.currentTerm = _
    rw [persistentState_setVotedFor]
    rfl
  · cases r <;> trivial

theorem leaderSafe_stepDown (term : Nat) (hinv : leaderDiscipline.inv w) :
    (stepDown term).Safe leaderDiscipline true memo (fun _ _ _ _ => True) w :=
  safe_unlockLog rfl fun w₁ hw₁ => ⟨fun _ => leaderInv_rely hw₁ hinv,
    safe_lockLog rfl fun w₂ _ _ _ => leaderSafe_setCurrentTerm fun w₃ =>
      leaderSafe_setRole (by decide) fun w₄ hinv₄ =>
        leaderSafe_of_only (only_unlock _) fun _ => hinv₄⟩

/-- What needs no election goes on under the mutex with the invariant. -/
theorem leaderSafe_modify {f : RaftNode → RaftNode} (hf : KeepsRole f) {p : Unit → NodeProg Unit}
    (hinv : leaderDiscipline.inv w) (h : ∀ w', leaderDiscipline.inv w' →
      (p ()).Safe leaderDiscipline true memo (fun _ _ _ _ => True) w') :
    (modify f >>= p).Safe leaderDiscipline true memo (fun _ _ _ _ => True) w :=
  safe_modify fun _ hw =>
    ⟨leaderGuar_write hf, h _ (leaderInv_write hf (leaderInv_rely hw hinv))⟩

/-- The end of a won election: the ghost, and what follows it with the invariant. -/
theorem leaderSafe_win (term : Nat) {p : Unit → NodeProg Unit} (hinv : leaderDiscipline.inv w)
    (h : ∀ w' memo', leaderDiscipline.inv w' →
      (p ()).Safe leaderDiscipline true memo' (fun _ _ _ _ => True) w') :
    ((.emit (.elected term) (.done ()) : NodeProg Unit) >>= p).Safe leaderDiscipline true memo
      (fun _ _ _ _ => True) w := by
  refine safe_emit fun w₁ hw₁ => ⟨leaderGuar_emit ?_, h _ _ ?_⟩
  · trivial
  · exact leaderInv_emit _ (leaderInv_rely hw₁ hinv)

/-- A campaign restores the invariant before it sends. -/
theorem leaderSafe_campaign (newTerm : Nat) :
    (campaign newTerm).Safe leaderDiscipline true memo (fun _ _ _ _ => True) w := by
  refine leaderSafe_setRole (by decide) fun w₁ hinv₁ => ?_
  refine safe_withWriteAt rfl (by decide) fun w₂ hw₂ _ _ =>
    ⟨leaderGuar_write ⟨fun _ => rfl, fun _ => rfl⟩, ?_⟩
  have hinv₂ := leaderInv_write (f := fun n => { n with votesReceived := [n.nodeId] })
    ⟨fun _ => rfl, fun _ => rfl⟩ (leaderInv_rely hw₂ hinv₁)
  refine safe_get fun w₃ hw₃ => safe_readLock rfl (by decide) <| safe_get fun w₄ hw₄ => ?_
  have hinv₄ := leaderInv_rely hw₄ (leaderInv_rely hw₃ hinv₂)
  refine safe_sendAll leaderDiscipline.inv hinv₄ (fun _ _ => leaderInv_rely)
    (fun env henv w hinv => ⟨leaderGuar_emit ?_, leaderInv_emit _ hinv⟩) fun w₅ memo₅ hinv₅ => ?_
  · obtain ⟨peerId, -, rfl⟩ := List.mem_map.mp henv
    trivial
  · split
    · exact leaderSafe_win newTerm hinv₅ fun w₆ memo₆ hinv₆ => safe_unlock rfl (by decide) <|
        safe_unlockLog rfl fun w₇ hw₇ =>
          ⟨fun _ => leaderInv_rely hw₇ hinv₆, leaderSafe_becomeLeader⟩
    · refine leaderSafe_of_only ?_ fun _ => hinv₅
      simp

theorem leaderSafe_countVote (sender : String) (hinv : leaderDiscipline.inv w) :
    (countVote sender).Safe leaderDiscipline true memo (fun _ _ _ _ => True) w := by
  refine safe_lock rfl (by decide) <| leaderSafe_modify ⟨fun n => ?_, fun n => ?_⟩ hinv
    fun w₁ hinv₁ => safe_readLock rfl (by decide) <| safe_get fun w₂ hw₂ => ?_
  · split <;> rfl
  · split <;> rfl
  · have hinv₂ := leaderInv_rely hw₂ hinv₁
    split
    · refine leaderSafe_win _ hinv₂ fun w₃ memo₃ hinv₃ => safe_unlock rfl (by decide) <|
        safe_unlock rfl (by decide) <| safe_unlockLog rfl fun w₄ hw₄ =>
          ⟨fun _ => leaderInv_rely hw₄ hinv₃, leaderSafe_becomeLeader⟩
    · refine leaderSafe_of_only ?_ fun _ => hinv₂
      simp

theorem leaderSafe_startElection :
    startElection.Safe leaderDiscipline false memo (fun _ _ _ _ => True) w := by
  rw [startElection_eq]
  refine safe_lockLog rfl fun w₁ _ _ _ => safe_get fun w₂ _ =>
    leaderSafe_setCurrentTerm fun w₃ => safe_checked fun r hr w₄ _ => ?_
  have hkeeps := (keepsRole_setVotedFor w₂.state.nodeId r).1
  exact ⟨leaderGuar_write hkeeps, fun _ => leaderSafe_campaign _, fun hne => absurd hr hne⟩

theorem keepsRole_castVote (sender : String) (req : RequestVoteRequest) :
    (castVote sender req).Only LogExclusive KeepsRole Plain := by
  simp only [castVote, only_get_bind]
  intro n
  refine .ite (fun _ => ?_) fun _ => ?_
  · refine (keepsRole_setVotedFor _).bind fun _ => ?_
    simp only [only_get_bind, sendRequestVoteResponse]
    intro n₁
    refine Prog.Only.bind (fun n₂ => only_sendAll fun env henv past => ?_) fun _ => only_unlock _
    obtain rfl := List.mem_singleton.mp henv
    trivial
  · exact keepsRole_of_only ((only_sendRequestVoteResponse _ _).bind fun _ => only_unlock _)

theorem leaderSafe_handleAppendEntries (sender : String) (req : AppendEntriesRequest) :
    (handleAppendEntries sender req).Safe leaderDiscipline false memo (fun _ _ _ _ => True) w := by
  have htail := fun term => keepsRole_of_only (only_afterTermCheck sender req term)
  rw [handleAppendEntries_eq]
  refine safe_lockLog rfl fun w₁ _ _ hinv₁ => safe_get fun w₂ hw₂ => ?_
  have hinv₂ := leaderInv_rely hw₂ hinv₁
  split
  · exact leaderSafe_of_only (keepsRole_of_only
      ((only_sendAppendEntriesResponse _ _ _).bind fun _ => only_unlock _)) fun _ => hinv₂
  · split
    · exact leaderSafe_setCurrentTerm fun w₃ => leaderSafe_setRole (by decide) fun w₄ hinv₄ =>
        leaderSafe_of_only (htail _) fun _ => hinv₄
    · exact leaderSafe_of_only (htail _) fun _ => hinv₂

theorem leaderSafe_handleAppendEntriesResponse (sender : String)
    (resp : AppendEntriesResponse) : (handleAppendEntriesResponse sender resp).Safe
      leaderDiscipline false memo (fun _ _ _ _ => True) w := by
  rw [handleAppendEntriesResponse_eq]
  refine safe_lockLog rfl fun w₁ _ _ hinv₁ => safe_withRead rfl (by decide) fun w₂ hw₂ => ?_
  have hinv₂ := leaderInv_rely hw₂ hinv₁
  split
  · exact leaderSafe_of_only (only_unlock _) fun _ => hinv₂
  · refine safe_get fun w₃ hw₃ => ?_
    have hinv₃ := leaderInv_rely hw₃ hinv₂
    split
    · exact leaderSafe_stepDown _ hinv₃
    · exact leaderSafe_of_only (keepsRole_of_only (only_recordAnswer _ _)) fun _ => hinv₃

theorem leaderSafe_handleRequestVote (sender : String) (req : RequestVoteRequest) :
    (handleRequestVote sender req).Safe leaderDiscipline false memo (fun _ _ _ _ => True) w := by
  rw [handleRequestVote_eq]
  refine safe_lockLog rfl fun w₁ _ _ hinv₁ => safe_get fun w₂ hw₂ => ?_
  have hinv₂ := leaderInv_rely hw₂ hinv₁
  split
  · exact leaderSafe_of_only (keepsRole_of_only
      ((only_sendRequestVoteResponse _ _).bind fun _ => only_unlock _)) fun _ => hinv₂
  · split
    · exact leaderSafe_setCurrentTerm fun w₃ => leaderSafe_setRole (by decide) fun w₄ hinv₄ =>
        leaderSafe_of_only (keepsRole_castVote _ _) fun _ => hinv₄
    · exact leaderSafe_of_only (keepsRole_castVote _ _) fun _ => hinv₂

theorem leaderSafe_handleRequestVoteResponse (sender : String) (resp : RequestVoteResponse) :
    (handleRequestVoteResponse sender resp).Safe leaderDiscipline false memo
      (fun _ _ _ _ => True) w := by
  rw [handleRequestVoteResponse_eq]
  refine safe_lockLog rfl fun w₁ _ _ hinv₁ => safe_withRead rfl (by decide) fun w₂ hw₂ => ?_
  have hinv₂ := leaderInv_rely hw₂ hinv₁
  split
  · exact leaderSafe_of_only (only_unlock _) fun _ => hinv₂
  · refine safe_get fun w₃ hw₃ => ?_
    have hinv₃ := leaderInv_rely hw₃ hinv₂
    split
    · exact leaderSafe_stepDown _ hinv₃
    · split
      · exact leaderSafe_countVote sender hinv₃
      · exact leaderSafe_of_only (only_unlock _) fun _ => hinv₃

/-- Every handler is safe, whatever the others do. -/
theorem leaderSafe_handler (ev : Event) :
    ev.handler.Safe leaderDiscipline false memo (fun _ _ _ _ => True) w := by
  cases ev with
  | electionTimeout => exact leaderSafe_startElection
  | heartbeatTimeout => exact leaderSafe_sendHeartbeats
  | propose command responseTx => exact leaderSafe_propose _ _
  | receive envelope =>
      obtain ⟨sender, recipient, message⟩ := envelope
      cases message with
      | appendEntries req => exact leaderSafe_handleAppendEntries _ req
      | appendEntriesResponse resp => exact leaderSafe_handleAppendEntriesResponse _ resp
      | requestVote req => exact leaderSafe_handleRequestVote _ req
      | requestVoteResponse resp => exact leaderSafe_handleRequestVoteResponse _ resp
      | clientRequest req => exact leaderSafe_of_only (Prog.only_pure ()) nofun
      | clientResponse resp => exact leaderSafe_of_only (Prog.only_pure ()) nofun

end Handlers

/-- One step of the node keeps its tasks safe, and what it outputs is entitled. -/
theorem leaderSafe_step {c c' : Tasks} {ch : Choice}
    (h : Config.Safe leaderDiscipline c ∧ Rightful c.out) (hok : c.LeaderSound ch)
    (hstep : c.step ch = some c') : Config.Safe leaderDiscipline c' ∧ Rightful c'.out := by
  obtain ⟨hsafe, hworld⟩ := h.1.step hok (fun p hp w => by
    cases ch with
    | start ev =>
        obtain rfl := Sched.spawn.inj hp
        exact leaderSafe_handler ev
    | advance i r => cases hp) hstep
  refine ⟨hsafe, ?_⟩
  rcases hworld with heq | ⟨held, hguar⟩
  · have hout : c'.out = c.out := congrArg World.out heq
    rw [hout]
    exact h.2
  · exact hguar.1.rightful h.2

/-- In every interleaving of a node from its start whose steps are `LeaderSound`, entries
are sent and appended only in terms for which the node was elected before. -/
theorem rightful_of_leaderSound {id : String} {peers : HashMap String PeerInfo} {dir : DataDir}
    {n : RaftNode} (hboot : RaftNode.new id peers dir = some n) {tr : List Tasks}
    (hrun : Tasks.Run n Tasks.LeaderSound tr) : ∀ c ∈ tr, Rightful c.out := by
  have hinv := hrun.invariant (I := fun c => Config.Safe leaderDiscipline c ∧ Rightful c.out) (by
    obtain ⟨log, -, rfl⟩ := Option.map_eq_some_iff.mp hboot
    exact ⟨Config.Safe.initial nofun, fun past o rest heq => absurd heq (by simp [Tasks.idle])⟩)
    fun _ _ _ => leaderSafe_step
  exact fun c hc => (hinv c hc).2

/-- "A" stands for election in term 1, and the grant of "B" takes it over the threshold. The
rest of the schedule starts where the winner has dropped the log mutex. -/
def wonElection : List Choice :=
  .start .electionTimeout :: advances 0 19 ++
    .start (.receive (.new "B" "A" (.requestVoteResponse ⟨1, true, .pushStr 64 "B"⟩))) ::
    advances 1 13

/-- "A" leads, proposes, and sends the new entry. -/
theorem rightful_of_leaderSound_propose :
    Rightful (Tasks.final bootedNode Tasks.LeaderSound
      (wonElection ++ advances 1 32 ++ .start (.propose .noop 0) :: advances 2 27)).out :=
  rightful_of_leaderSound (show RaftNode.new "A" bootedNode.peers .empty = some bootedNode from rfl)
    (run_final (by decide +kernel)) _ List.mem_cons_self

/-- Before "A" stores its role, "C" takes it to term 5. -/
def lateRole : List Choice :=
  wonElection ++ .start (.receive (.new "C" "A" (.requestVote ⟨5, .pushStr 64 "C", 0, 0⟩))) ::
    advances 2 14 ++ advances 1 28

/-- "A" can lead term 5, which it was not elected for, and send entries in it. -/
theorem not_rightful : ¬ ∀ (id : String) (peers : HashMap String PeerInfo) (dir : DataDir)
    (n : RaftNode) (tr : List Tasks), RaftNode.new id peers dir = some n →
    Tasks.Run n (fun _ ch => ch.WriteSucceeds) tr → ∀ c ∈ tr, Rightful c.out := by
  intro h
  have hrun : Tasks.Run bootedNode (fun _ ch => ch.WriteSucceeds)
      (Tasks.final bootedNode (fun _ ch => ch.WriteSucceeds) lateRole ::
        (Tasks.trace bootedNode (fun _ ch => ch.WriteSucceeds) lateRole).tail) :=
    run_final (by decide +kernel)
  have hright := h "A" bootedNode.peers .empty bootedNode _ rfl hrun _ List.mem_cons_self
  have hentitled : ∀ k ∈ List.range 7, ∀ o ∈ (Tasks.final bootedNode
      (fun _ ch => ch.WriteSucceeds) lateRole).out[k]?, Entitled ((Tasks.final bootedNode
        (fun _ ch => ch.WriteSucceeds) lateRole).out.take k) o :=
    fun _ _ _ ho => hright.get ho
  exact absurd hentitled (by decide +kernel)

end RaftEbpf
