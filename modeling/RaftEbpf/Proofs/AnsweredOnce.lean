import RaftEbpf.Interleaving
import RaftEbpf.Lib.Ledger
import RaftEbpf.Proofs.Concurrent
import RaftEbpf.Proofs.Pieces

/-!
# `RaftEbpf.Proofs.AnsweredOnce`: no client is answered twice

`propose` answers its client, or leaves the client's channel in `pending_requests`, and any task
that commits may take the channel out and answer. Two such tasks may run at a time, and an index
may come to be registered again after the log was cut.

* `answeredOnce`: in every interleaving of the operations of a node, where each proposal comes with
  a channel of its own, at most one answer goes to each channel. An answer of success names the
  index of the entry that was appended for this channel, and where the proposal was refused nothing
  was appended for it.

Each proposal brings two credits, one for an answer and one for its fate (refused or appended). The
credit for the answer moves into `pending_requests` with the channel, and the task that removes the
channel takes it out, under the mutex.
-/

set_option autoImplicit false

namespace RaftEbpf

open RaftEbpf.Lib
open RaftNode

namespace Output

/-- An answer on this channel. -/
def answers (tx : Sender) : Output → Bool
  | .reply tx' _ => decide (tx' = tx)
  | _ => false

/-- What `propose` decides for this channel: the proposal is refused, or its entry appended. -/
def decides (tx : Sender) : Output → Bool
  | .reply tx' (.notLeader _) => decide (tx' = tx)
  | .appended tx' _ => decide (tx' = tx)
  | _ => false

end Output

/-- What the client of this channel sees. -/
structure AnsweredOnce (out : List Output) (tx : Sender) : Prop where
  once : out.countP (Output.answers tx) ≤ 1
  success : ∀ i, .reply tx (.success i) ∈ out → ∃ e, .appended tx e ∈ out ∧ e.index = i
  refused : ∀ leaderId, .reply tx (.notLeader leaderId) ∈ out → ∀ e, .appended tx e ∉ out

/-! ### An answer names its entry -/

/-- Each answer of success names the index of an entry that was appended for its channel. -/
def SuccessNamed (out : List Output) : Prop :=
  ∀ tx i, .reply tx (.success i) ∈ out → ∃ e, .appended tx e ∈ out ∧ e.index = i

/-- Each channel waits at the index of an entry that was appended for it. -/
def WaitingNamed (w : World RaftNode Output) : Prop :=
  ∀ i tx, w.state.pendingRequests.lookup i = some tx → ∃ e, .appended tx e ∈ w.out ∧ e.index = i

/-- Around the mutex of the waiting clients: no task without it touches them. -/
def clientDiscipline : Discipline Lock RaftNode Output WriteResult Site where
  mutex := .pendingRequests
  inv := WaitingNamed
  guar held w w' := (held = false → w'.state.pendingRequests = w.state.pendingRequests) ∧
    (∀ o ∈ w.out, o ∈ w'.out) ∧ (SuccessNamed w.out → SuccessNamed w'.out)
  rely held w w' := (held = true → w'.state.pendingRequests = w.state.pendingRequests) ∧
    ∀ o ∈ w.out, o ∈ w'.out
  site _ _ _ := True
  answer _ := True
  rely_refl _ _ := ⟨fun _ => rfl, fun _ => id⟩
  rely_trans _ _ _ _ h h' := ⟨fun hheld => (h'.1 hheld).trans (h.1 hheld),
    fun o ho => h'.2 o (h.2 o ho)⟩
  guar_rely held other _ _ hexcl hguar := by
    refine ⟨fun hother => hguar.1 ?_, hguar.2.1⟩
    cases held with
    | false => rfl
    | true => exact absurd (hexcl rfl) (by rw [hother]; decide)
  inv_guar _ _ hguar hinv i tx h := by
    rw [hguar.1 rfl] at h
    obtain ⟨e, he, hi⟩ := hinv i tx h
    exact ⟨e, hguar.2.1 _ he, hi⟩

theorem WaitingNamed.rely {w w' : World RaftNode Output} (h : WaitingNamed w)
    (hrely : clientDiscipline.rely true w w') : WaitingNamed w' := by
  intro i tx hlookup
  rw [hrely.1 rfl] at hlookup
  obtain ⟨e, he, hi⟩ := h i tx hlookup
  exact ⟨e, hrely.2 _ he, hi⟩

/-- A new output leaves what was said named, and names what it says itself. -/
theorem SuccessNamed.emit {out : List Output} (h : SuccessNamed out) {o : Output}
    (ho : ∀ tx i, o = .reply tx (.success i) → ∃ e, .appended tx e ∈ out ∧ e.index = i) :
    SuccessNamed (out ++ [o]) := by
  intro tx i hmem
  have hnamed : ∃ e, .appended tx e ∈ out ∧ e.index = i := by
    rcases List.mem_append.mp hmem with hmem | hmem
    · exact h tx i hmem
    · exact ho tx i (List.mem_singleton.mp hmem).symm
  obtain ⟨e, he, hi⟩ := hnamed
  exact ⟨e, List.mem_append_left _ he, hi⟩

/-- The actions that leave the waiting clients alone and announce no success. -/
theorem clientGuar_write {held : Bool} {f : RaftNode → RaftNode} {w : World RaftNode Output}
    (hf : held = false → ∀ n, (f n).pendingRequests = n.pendingRequests) :
    clientDiscipline.guar held w (w.write f) :=
  ⟨fun hheld => hf hheld w.state, fun _ => id, id⟩

theorem clientGuar_emit {held : Bool} {o : Output} {w : World RaftNode Output}
    (ho : ∀ tx i, o = .reply tx (.success i) → ∃ e, .appended tx e ∈ w.out ∧ e.index = i) :
    clientDiscipline.guar held w (w.emit o) :=
  ⟨fun _ => rfl, fun _ => List.mem_append_left _, fun h => h.emit ho⟩

/-- A write that leaves the waiting clients as they are. -/
def KeepsClients (f : RaftNode → RaftNode) : Prop :=
  ∀ n, (f n).pendingRequests = n.pendingRequests

/-- An output on no channel. -/
def OffChannel : Output → Prop
  | .reply _ _ => False
  | .appended _ _ => False
  | _ => True

/-- The task neither takes the mutex of the waiting clients nor has to do with them. -/
abbrev Clientless {α : Type} (p : NodeProg α) : Prop :=
  p.Only (fun l _ => l ≠ .pendingRequests) KeepsClients OffChannel

theorem clientless_of_background {α : Type} {p : NodeProg α} (hp : InBackground p) :
    Clientless p := by
  refine hp.weaken (fun _ _ hl => hl.2) (fun f hf => hf.pendingRequests) fun o ho => ?_
  cases o with
  | send env => trivial
  | elected term => trivial
  | reply tx result => exact ho.elim
  | appended tx entry => exact ho.elim
  | applied index entry => exact ho.elim

theorem clientless_applyCommittedEntries : Clientless applyCommittedEntries := by
  have hloop : ∀ steps, Clientless (applyEntries steps) := by
    intro steps
    induction steps with
    | zero => trivial
    | succ steps ih =>
        rw [applyEntries, Clientless, only_modify_iff, only_get_iff]
        refine ⟨fun _ => rfl, fun n => ?_⟩
        split
        · exact ⟨fun _ => rfl, trivial, ih⟩
        · exact ih
  simp only [applyCommittedEntries, Clientless, only_withRead_iff, only_lock_iff, only_get_iff]
  exact ⟨by decide, fun k => ⟨by decide, by decide, by decide, fun n =>
    (hloop _).bind fun _ => trivial⟩⟩

theorem Clientless.tidy {α : Type} {p : NodeProg α} (hp : Clientless p) :
    p.Tidy clientDiscipline := by
  refine Prog.Only.tidy hp (fun _ _ => id) (fun f hf w => clientGuar_write fun _ => hf)
    fun o ho w => clientGuar_emit fun tx i heq => ?_
  subst heq
  exact ho.elim

section
variable {memo : List Output} {w : World RaftNode Output}

/-- With the mutex the loop answers those that wait. -/
theorem safe_notifyEach (indices : List Nat) (h : WaitingNamed w) :
    (notifyEach indices).Safe clientDiscipline true memo
      (fun _ held _ w' => held = true ∧ WaitingNamed w') w := by
  induction indices generalizing memo w with
  | nil => exact fun w' hw => ⟨rfl, h.rely hw⟩
  | cons idx rest ih =>
      rw [notifyEach]
      refine safe_get fun w₁ hw₁ => ?_
      have h₁ := h.rely hw₁
      split
      · rename_i tx htx
        obtain ⟨e, he, hi⟩ := h₁ idx tx htx
        refine safe_modify fun w₂ hw₂ => ⟨clientGuar_write fun h => Bool.noConfusion h, ?_⟩
        refine safe_emit fun w₃ hw₃ => ?_
        have h₂ : WaitingNamed (w₂.write fun n =>
            { n with pendingRequests := n.pendingRequests.erase idx }) := by
          intro i tx' hlookup
          have hne : i ≠ idx := by
            rintro rfl
            have hnone : (w₂.state.pendingRequests.erase i).lookup i = some tx' := hlookup
            rw [AList.lookup_erase] at hnone
            cases hnone
          refine h₁.rely hw₂ i tx' ?_
          rw [← AList.lookup_erase_ne hne]
          exact hlookup
        have he₃ : .appended tx e ∈ w₃.out := hw₃.2 _ (hw₂.2 _ he)
        refine ⟨clientGuar_emit fun tx' i heq => ?_, ih fun i tx' hlookup => ?_⟩
        · -- The answer is about the entry that this channel waited for.
          obtain ⟨rfl, hresult⟩ := Output.reply.inj heq
          obtain rfl := ProposeResult.success.inj hresult
          exact ⟨e, he₃, hi⟩
        · obtain ⟨e', he', hi'⟩ := h₂.rely hw₃ i tx' hlookup
          exact ⟨e', List.mem_append_left _ he', hi'⟩
      · exact ih h₁

end

/-- A proposal is registered at the index of the entry that its task appended. -/
theorem tidy_propose (command : Command) (tx : Sender) :
    (propose command tx).Tidy clientDiscipline := by
  have hquiet : ∀ {α : Type} {p : NodeProg α}, InBackground p → p.Tidy clientDiscipline :=
    fun hp => (clientless_of_background hp).tidy
  refine (hquiet (p := withRead .role _) ⟨by decide, fun _ => trivial⟩).bind fun role => ?_
  split
  · refine (hquiet (p := withRead .leaderId _) ⟨by decide, fun _ => trivial⟩).bind fun l => ?_
    exact fun memo w w₁ _ => ⟨clientGuar_emit nofun, fun _ _ => rfl⟩
  · refine (hquiet (p := lockAt .log .propose) ⟨by decide, trivial⟩).bind fun _ => ?_
    refine (hquiet (p := RaftNode.get) fun _ => trivial).bind fun n => ?_
    refine (hquiet (p := modify _) ⟨background_log fun log h => h.append _ command, trivial⟩).bind
      fun _ => ?_
    -- From here on the task has the entry among its outputs.
    intro memo w w₁ _
    refine ⟨clientGuar_emit nofun, fun w₂ _ => ?_⟩
    rw [if_neg (by decide)]
    intro w₃ _ _
    have hmutex : Lock.pendingRequests = clientDiscipline.mutex := rfl
    rw [if_pos hmutex]
    refine ⟨rfl, fun _ hinv w₄ hw₄ hmemo _ => ⟨?_, fun w₅ hw₅ => ?_⟩⟩
    · exact clientGuar_write fun h => Bool.noConfusion h
    have hentry : Output.appended tx
        ⟨(n.log.append n.log.currentTerm command).2, n.log.currentTerm, command⟩ ∈ w₄.out :=
      hmemo _ (List.mem_append_right _ List.mem_cons_self)
    have hnamed : WaitingNamed (w₄.write fun n' => { n' with
        pendingRequests := n'.pendingRequests.insert
          (n.log.append n.log.currentTerm command).2 tx }) := by
      intro i tx' hlookup
      have hlookup' : (w₄.state.pendingRequests.insert
        (n.log.append n.log.currentTerm command).2 tx).lookup i = some tx' := hlookup
      by_cases hi : i = (n.log.append n.log.currentTerm command).2
      · subst hi
        rw [AList.lookup_insert] at hlookup'
        obtain rfl := Option.some.inj hlookup'
        exact ⟨_, hentry, rfl⟩
      · rw [AList.lookup_insert_ne hi] at hlookup'
        exact hinv.rely hw₄ i tx' hlookup'
    rw [if_pos hmutex]
    exact ⟨fun _ => hnamed.rely hw₅, hquiet background_sendHeartbeats _ w₅⟩

theorem piecewise_tidy : Piecewise (Prog.Tidy clientDiscipline) where
  bind := Prog.Tidy.bind
  background := fun hp => (clientless_of_background hp).tidy
  applies := clientless_applyCommittedEntries.tidy
  notifies := fun upToIndex => by
    exact tidy_section (l := .pendingRequests)
      (p := fun n => notifyEach (n.pendingRequests.keys.filter fun idx => decide (idx ≤ upToIndex)))
      (f := fun _ a => pure a) rfl (fun w w' hw h => WaitingNamed.rely h hw)
      (fun memo w h => safe_notifyEach _ h) fun _ a => Prog.tidy_pure a
  reads := fun f => Clientless.tidy ⟨by decide, fun n => trivial⟩

theorem tidy_clientTask (op : Operation) : op.task.Tidy clientDiscipline :=
  piecewise_tidy.task fun command tx hop => by
    subst hop
    exact tidy_propose command tx

/-! ### The credits of a proposal -/

/-- What a proposal is given once for its channel. -/
inductive Credit where
  /-- To answer. -/
  | answer (tx : Sender)
  /-- To be refused, or to have its entry appended. -/
  | fate (tx : Sender)

/-- A waiting channel holds the credit for its answer. -/
def clientLedger : Ledger RaftNode Output Credit where
  stored
    | n, .answer tx => HashMap.countValues (fun tx' => decide (tx' = tx)) n.pendingRequests
    | _, .fate _ => 0
  spent
    | o, .answer tx => (o.answers tx).toNat
    | o, .fate tx => (o.decides tx).toNat

/-- One credit for an answer on this channel. -/
def answerPurse (tx : Sender) : Credit → Nat
  | .answer tx' => (decide (tx = tx')).toNat
  | .fate _ => 0

/-- What a proposal with this channel brings. -/
def proposalPurse (tx : Sender) : Credit → Nat
  | .answer tx' => (decide (tx = tx')).toNat
  | .fate tx' => (decide (tx = tx')).toNat

theorem Clientless.pays {α : Type} {p : NodeProg α} (hp : Clientless p) {purse : Credit → Nat}
    (w : World RaftNode Output) : p.Pays clientDiscipline clientLedger false purse
      (fun _ held purse' _ => held = false ∧ purse' = purse) w := by
  refine Prog.Only.pays hp (fun _ _ => id) (fun f hf n => funext fun t => ?_) fun o ho t => ?_
  · cases t with
    | answer tx => exact congrArg (HashMap.countValues fun tx' => decide (tx' = tx)) (hf n)
    | fate tx => rfl
  · cases o with
    | reply tx result => exact ho.elim
    | appended tx entry => exact ho.elim
    | send env => cases t <;> rfl
    | elected term => cases t <;> rfl
    | applied index entry => cases t <;> rfl

/-- Something without clients, and then the rest. -/
theorem Clientless.pays_bind {α β : Type} {p : NodeProg α} (hp : Clientless p)
    {f : α → NodeProg β} {purse : Credit → Nat}
    {Q : β → Bool → (Credit → Nat) → World RaftNode Output → Prop} {w : World RaftNode Output}
    (hf : ∀ a w', (f a).Pays clientDiscipline clientLedger false purse Q w') :
    (p >>= f).Pays clientDiscipline clientLedger false purse Q w := by
  refine Prog.Pays.bind ((hp.pays w).mono fun a held purse' w' hend => ?_)
  obtain ⟨rfl, rfl⟩ := hend
  exact hf a w'

/-- The node is read. -/
theorem pays_get {β : Type} {f : RaftNode → NodeProg β} {held : Bool} {purse : Credit → Nat}
    {Q : β → Bool → (Credit → Nat) → World RaftNode Output → Prop} {w : World RaftNode Output}
    (h : ∀ w', clientDiscipline.rely held w w' →
      (f w'.state).Pays clientDiscipline clientLedger held purse Q w') :
    (RaftNode.get >>= f).Pays clientDiscipline clientLedger held purse Q w := h

/-- With the mutex, a channel that is removed pays for its answer. -/
theorem pays_notifyEach (indices : List Nat) {w : World RaftNode Output} :
    (notifyEach indices).Pays clientDiscipline clientLedger true (fun _ => 0)
      (fun _ held purse _ => held = true ∧ purse = fun _ => 0) w := by
  induction indices generalizing w with
  | nil => exact fun _ _ => ⟨rfl, rfl⟩
  | cons idx rest ih =>
      rw [notifyEach]
      refine pays_get fun w₁ _ => ?_
      split
      · rename_i tx htx
        intro w₂ hw₂
        -- No other task has removed the channel meanwhile.
        have htx₂ : w₂.state.pendingRequests.lookup idx = some tx := by
          rw [hw₂.1 rfl]
          exact htx
        refine ⟨answerPurse tx, fun t => ?_, fun w₃ _ => ⟨fun _ => 0, fun t => ?_, ih⟩⟩
        · cases t with
          | answer tx' =>
              have hcount := HashMap.countValues_erase (fun tx₀ => decide (tx₀ = tx')) htx₂
              exact Nat.le_of_eq hcount
          | fate tx' => exact Nat.le_refl 0
        · cases t with
          | answer tx' => exact Nat.le_refl _
          | fate tx' => exact Nat.le_refl 0
      · exact ih

theorem frugal_notifyPendingRequests (upToIndex : Nat) :
    (notifyPendingRequests upToIndex).Frugal clientDiscipline clientLedger := by
  intro w w₁ _
  have hmutex : Lock.pendingRequests = clientDiscipline.mutex := rfl
  rw [if_pos hmutex]
  intro w₂ _
  refine Prog.Pays.bind (p := notifyEach _)
    ((pays_notifyEach _).mono fun _ held purse w₃ hend => ?_)
  obtain ⟨rfl, rfl⟩ := hend
  intro w₄ _
  rw [if_pos hmutex]
  exact fun _ _ => ⟨rfl, rfl⟩

theorem piecewise_frugal : Piecewise (Prog.Frugal clientDiscipline clientLedger) where
  bind := Prog.Frugal.bind
  background := fun hp w => (clientless_of_background hp).pays w
  applies := fun w => clientless_applyCommittedEntries.pays w
  notifies := frugal_notifyPendingRequests
  reads := fun f w => Clientless.pays (p := (do
    lock .stateMachine
    let n ← RaftNode.get
    unlock .stateMachine
    return f n)) ⟨by decide, fun n => trivial⟩ w

/-- A proposal pays for its refusal, or for its entry and for the registration of its channel. -/
theorem pays_propose (command : Command) (tx : Sender) (w : World RaftNode Output) :
    (propose command tx).Pays clientDiscipline clientLedger false (proposalPurse tx)
      (fun _ _ _ _ => True) w := by
  have hquiet : ∀ {α : Type} {p : NodeProg α}, InBackground p → Clientless p :=
    fun hp => clientless_of_background hp
  have hmutex : Lock.pendingRequests = clientDiscipline.mutex := rfl
  refine (hquiet (p := withRead .role _) ⟨by decide, fun _ => trivial⟩).pays_bind fun role w => ?_
  split
  · refine (hquiet (p := withRead .leaderId _) ⟨by decide, fun _ => trivial⟩).pays_bind
      fun leaderId w => ?_
    refine fun w₁ _ => ⟨fun _ => 0, fun t => ?_, fun _ _ => trivial⟩
    cases t with
    | answer tx' => exact Nat.le_refl _
    | fate tx' => exact Nat.le_refl _
  · refine (hquiet (p := lockAt .log .propose) ⟨by decide, trivial⟩).pays_bind fun _ w => ?_
    refine (hquiet (p := RaftNode.get) fun _ => trivial).pays_bind fun n w => ?_
    refine (hquiet (p := modify _)
      ⟨background_log fun log h => h.append _ command, trivial⟩).pays_bind fun _ w => ?_
    -- The entry is appended, and one credit is left.
    refine fun w₁ _ => ⟨answerPurse tx, fun t => ?_, fun w₂ _ => ?_⟩
    · cases t with
      | answer tx' => exact Nat.le_of_eq (Nat.zero_add _)
      | fate tx' => exact Nat.le_refl _
    · have hlog : Lock.log ≠ clientDiscipline.mutex := by decide
      rw [if_neg hlog]
      intro w₃ _
      rw [if_pos hmutex]
      -- It moves into the map with the channel.
      refine fun w₄ _ => ⟨fun _ => 0, fun t => ?_, fun w₅ _ => ?_⟩
      · cases t with
        | answer tx' =>
            exact HashMap.countValues_insert_le (fun tx₀ => decide (tx₀ = tx'))
              w₄.state.pendingRequests (n.log.append n.log.currentTerm command).2 tx
        | fate tx' => exact Nat.le_refl 0
      · rw [if_pos hmutex]
        exact ((hquiet background_sendHeartbeats).pays w₅).mono fun _ _ _ _ _ => trivial

/-- The credits that an operation brings. -/
def Operation.purse : Operation → Credit → Nat
  | .propose _ tx => proposalPurse tx
  | _ => fun _ => 0

/-- Every operation pays with what it brings. -/
theorem pays_task (op : Operation) (w : World RaftNode Output) :
    op.task.Pays clientDiscipline clientLedger false op.purse (fun _ _ _ _ => True) w := by
  by_cases hop : ∃ command tx, op = .propose command tx
  · obtain ⟨command, tx, rfl⟩ := hop
    exact pays_propose command tx w
  · have hpurse : op.purse = fun _ => 0 := by
      cases op with
      | propose command tx => exact absurd ⟨command, tx, rfl⟩ hop
      | _ => rfl
    have hfrugal : op.task.Frugal clientDiscipline clientLedger :=
      piecewise_frugal.task fun command tx h => absurd ⟨command, tx, h⟩ hop
    rw [hpurse]
    exact (hfrugal w).mono fun _ _ _ _ _ => trivial

/-! ### The runs -/

/-- The channel that an operation comes with. -/
def Turn.channel : Turn → List Sender
  | .start (.propose _ tx) => [tx]
  | _ => []

/-- The interleavings in which each proposal comes with a channel of its own. Beside each state
stand the channels so far. -/
abbrev Contention.ProposedRun (n : RaftNode) (tr : List (Contention × List Sender)) : Prop :=
  Lib.Run (withGhost Contention.step fun _ turn _ used => turn.channel ++ used)
    (Contention.idle n, []) (fun s turn => ∀ tx ∈ turn.channel, tx ∉ s.2) tr

/-- The credits of all proposals with these channels. -/
def supply (used : List Sender) : Credit → Nat
  | .answer tx => used.count tx
  | .fate tx => used.count tx

/-- What a turn brings is what its channel adds. -/
theorem supply_start (op : Operation) (used : List Sender) (t : Credit) :
    supply used t + op.purse t ≤ supply ((Turn.start op).channel ++ used) t := by
  cases op with
  | propose command tx =>
      have hcount : ∀ tx', used.count tx' + (decide (tx = tx')).toNat ≤ (tx :: used).count tx' := by
        intro tx'
        rw [List.count_cons]
        by_cases h : tx = tx'
        · subst h
          simp
        · simp [h]
      cases t with
      | answer tx' => exact hcount tx'
      | fate tx' => exact hcount tx'
  | _ => exact Nat.le_refl _

/-- What holds at every moment of such a run. -/
structure Accounted (s : Contention × List Sender) : Prop where
  safe : s.1.config.Safe clientDiscipline
  named : SuccessNamed s.1.config.out
  solvent : s.1.config.Solvent clientDiscipline clientLedger (supply s.2)
  fresh : s.2.Nodup

theorem Accounted.step {s s' : Contention × List Sender} {turn : Turn} (h : Accounted s)
    (hfresh : ∀ tx ∈ turn.channel, tx ∉ s.2)
    (hstep : withGhost Contention.step (fun _ turn _ used => turn.channel ++ used) s turn
      = some s') : Accounted s' := by
  obtain ⟨c', hc', rfl⟩ := Option.map_eq_some_iff.mp hstep
  have hnodup : (turn.channel ++ s.2).Nodup := by
    unfold Turn.channel at hfresh ⊢
    split
    · rename_i command tx
      exact List.nodup_cons.mpr ⟨hfresh tx List.mem_cons_self, h.fresh⟩
    · exact h.fresh
  have hmore : ∀ t, supply s.2 t ≤ supply (turn.channel ++ s.2) t := by
    intro t
    cases t with
    | answer tx => exact (List.sublist_append_right _ _).count_le tx
    | fate tx => exact (List.sublist_append_right _ _).count_le tx
  rcases Queued.config_step hc' with hsame | hconfig
  · refine ⟨?_, ?_, ?_, hnodup⟩
    · rw [hsame]
      exact h.safe
    · rw [hsame]
      exact h.named
    · rw [hsame]
      exact h.solvent.mono hmore
  · have hfinds : s.1.config.Finds clientDiscipline.site clientDiscipline.answer turn.sched :=
      Config.finds_of_forall (fun _ _ _ => trivial) (fun _ => trivial) _ _
    have hnew : ∀ p, turn.sched = .spawn p →
        ∀ w, p.Safe clientDiscipline false [] (fun _ _ _ _ => True) w := by
      intro p hp w
      cases turn with
      | start op =>
          obtain rfl := Sched.spawn.inj hp
          exact (tidy_clientTask op).safe w
      | advance i r => cases hp
    obtain ⟨hsafe, hworld⟩ := h.safe.step hfinds hnew hconfig
    refine ⟨hsafe, ?_, ?_, hnodup⟩
    · rcases hworld with hsame | ⟨held, hguar⟩
      · have hout : c'.config.out = s.1.config.out := congrArg World.out hsame
        show SuccessNamed c'.config.out
        rw [hout]
        exact h.named
      · exact hguar.2.2 h.named
    · show c'.config.Solvent _ _ (supply (turn.channel ++ s.2))
      cases turn with
      | start op =>
          rw [← Option.some.inj hconfig]
          exact h.solvent.spawn (pays_task op) (supply_start op s.2)
      | advance i r => exact (h.solvent.advance h.safe hfinds hconfig).mono hmore

/-- The outputs that cost one credit are counted. -/
theorem total_eq_countP {t : Credit} {p : Output → Bool}
    (hp : ∀ o, clientLedger.spent o t = (p o).toNat) (out : List Output) :
    clientLedger.total out t = out.countP p := by
  induction out with
  | nil => rfl
  | cons o out ih =>
      rw [Ledger.total, ih, hp o, List.countP_cons]
      cases p o with
      | false => exact Nat.zero_add _
      | true => exact Nat.add_comm _ _

/-- Where at most one output passes a test, two that pass it are the same. -/
theorem eq_of_countP_le_one {out : List Output} {p : Output → Bool} (h : out.countP p ≤ 1)
    {o o' : Output} (ho : o ∈ out) (hp : p o = true) (ho' : o' ∈ out) (hp' : p o' = true) :
    o = o' := by
  rw [List.countP_eq_length_filter] at h
  have hmem : o ∈ out.filter p := List.mem_filter.mpr ⟨ho, hp⟩
  have hmem' : o' ∈ out.filter p := List.mem_filter.mpr ⟨ho', hp'⟩
  obtain ⟨i, hi⟩ := List.mem_iff_getElem?.mp hmem
  obtain ⟨j, hj⟩ := List.mem_iff_getElem?.mp hmem'
  have hilt := (List.getElem?_eq_some_iff.mp hi).1
  have hjlt := (List.getElem?_eq_some_iff.mp hj).1
  obtain rfl : i = j := by omega
  exact Option.some.inj (hi.symm.trans hj)

theorem Accounted.channel {s : Contention × List Sender} (h : Accounted s) (tx : Sender) :
    AnsweredOnce s.1.config.out tx := by
  have hcount : s.2.count tx ≤ 1 := List.nodup_iff_count_le_one.mp h.fresh tx
  have hanswer : s.1.config.out.countP (Output.answers tx) ≤ 1 := by
    rw [← total_eq_countP (t := .answer tx) fun _ => rfl]
    exact Nat.le_trans (h.solvent.spent_le _) hcount
  have hfate : s.1.config.out.countP (Output.decides tx) ≤ 1 := by
    rw [← total_eq_countP (t := .fate tx) fun _ => rfl]
    exact Nat.le_trans (h.solvent.spent_le _) hcount
  refine ⟨hanswer, h.named tx, fun leaderId hrefused e happended => ?_⟩
  have heq := eq_of_countP_le_one hfate hrefused (decide_eq_true rfl) happended (decide_eq_true rfl)
  cases heq

/-- In every interleaving of the operations of a node, whatever its data directory holds and
whatever the disk answers, each channel gets one answer at most, and it fits what was appended. -/
theorem answeredOnce {nodeId : String} {peers : HashMap String PeerInfo} {dir : DataDir}
    {n : RaftNode} (hnew : RaftNode.new nodeId peers dir = some n)
    {tr : List (Contention × List Sender)} (h : Contention.ProposedRun n tr) :
    ∀ s ∈ tr, ∀ tx, AnsweredOnce s.1.config.out tx := by
  obtain ⟨log, -, rfl⟩ := Option.map_eq_some_iff.mp hnew
  have hinit : Accounted (Contention.idle (RaftNode.withLog nodeId peers log), []) := by
    refine ⟨Config.Safe.initial fun i tx hlookup => ?_, fun tx i hmem => ?_, ?_, List.nodup_nil⟩
    · cases hlookup
    · cases hmem
    · refine (Config.Solvent.initial fun t => ?_).mono fun t => Nat.zero_le _
      cases t with
      | answer tx => rfl
      | fate tx => rfl
  intro s hs
  have hacc : Accounted s := h.invariant hinit (fun _ _ _ hs hok hstep => hs.step hok hstep) s hs
  exact hacc.channel

/-- A vote of "B" for "A" in term 1. -/
def grantedVote : Operation :=
  .handleMessage (.new "B" "A" (.requestVoteResponse ⟨1, true, .pushStr 64 "B"⟩))

/-- A peer has the first entry of "A". -/
def acknowledging (peer : String) : Operation :=
  .handleMessage (.new peer "A" (.appendEntriesResponse ⟨1, true, 1, .pushStr 64 peer⟩))

/-- "A" leads and takes a proposal on channel 7. The handler of the first acknowledgement finds that
its entry may be committed, and before it commits the handler of the second one has done all. -/
def racingTurns : List Turn :=
  .start .startElection :: turns 0 19 ++ .start grantedVote :: turns 1 45 ++
    .start (.propose .noop 7) :: turns 2 27 ++ .start (acknowledging "B") :: turns 3 24 ++
    .start (acknowledging "C") :: turns 4 47 ++ turns 3 16

/-- Both handlers commit in this interleaving, and the client is answered once. -/
theorem answeredOnce_racing :
    let tr := Lib.trace (withGhost Contention.step fun _ turn _ used => turn.channel ++ used)
      (Contention.idle bootedNode, []) (fun s turn => ∀ tx ∈ turn.channel, tx ∉ s.2) racingTurns
    (tr.head?.map fun s => s.1.config.out.countP (Output.answers 7)) = some 1 ∧
      ∀ s ∈ tr, ∀ tx, AnsweredOnce s.1.config.out tx := by
  have hnew : RaftNode.new "A" (RaftNode.peerMap [("B", "b"), ("C", "c")]) .empty
      = some bootedNode := rfl
  exact ⟨by decide +kernel, answeredOnce hnew (Lib.run_trace (by decide +kernel))⟩

end RaftEbpf
