import RaftEbpf.Interleaving
import RaftEbpf.Proofs.Concurrent
import RaftEbpf.Proofs.Pieces
import RaftEbpf.Proofs.ReplicaData

/-!
# `RaftEbpf.Proofs.AppliedOnce`: concurrent handlers apply each entry once

Several handlers of one node may be in `apply_committed_entries` at a time, and each of them reads
`commit_index` before it takes any of the three locks behind which the loop runs. The commit index
may be an old one by then, and the log a shorter one.

* `appliedOnce`: in every interleaving of the operations of a node, over whatever its data
  directory holds and with any answers of the disk, the entries that are passed to
  `StateMachine::apply` have ascending indices. Whenever the mutex of the state machine is free,
  the data is what these entries make of no data, so that this is what a query finds.

The invariant is about the mutex of the state machine: a task has it for the whole loop, and no
task writes `last_applied` without it. The loop leaves out an index at which the log has no entry,
so the indices may have gaps here.
-/

set_option autoImplicit false

namespace RaftEbpf

open RaftEbpf.Lib
open RaftNode

/-- The entries were applied in the order of their indices, none of them twice. -/
def Ascending (out : List Output) : Prop := (appliedIn out).Pairwise (·.index < ·.index)

instance (out : List Output) : Decidable (Ascending out) :=
  inferInstanceAs (Decidable (List.Pairwise _ _))

/-- What holds while no task has the mutex of the state machine. -/
structure Replayed (w : World RaftNode Output) : Prop where
  keyed : w.state.log.Keyed
  below : ∀ e ∈ appliedIn w.out, e.index ≤ w.state.lastApplied
  counter : w.state.stateMachine.lastApplied ≤ w.state.lastApplied
  data : w.state.stateMachine.data = replay (appliedIn w.out)

/-- The state machine, its index and the applied entries are the same. -/
structure SameApplied (w w' : World RaftNode Output) : Prop where
  lastApplied : w'.state.lastApplied = w.state.lastApplied
  stateMachine : w'.state.stateMachine = w.state.stateMachine
  applied : appliedIn w'.out = appliedIn w.out

theorem SameApplied.trans {w₁ w₂ w₃ : World RaftNode Output} (h : SameApplied w₁ w₂)
    (h' : SameApplied w₂ w₃) : SameApplied w₁ w₃ :=
  ⟨h'.lastApplied.trans h.lastApplied, h'.stateMachine.trans h.stateMachine,
    h'.applied.trans h.applied⟩

theorem Replayed.same {w w' : World RaftNode Output} (h : Replayed w) (hsame : SameApplied w w')
    (hkeyed : w.state.log.Keyed → w'.state.log.Keyed) : Replayed w' where
  keyed := hkeyed h.keyed
  below := by
    rw [hsame.applied, hsame.lastApplied]
    exact h.below
  counter := by
    rw [hsame.stateMachine, hsame.lastApplied]
    exact h.counter
  data := by
    rw [hsame.stateMachine, hsame.applied]
    exact h.data

/-- Around the mutex of the state machine: no task without it applies anything. -/
def applyDiscipline : Discipline Lock RaftNode Output WriteResult Site where
  mutex := .stateMachine
  inv := Replayed
  guar held w w' := (w.state.log.Keyed → w'.state.log.Keyed) ∧
    (held = false → SameApplied w w') ∧ (Ascending w.out → Ascending w'.out)
  rely held w w' := (w.state.log.Keyed → w'.state.log.Keyed) ∧ (held = true → SameApplied w w')
  site _ _ _ := True
  answer _ := True
  rely_refl _ _ := ⟨id, fun _ => ⟨rfl, rfl, rfl⟩⟩
  rely_trans _ _ _ _ h h' := ⟨h'.1 ∘ h.1, fun hheld => (h.2 hheld).trans (h'.2 hheld)⟩
  guar_rely held other _ _ hexcl hguar := by
    refine ⟨hguar.1, fun hother => hguar.2.1 ?_⟩
    cases held with
    | false => rfl
    | true => exact absurd (hexcl rfl) (by rw [hother]; decide)
  inv_guar _ _ hguar hinv := hinv.same (hguar.2.1 rfl) hguar.1

theorem Replayed.rely {w w' : World RaftNode Output} (h : Replayed w)
    (hrely : applyDiscipline.rely true w w') : Replayed w' :=
  h.same (hrely.2 rfl) hrely.1

/-! ### The loop -/

section
variable {memo : List Output} {w : World RaftNode Output}

/-- An output that applies nothing leaves the order as it is. -/
theorem appliedIn_emit {o : Output} (ho : ∀ i e, o ≠ .applied i e) (out : List Output) :
    appliedIn (out ++ [o]) = appliedIn out := by
  have hnone : appliedIn [o] = [] := appliedIn_eq_nil fun i e h =>
    ho i e (List.mem_singleton.mp h).symm
  rw [appliedIn_append, hnone, List.append_nil]

/-- With the mutex the loop takes one invariant to the next. -/
theorem safe_applyEntries (steps : Nat) (h : Replayed w) : (applyEntries steps).Safe
    applyDiscipline true memo (fun _ held _ w' => held = true ∧ Replayed w') w := by
  induction steps generalizing memo w with
  | zero => exact fun w' hw => ⟨rfl, h.rely hw⟩
  | succ steps ih =>
      rw [applyEntries]
      refine safe_modify fun w₁ hw₁ => ⟨⟨id, fun h => Bool.noConfusion h, id⟩, ?_⟩
      have h₁ := h.rely hw₁
      refine safe_get fun w₂ hw₂ => ?_
      obtain ⟨hlast, hmachine, happlied⟩ := hw₂.2 rfl
      have hkeyed : w₂.state.log.Keyed := hw₂.1 h₁.keyed
      -- The index is counted up, and nothing is applied there yet.
      have hnext : w₂.state.lastApplied = w₁.state.lastApplied + 1 := hlast
      have hbelow : ∀ e ∈ appliedIn w₂.out, e.index < w₂.state.lastApplied := by
        intro e he
        rw [happlied] at he
        have := h₁.below e he
        omega
      have hcounter : w₂.state.stateMachine.lastApplied < w₂.state.lastApplied := by
        rw [hmachine, hnext]
        exact Nat.lt_succ_of_le h₁.counter
      have hdata : w₂.state.stateMachine.data = replay (appliedIn w₂.out) := by
        rw [hmachine, happlied]
        exact h₁.data
      split
      · rename_i entry hentry
        have hindex : entry.index = w₂.state.lastApplied := hkeyed _ _ hentry
        refine safe_modify fun w₃ hw₃ => ⟨⟨id, fun h => Bool.noConfusion h, id⟩, ?_⟩
        refine safe_emit fun w₄ hw₄ => ?_
        obtain ⟨hlast₃, hmachine₃, happlied₃⟩ := hw₃.2 rfl
        obtain ⟨hlast₄, hmachine₄, happlied₄⟩ := hw₄.2 rfl
        have hout : appliedIn w₄.out = appliedIn w₂.out := happlied₄.trans happlied₃
        have hmore : appliedIn (w₄.out ++ [.applied w₂.state.lastApplied entry])
            = appliedIn w₂.out ++ [entry] := by
          rw [appliedIn_append, hout]
          rfl
        have happly : w₄.state.stateMachine = ⟨entry.command.effect w₂.state.stateMachine.data,
            entry.index⟩ := by
          have hcall : w₂.state.stateMachine.apply entry =
              ⟨entry.command.effect w₂.state.stateMachine.data, entry.index⟩ := by
            rw [StateMachine.apply, if_neg (by omega)]
            cases entry.command <;> rfl
          rw [hmachine₄, ← hcall, ← hmachine₃]
          rfl
        have hsame : w₄.state.lastApplied = w₂.state.lastApplied := hlast₄.trans hlast₃
        refine ⟨⟨id, fun h => Bool.noConfusion h, fun hasc => ?_⟩,
          ih ⟨hw₄.1 (hw₃.1 hkeyed), ?_, ?_, ?_⟩⟩
        · -- All that was applied before has a smaller index.
          show List.Pairwise _ (appliedIn (w₄.out ++ [.applied w₂.state.lastApplied entry]))
          rw [hmore]
          rw [Ascending, hout] at hasc
          refine List.pairwise_append.mpr ⟨hasc, List.pairwise_singleton _ _, fun e he e' he' => ?_⟩
          obtain rfl := List.mem_singleton.mp he'
          rw [hindex]
          exact hbelow e he
        · show ∀ e ∈ appliedIn (w₄.out ++ [.applied w₂.state.lastApplied entry]),
            e.index ≤ w₄.state.lastApplied
          rw [hmore, hsame]
          intro e he
          rcases List.mem_append.mp he with he | he
          · exact Nat.le_of_lt (hbelow e he)
          · obtain rfl := List.mem_singleton.mp he
            exact Nat.le_of_eq hindex
        · show w₄.state.stateMachine.lastApplied ≤ w₄.state.lastApplied
          rw [happly, hsame]
          exact Nat.le_of_eq hindex
        · show w₄.state.stateMachine.data
            = replay (appliedIn (w₄.out ++ [.applied w₂.state.lastApplied entry]))
          rw [happly, hmore, replay, List.map_append, List.foldl_append, hdata]
          rfl
      · exact ih ⟨hkeyed, fun e he => Nat.le_of_lt (hbelow e he), Nat.le_of_lt hcounter, hdata⟩

end

/-! ### The operations -/

/-- A write that leaves the state machine and its index as they are. -/
structure Unapplying (f : RaftNode → RaftNode) : Prop where
  lastApplied : ∀ n, (f n).lastApplied = n.lastApplied
  stateMachine : ∀ n, (f n).stateMachine = n.stateMachine
  keyed : ∀ n, n.log.Keyed → (f n).log.Keyed

/-- What never takes the mutex of the state machine, and applies nothing. -/
theorem tidy_of_unapplying {α : Type} {A : Lock → Bool → Prop} {W : (RaftNode → RaftNode) → Prop}
    {E : Output → Prop} {p : NodeProg α} (hp : p.Only A W E)
    (hA : ∀ l ex, A l ex → l ≠ .stateMachine) (hW : ∀ f, W f → Unapplying f)
    (hE : ∀ o, E o → ∀ i e, o ≠ .applied i e) : p.Tidy applyDiscipline := by
  refine hp.tidy hA (fun f hf w => ?_) fun o ho w => ?_
  · exact ⟨(hW f hf).keyed w.state, fun _ => ⟨(hW f hf).lastApplied _, (hW f hf).stateMachine _,
      rfl⟩, id⟩
  · have hsame := appliedIn_emit (hE o ho) w.out
    refine ⟨id, fun _ => ⟨rfl, rfl, hsame⟩, fun hasc => ?_⟩
    show List.Pairwise _ (appliedIn (w.out ++ [o]))
    rw [hsame]
    exact hasc

theorem tidy_of_background {α : Type} {p : NodeProg α} (hp : InBackground p) :
    p.Tidy applyDiscipline := by
  refine tidy_of_unapplying hp (fun _ _ hl => hl.1)
    (fun f hf => ⟨hf.lastApplied, hf.stateMachine, hf.keyed⟩) fun o ho i e heq => ?_
  subst heq
  exact ho

theorem piecewise_applyDiscipline : Piecewise (Prog.Tidy applyDiscipline) where
  bind := Prog.Tidy.bind
  background := tidy_of_background
  applies := by
    refine (tidy_of_background (p := withRead .commitIndex _) ⟨by decide, fun _ => trivial⟩).bind
      fun k => ?_
    refine (tidy_of_background (p := lock .lastApplied) ⟨by decide, trivial⟩).bind fun _ => ?_
    refine (tidy_of_background (p := lock .log) ⟨by decide, trivial⟩).bind fun _ => ?_
    refine tidy_section rfl (fun w w' hw h => Replayed.rely h hw)
      (fun memo w h => safe_applyEntries _ h) fun n a => ?_
    exact tidy_of_background (p := unlock .log >>= fun _ => unlock .lastApplied) trivial
  notifies := fun upToIndex => by
    refine tidy_of_unapplying (A := fun l _ => l ≠ .stateMachine) (W := Unapplying)
      (E := fun o => ∀ i e, o ≠ .applied i e) ?_ (fun _ _ => id) (fun _ => id) fun _ => id
    exact only_notifyPendingRequests (by decide) (fun idx => ⟨fun _ => rfl, fun _ => rfl,
      fun _ => id⟩) (fun tx idx i e => nofun) upToIndex
  reads := fun f => by
    exact tidy_section (l := .stateMachine) (p := fun _ => pure ()) (f := fun n _ => pure (f n))
      rfl (fun w w' hw h => Replayed.rely h hw) (fun memo w h w' hw => ⟨rfl, h.rely hw⟩)
      fun n _ => Prog.tidy_pure (f n)

/-- Every operation keeps to the discipline. -/
theorem tidy_task (op : Operation) : op.task.Tidy applyDiscipline := by
  refine piecewise_applyDiscipline.task fun command tx hop => ?_
  subst hop
  refine tidy_of_unapplying (A := fun l _ => l ≠ .stateMachine) (W := Unapplying)
    (E := fun o => ∀ i e, o ≠ .applied i e) ?_ (fun _ _ => id) (fun _ => id) fun _ => id
  refine only_propose (by decide) (fun term => ⟨fun _ => rfl, fun _ => rfl, fun n h =>
    h.append term command⟩) (fun index => ⟨fun _ => rfl, fun _ => rfl, fun _ => id⟩)
    (fun leaderId i e => nofun) (fun entry i e => nofun) ?_
  refine background_sendHeartbeats.weaken (fun _ _ hl => hl.1)
    (fun f hf => ⟨hf.lastApplied, hf.stateMachine, hf.keyed⟩) fun o ho i e heq => ?_
  subst heq
  exact ho

/-- In every interleaving of the operations of a node, each entry is applied once, in the order of
the indices, and what the free state machine holds is the replay of what was applied. -/
theorem appliedOnce {nodeId : String} {peers : HashMap String PeerInfo} {dir : DataDir}
    {n : RaftNode} (hnew : RaftNode.new nodeId peers dir = some n)
    {ok : Contention → Turn → Prop} {tr : List Contention} (h : Contention.Run n ok tr) :
    ∀ c ∈ tr, Ascending c.config.out ∧ (c.config.Free .stateMachine true →
      c.config.state.stateMachine.data = replay (appliedIn c.config.out)) := by
  obtain ⟨log, hlog, rfl⟩ := Option.map_eq_some_iff.mp hnew
  have hinit : Replayed ⟨RaftNode.withLog nodeId peers log, []⟩ :=
    ⟨.new hlog, by simp [appliedIn], Nat.le_refl _, rfl⟩
  have hsafe := h.safe (D := applyDiscipline) (J := fun w => Ascending w.out)
    (fun _ _ _ => trivial) (fun _ => trivial) tidy_task (fun _ _ _ hguar => hguar.2.2) hinit
    List.Pairwise.nil
  intro c hc
  refine ⟨(hsafe c hc).2, fun hfree => ?_⟩
  -- A free mutex is one that no task has.
  have hinv : Replayed c.config.world := (hsafe c hc).1.inv fun th hth =>
    hfree.hasMutex (D := applyDiscipline) th hth
  exact hinv.data

/-- The request of leader "B" in term 1 that brings one entry at this index and commits it. -/
def storing (index : Nat) : Operation :=
  .handleMessage (.new "B" "A" (.appendEntries ⟨1, .pushStr 64 "B", index - 1,
    if index = 1 then 0 else 1,
    .collectTake 64 [⟨index, 1, .put (.pushStr 256 "k") (.collectTake 1024 [1])⟩], index⟩))

/-- The first handler has read the commit index when the second one comes, stores its entry and
applies both. -/
def overlappingTurns : List Turn :=
  .start (storing 1) :: turns 0 24 ++ .start (storing 2) :: turns 1 38 ++ turns 0 11

/-- In this interleaving each of the two entries is applied once, and "k" is what they make it. -/
theorem appliedOnce_overlapping :
    let tr := Contention.trace bootedNode (fun _ _ => True) overlappingTurns
    (appliedIn (Contention.final bootedNode (fun _ _ => True) overlappingTurns).config.out).map
        (·.index) = [1, 2] ∧
      ∀ c ∈ tr, Ascending c.config.out ∧ (c.config.Free .stateMachine true →
        c.config.state.stateMachine.data = replay (appliedIn c.config.out)) := by
  have hnew : RaftNode.new "A" (RaftNode.peerMap [("B", "b"), ("C", "c")]) .empty
      = some bootedNode := rfl
  exact ⟨by decide +kernel, appliedOnce hnew (Lib.run_trace (by decide +kernel))⟩

end RaftEbpf
