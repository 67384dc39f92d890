import Mathlib.Data.List.Basic

/-!
# `RaftEbpf.Lib.Run`: executions of a transition system

A transition system is a partial function `step` and an initial state. A `Run` lists the
states of one execution, newest first. Its parameter `ok` says which steps the run may take,
so that a statement can name the faults it allows or the condition it needs. `exec` carries
a list of actions out, and what it produces is a run (`run_trace`, `run_final`).
`withGhost` records something about a run beside its states, and leaves the runs as they are
(`Run.addGhost`, `Run.dropGhost`). `recorded` keeps its steps.
-/

set_option autoImplicit false

namespace RaftEbpf.Lib

variable {σ α : Type} {step : σ → α → Option σ} {init : σ}

/-- The states of one execution, newest first. Each step is one that `ok` allows. -/
inductive Run (step : σ → α → Option σ) (init : σ) (ok : σ → α → Prop) : List σ → Prop where
  | start : Run step init ok [init]
  | step {c c' : σ} {tr : List σ} {a : α} :
      Run step init ok (c :: tr) → ok c a → step c a = some c' → Run step init ok (c' :: c :: tr)

/-- The states a list of actions goes through, newest first, from the given ones. `none`:
some action is not possible, or `ok` does not allow it. -/
def exec (step : σ → α → Option σ) (ok : σ → α → Prop) [∀ c a, Decidable (ok c a)] :
    List σ → List α → Option (List σ)
  | tr, [] => some tr
  | [], _ :: _ => none
  | c :: tr, a :: as =>
      if ok c a then
        match step c a with
        | none => none
        | some c' => exec step ok (c' :: c :: tr) as
      else none

/-- The states that a list of actions goes through from the initial one. Empty where `exec`
stops. -/
def trace (step : σ → α → Option σ) (init : σ) (ok : σ → α → Prop) [∀ c a, Decidable (ok c a)]
    (as : List α) : List σ :=
  (exec step ok [init] as).getD []

/-- The state a list of actions ends in. -/
def final (step : σ → α → Option σ) (init : σ) (ok : σ → α → Prop) [∀ c a, Decidable (ok c a)]
    (as : List α) : σ :=
  (trace step init ok as).headD init

section
variable {ok : σ → α → Prop} [∀ c a, Decidable (ok c a)]

/-- An execution of allowed actions is a run. -/
theorem run_of_exec {as : List α} {tr tr' : List σ} (hrun : Run step init ok tr)
    (h : exec step ok tr as = some tr') : Run step init ok tr' := by
  induction as generalizing tr with
  | nil =>
      obtain rfl : tr = tr' := by simpa [exec] using h
      exact hrun
  | cons a as ih =>
      cases tr with
      | nil => simp [exec] at h
      | cons c tr =>
          rw [exec] at h
          split at h
          · rename_i hok
            cases hs : step c a with
            | none => simp [hs] at h
            | some c' =>
                simp only [hs] at h
                exact ih (hrun.step hok hs) h
          · cases h

/-- The trace of an execution is a run. -/
theorem run_trace {as : List α} (h : (exec step ok [init] as).isSome) :
    Run step init ok (trace step init ok as) := by
  obtain ⟨tr, htr⟩ := Option.isSome_iff_exists.mp h
  rw [trace, htr]
  exact run_of_exec .start htr

/-- The trace of an execution is a run that ends in its last state. -/
theorem run_final {as : List α} (h : (exec step ok [init] as).isSome) :
    Run step init ok (final step init ok as :: (trace step init ok as).tail) := by
  have hrun := run_trace h
  have hcons : trace step init ok as = final step init ok as :: (trace step init ok as).tail := by
    cases htr : trace step init ok as with
    | nil =>
        rw [htr] at hrun
        cases hrun
    | cons c tr =>
        rw [final, htr]
        rfl
  rwa [hcons] at hrun

end

/-- Each state of a run ends a run of states of that run. -/
theorem Run.suffix {ok : σ → α → Prop} {tr : List σ} (h : Run step init ok tr) {c : σ}
    (hc : c ∈ tr) : ∃ rest, Run step init ok (c :: rest) ∧ ∀ c' ∈ c :: rest, c' ∈ tr := by
  induction h with
  | start =>
      obtain rfl : c = init := by simpa using hc
      exact ⟨[], .start, fun _ h => h⟩
  | @step c₀ c' tr a hrun hok hstep ih =>
      rcases List.mem_cons.mp hc with rfl | hc
      · exact ⟨c₀ :: tr, hrun.step hok hstep, fun _ h => h⟩
      · obtain ⟨rest, hrest, hsub⟩ := ih hc
        exact ⟨rest, hrest, fun d hd => List.mem_cons_of_mem _ (hsub d hd)⟩

/-- A run whose steps meet a weaker condition too. -/
theorem Run.mono {ok ok' : σ → α → Prop} (hok : ∀ c a, ok c a → ok' c a) {tr : List σ}
    (h : Run step init ok tr) : Run step init ok' tr := by
  induction h with
  | start => exact .start
  | step hrun hc hstep ih => exact .step ih (hok _ _ hc) hstep

/-- An invariant of the allowed steps holds in every state of a run. -/
theorem Run.invariant {ok : σ → α → Prop} {I : σ → Prop} (hinit : I init)
    (hstep : ∀ c a c', I c → ok c a → step c a = some c' → I c') {tr : List σ}
    (h : Run step init ok tr) : ∀ c ∈ tr, I c := by
  induction h with
  | start =>
      intro c hc
      obtain rfl : c = init := by simpa using hc
      exact hinit
  | step hrun hok hs ih =>
      intro c hc
      rcases List.mem_cons.mp hc with rfl | hc
      · exact hstep _ _ _ (ih _ List.mem_cons_self) hok hs
      · exact ih c hc

/-- What holds of each state of a run may be asked of each step, before and after it. -/
theorem Run.restrict {ok : σ → α → Prop} {P : σ → Prop} {tr : List σ} (h : Run step init ok tr)
    (hP : ∀ c ∈ tr, P c) :
    Run step init (fun c a => ok c a ∧ P c ∧ ∀ c', step c a = some c' → P c') tr := by
  induction h with
  | start => exact .start
  | step hrun hok hs ih =>
      refine .step (ih fun c hc => hP c (List.mem_cons_of_mem _ hc)) ⟨hok, ?_, ?_⟩ hs
      · exact hP _ (List.mem_cons_of_mem _ List.mem_cons_self)
      · intro c'' hs'
        rw [hs] at hs'
        obtain rfl := Option.some.inj hs'
        exact hP _ List.mem_cons_self

/-- What every step does, from a state with the invariant, a whole run does between any two
of its states. -/
theorem Run.pairwise {ok : σ → α → Prop} {I : σ → Prop} {R : σ → σ → Prop} (hinit : I init)
    (hstep : ∀ c a c', I c → ok c a → step c a = some c' → I c' ∧ R c c')
    (htrans : ∀ c₁ c₂ c₃, R c₁ c₂ → R c₂ c₃ → R c₁ c₃) {tr : List σ}
    (h : Run step init ok tr) : tr.Pairwise fun later earlier => R earlier later := by
  have hinv : ∀ {tr : List σ}, Run step init ok tr → ∀ c ∈ tr, I c :=
    fun h => h.invariant hinit fun c a c' hc hok hs => (hstep c a c' hc hok hs).1
  induction h with
  | start => exact List.pairwise_singleton _ _
  | @step c c' tr a hrun hok hs ih =>
      have hR := (hstep c a c' (hinv hrun c List.mem_cons_self) hok hs).2
      refine List.pairwise_cons.mpr ⟨fun c₀ hc₀ => ?_, ih⟩
      rcases List.mem_cons.mp hc₀ with rfl | hc₀
      · exact hR
      · exact htrans c₀ c c' (List.rel_of_pairwise_cons ih hc₀) hR

/-! ### Ghosts -/

/-- The system with a ghost beside its state: `update` says what a step does to the ghost,
and no step reads it. -/
def withGhost {γ : Type} (step : σ → α → Option σ) (update : σ → α → σ → γ → γ) (s : σ × γ)
    (a : α) : Option (σ × γ) :=
  (step s.1 a).map fun c' => (c', update s.1 a c' s.2)

section
variable {γ : Type} {update : σ → α → σ → γ → γ} {g : γ}

/-- Without the ghost a run with a ghost is a run. -/
theorem Run.dropGhost {ok : σ → α → Prop} {tr : List (σ × γ)}
    (h : Run (withGhost step update) (init, g) (fun s a => ok s.1 a) tr) :
    Run step init ok (tr.map Prod.fst) := by
  induction h with
  | start => exact .start
  | step hrun hok hs ih =>
      obtain ⟨c', hc', rfl⟩ := Option.map_eq_some_iff.mp hs
      exact ih.step hok hc'

/-- Every run is a run with a ghost, without the ghost. -/
theorem Run.addGhost {ok : σ → α → Prop} {tr : List σ} (h : Run step init ok tr) :
    ∃ tr', Run (withGhost step update) (init, g) (fun s a => ok s.1 a) tr' ∧
      tr'.map Prod.fst = tr := by
  induction h with
  | start => exact ⟨[(init, g)], .start, rfl⟩
  | @step c c' tr a hrun hok hs ih =>
      obtain ⟨tr', hrun', heq⟩ := ih
      obtain ⟨⟨c₀, g₀⟩, tr₀, rfl⟩ : ∃ s tr₀, tr' = s :: tr₀ := by
        cases tr' with
        | nil => cases heq
        | cons s tr₀ => exact ⟨s, tr₀, rfl⟩
      obtain ⟨rfl, htr⟩ := List.cons.inj heq
      refine ⟨(c', update c₀ a c' g₀) :: (c₀, g₀) :: tr₀, hrun'.step hok ?_, ?_⟩
      · simp [withGhost, hs]
      · simp [htr]

end

/-- The system with a record of its steps, newest first: the state before, the action and the
state after. -/
def recorded (step : σ → α → Option σ) :
    σ × List (σ × α × σ) → α → Option (σ × List (σ × α × σ)) :=
  withGhost step fun c a c' steps => (c, a, c') :: steps

/-- Each recorded step is a step, and one that the run may take. -/
theorem Run.recorded {ok : σ → α → Prop} {tr : List (σ × List (σ × α × σ))}
    (h : Run (recorded step) (init, []) (fun s a => ok s.1 a) tr) :
    ∀ s ∈ tr, ∀ x ∈ s.2, ok x.1 x.2.1 ∧ step x.1 x.2.1 = some x.2.2 := by
  refine h.invariant (I := fun s => ∀ x ∈ s.2, ok x.1 x.2.1 ∧ step x.1 x.2.1 = some x.2.2)
    (by simp) ?_
  intro s a s' hs hok hstep x hx
  obtain ⟨c', hc', rfl⟩ := Option.map_eq_some_iff.mp hstep
  rcases List.mem_cons.mp hx with rfl | hx
  · exact ⟨hok, hc'⟩
  · exact hs x hx

/-- Where a condition on each step decides whether it keeps a property, all recorded steps lead
to the property exactly if they all meet the condition. An invariant `J` of the steps that meet it
may say more than the property. Induction on the run: the steps before the last one led to the
property, so the last one starts from the invariant. -/
theorem Run.recorded_iff_of_invariant {ok : σ → α → Prop} {I J : σ → Prop} {Q : σ → α → Prop}
    (hinit : J init) (hJ : ∀ c, J c → I c)
    (hkeeps : ∀ c a c', J c → ok c a → step c a = some c' → Q c a → J c')
    (hneeds : ∀ c a c', J c → ok c a → step c a = some c' → I c' → Q c a)
    {tr : List (σ × List (σ × α × σ))}
    (h : Run (Lib.recorded step) (init, []) (fun s a => ok s.1 a) tr) :
    ∀ s ∈ tr, (∀ x ∈ s.2, I x.2.2) ↔ ∀ x ∈ s.2, Q x.1 x.2.1 := by
  have hinv := h.invariant (I := fun s =>
    ((∀ x ∈ s.2, I x.2.2) ↔ ∀ x ∈ s.2, Q x.1 x.2.1) ∧ ((∀ x ∈ s.2, I x.2.2) → J s.1))
    ⟨by simp, fun _ => hinit⟩ ?_
  · exact fun s hs => (hinv s hs).1
  · rintro s a s' ⟨hiff, hlast⟩ hok hs
    obtain ⟨c', hc', rfl⟩ := Option.map_eq_some_iff.mp hs
    simp only [List.forall_mem_cons]
    constructor
    · constructor
      · rintro ⟨hI, hall⟩
        exact ⟨hneeds _ _ _ (hlast hall) hok hc' hI, hiff.mp hall⟩
      · rintro ⟨hQ, hall⟩
        have hbefore := hiff.mpr hall
        exact ⟨hJ _ (hkeeps _ _ _ (hlast hbefore) hok hc' hQ), hbefore⟩
    · rintro ⟨hI, hall⟩
      have hbefore := hlast hall
      exact hkeeps _ _ _ hbefore hok hc' (hneeds _ _ _ hbefore hok hc' hI)

/-- The same, where the property is its own invariant. -/
theorem Run.recorded_iff {ok : σ → α → Prop} {I : σ → Prop} {Q : σ → α → Prop} (hinit : I init)
    (hstep : ∀ c a c', I c → ok c a → step c a = some c' → (I c' ↔ Q c a))
    {tr : List (σ × List (σ × α × σ))}
    (h : Run (Lib.recorded step) (init, []) (fun s a => ok s.1 a) tr) :
    ∀ s ∈ tr, (∀ x ∈ s.2, I x.2.2) ↔ ∀ x ∈ s.2, Q x.1 x.2.1 :=
  h.recorded_iff_of_invariant hinit (fun _ hc => hc)
    (fun c a c' hc hok hs => (hstep c a c' hc hok hs).mpr)
    fun c a c' hc hok hs => (hstep c a c' hc hok hs).mp

/-- The state after one more step. -/
def next (step : σ → α → Option σ) (c : σ) (a : α) : σ := (step c a).getD c

theorem step_next {c : σ} {a : α} (h : (step c a).isSome) : step c a = some (next step c a) := by
  obtain ⟨c', hc'⟩ := Option.isSome_iff_exists.mp h
  rw [next, hc', Option.getD_some]

end RaftEbpf.Lib
