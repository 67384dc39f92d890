import RaftEbpf.Lib.Prog

/-!
# `RaftEbpf.Lib.ProgLogic`: rules for one task

* `Prog.Only A W E`: every acquisition of the task is in `A`, every write in `W` and every
  output in `E`, on each of its paths. What such a task cannot do follows without looking at
  its paths again (`Only.wp`).
* `Prog.wp`: the weakest precondition of the task alone, lock waits aside, over all answers
  of the environment. It looks at the state and at the outputs so far. A task ends with a
  value (`Q`) or by an error (`F`); `wp_bind` takes a sequence apart and `wp_run` is its
  soundness for `Prog.run`.
* `Prog.Checked`: every answer but the default one ends the task as an error. Where such a task
  ends with a value, the environment might as well have given no other answer
  (`Checked.run_eq`).
-/

set_option autoImplicit false

namespace RaftEbpf.Lib.Prog

variable {L S O C K : Type} {α β : Type}

/-! ### What a task may do at all -/

/-- Every acquisition of the task (with its mode) is in `A`, every write in `W` and every
output in `E`. -/
def Only (A : L → Bool → Prop) (W : (S → S) → Prop) (E : O → Prop) : Prog L S O C K α → Prop
  | done _ => True
  | fail => True
  | acquire l ex _ next => A l ex ∧ next.Only A W E
  | release _ next => next.Only A W E
  | read next => ∀ s, (next s).Only A W E
  | write _ f next => W f ∧ next.Only A W E
  | emit o next => E o ∧ next.Only A W E
  | choose next => ∀ c, (next c).Only A W E

section Only
variable {A : L → Bool → Prop} {W : (S → S) → Prop} {E : O → Prop}

@[simp] theorem only_pure (a : α) : (pure a : Prog L S O C K α).Only A W E := trivial

/-- A sequence does what its parts do. -/
theorem Only.bind {p : Prog L S O C K α} {f : α → Prog L S O C K β} (hp : p.Only A W E)
    (hf : ∀ a, (f a).Only A W E) : (p >>= f).Only A W E := by
  show (p.bind f).Only A W E
  induction p with
  | done a => exact hf a
  | fail => trivial
  | acquire l ex site next ih => exact ⟨hp.1, ih hp.2⟩
  | release l next ih => exact ih hp
  | read next ih => exact fun s => ih s (hp s)
  | write site g next ih => exact ⟨hp.1, ih hp.2⟩
  | emit o next ih => exact ⟨hp.1, ih hp.2⟩
  | choose next ih => exact fun c => ih c (hp c)

/-- What a task does is within wider bounds too. -/
theorem Only.weaken {A' : L → Bool → Prop} {W' : (S → S) → Prop} {E' : O → Prop}
    {p : Prog L S O C K α} (h : p.Only A W E) (hA : ∀ l ex, A l ex → A' l ex)
    (hW : ∀ f, W f → W' f) (hE : ∀ o, E o → E' o) : p.Only A' W' E' := by
  induction p with
  | done a => trivial
  | fail => trivial
  | acquire l ex site next ih => exact ⟨hA l ex h.1, ih h.2⟩
  | release l next ih => exact ih h
  | read next ih => exact fun s => ih s (h s)
  | write site g next ih => exact ⟨hW g h.1, ih h.2⟩
  | emit o next ih => exact ⟨hE o h.1, ih h.2⟩
  | choose next ih => exact fun c => ih c (h c)

theorem Only.mono {W' : (S → S) → Prop} {E' : O → Prop} {p : Prog L S O C K α}
    (h : p.Only A W E) (hW : ∀ f, W f → W' f) (hE : ∀ o, E o → E' o) : p.Only A W' E' :=
  h.weaken (fun _ _ => id) hW hE

theorem Only.ite {c : Prop} [Decidable c] {p q : Prog L S O C K α} (hp : c → p.Only A W E)
    (hq : ¬ c → q.Only A W E) : (if c then p else q).Only A W E := by
  split
  · rename_i h
    exact hp h
  · rename_i h
    exact hq h

end Only

/-! ### The task alone, whatever the environment answers -/

/-- Started in this state, after these outputs, and whatever the environment answers: the
task ends with a value such that `Q` holds, or by an error such that `F` holds. -/
def wp : Prog L S O C K α → (α → S → List O → Prop) → (S → List O → Prop) → S → List O → Prop
  | done a, Q, _, s, out => Q a s out
  | fail, _, F, s, out => F s out
  | acquire _ _ _ next, Q, F, s, out => next.wp Q F s out
  | release _ next, Q, F, s, out => next.wp Q F s out
  | read next, Q, F, s, out => (next s).wp Q F s out
  | write _ f next, Q, F, s, out => next.wp Q F (f s) out
  | emit o next, Q, F, s, out => next.wp Q F s (out ++ [o])
  | choose next, Q, F, s, out => ∀ c, (next c).wp Q F s out

section Wp
variable {Q : β → S → List O → Prop} {F : S → List O → Prop}

@[simp] theorem wp_pure (b : β) (s : S) (out : List O) :
    (pure b : Prog L S O C K β).wp Q F s out ↔ Q b s out := Iff.rfl

@[simp] theorem wp_bind (p : Prog L S O C K α) (f : α → Prog L S O C K β) (s : S)
    (out : List O) :
    (p >>= f).wp Q F s out ↔ p.wp (fun a s' out' => (f a).wp Q F s' out') F s out := by
  show (p.bind f).wp Q F s out ↔ _
  induction p generalizing s out with
  | done a => exact Iff.rfl
  | fail => exact Iff.rfl
  | acquire l ex site next ih => exact ih s out
  | release l next ih => exact ih s out
  | read next ih => exact ih s s out
  | write site g next ih => exact ih (g s) out
  | emit o next ih => exact ih s (out ++ [o])
  | choose next ih => exact forall_congr' fun c => ih c s out

/-- What holds of all ends holds of the end of each run. -/
theorem wp_run [Inhabited C] {p : Prog L S O C K β} {s : S} {out : List O} (h : p.wp Q F s out)
    (cs : List C) :
    match (p.run cs s).value with
    | some b => Q b (p.run cs s).state (out ++ (p.run cs s).out)
    | none => F (p.run cs s).state (out ++ (p.run cs s).out) := by
  induction p generalizing cs s out with
  | done b => simpa [run, Prog.wp] using h
  | fail => simpa [run, Prog.wp] using h
  | acquire l ex site next ih => exact ih h cs
  | release l next ih => exact ih h cs
  | read next ih => exact ih s h cs
  | write site g next ih => exact ih h cs
  | emit o next ih => simpa [run] using ih h cs
  | choose next ih => exact ih _ (h (cs.headD default)) cs.tail

/-- An invariant that the writes and outputs of a task keep holds at its end. -/
theorem Only.wp {A : L → Bool → Prop} {W : (S → S) → Prop} {E : O → Prop} {p : Prog L S O C K α}
    (h : p.Only A W E) {I : S → List O → Prop} (hW : ∀ f, W f → ∀ s out, I s out → I (f s) out)
    (hE : ∀ o, E o → ∀ s out, I s out → I s (out ++ [o])) {s : S} {out : List O}
    (hI : I s out) : p.wp (fun _ => I) I s out := by
  induction p generalizing s out with
  | done a => exact hI
  | fail => exact hI
  | acquire l ex site next ih => exact ih h.2 hI
  | release l next ih => exact ih h hI
  | read next ih => exact ih s (h s) hI
  | write site g next ih => exact ih h.2 (hW g h.1 s out hI)
  | emit o next ih => exact ih h.2 (hE o h.1 s out hI)
  | choose next ih => exact fun c => ih c (h c) hI

/-- An invariant that the writes of a task keep holds where its run ends. -/
theorem Only.run [Inhabited C] {A : L → Bool → Prop} {W : (S → S) → Prop} {E : O → Prop}
    {p : Prog L S O C K α} (h : p.Only A W E) {I : S → Prop}
    (hW : ∀ f, W f → ∀ s, I s → I (f s)) {s : S} (hI : I s) (cs : List C) :
    I (p.run cs s).state := by
  have hwp : p.wp (fun _ s _ => I s) (fun s _ => I s) s [] :=
    h.wp (I := fun s _ => I s) (fun f hf s _ => hW f hf s) (fun _ _ _ _ => id) hI
  have hend := wp_run hwp cs
  split at hend <;> exact hend

end Wp

/-! ### Answers that end the task -/

/-- Every answer of the environment but the default one ends the task without a value. -/
def Checked [Inhabited C] : Prog L S O C K α → Prop
  | done _ => True
  | fail => True
  | acquire _ _ _ next => next.Checked
  | release _ next => next.Checked
  | read next => ∀ s, (next s).Checked
  | write _ _ next => next.Checked
  | emit _ next => next.Checked
  | choose next =>
      (next default).Checked ∧ ∀ c, c ≠ default → ∀ cs s, ((next c).run cs s).value = none

section Checked
variable [Inhabited C]

theorem Checked.bind {p : Prog L S O C K α} {f : α → Prog L S O C K β} (hp : p.Checked)
    (hf : ∀ a, (f a).Checked) : (p >>= f).Checked := by
  show (p.bind f).Checked
  induction p with
  | done a => exact hf a
  | fail => trivial
  | acquire l ex site next ih => exact ih hp
  | release l next ih => exact ih hp
  | read next ih => exact fun s => ih s (hp s)
  | write site g next ih => exact ih hp
  | emit o next ih => exact ih hp
  | choose next ih =>
      refine ⟨ih default hp.1, fun c hc cs s => ?_⟩
      show ((next c >>= f).run cs s).value = none
      rw [run_bind, Result.andThen, hp.2 c hc cs s]

/-- A task that ends with a value does what it does when the environment always gives the
default answer. -/
theorem Checked.run_eq {p : Prog L S O C K α} (hp : p.Checked) {cs : List C} {s : S}
    (h : (p.run cs s).value.isSome = true) : (p.run cs s).value = (p.run [] s).value ∧
      (p.run cs s).state = (p.run [] s).state ∧ (p.run cs s).out = (p.run [] s).out := by
  induction p generalizing cs s with
  | done a => exact ⟨rfl, rfl, rfl⟩
  | fail => cases h
  | acquire l ex site next ih => exact ih hp h
  | release l next ih => exact ih hp h
  | read next ih => exact ih s (hp s) h
  | write site g next ih => exact ih hp h
  | emit o next ih =>
      obtain ⟨hvalue, hstate, hout⟩ := ih hp (show (next.run cs s).value.isSome = true from h)
      exact ⟨hvalue, hstate, congrArg (o :: ·) hout⟩
  | choose next ih =>
      by_cases hc : cs.headD default = default
      · rw [run, hc] at h ⊢
        exact ih default hp.1 h
      · rw [run, hp.2 _ hc] at h
        cases h

end Checked

end RaftEbpf.Lib.Prog
