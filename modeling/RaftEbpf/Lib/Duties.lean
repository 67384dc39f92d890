import RaftEbpf.Lib.ProgLogic

/-!
# `RaftEbpf.Lib.Duties`: each task deals with what it leaves due

A change of the shared state can leave something due: a request to answer, an entry to apply.
`Duties` says what is due in a state. A task is `Honest` when each of its writes that leaves
something due is followed, in the same task, by what deals with it (`Settles`), whatever the
other tasks do in between. In a configuration of honest tasks everything due has a task that
still settles it (`Config.Covered`), so nothing is due once all tasks have ended
(`Config.Covered.atRest`).

What a write leaves due may rest on an assumption (`ok`) about the guards its task holds and
the state that the write finds.
-/

set_option autoImplicit false

namespace RaftEbpf.Lib

/-- What is due in a state, for each `i`, and what two moments of an execution have in common. -/
structure Duties (ι L S : Type) where
  /-- `i` is to be dealt with. -/
  due : S → ι → Prop
  /-- From a state to a later one, whichever tasks act. -/
  rely : S → S → Prop
  /-- Assumed of a write: the guards its task holds and the state it finds. -/
  ok : List (L × Bool) → S → (S → S) → Prop
  rely_refl : ∀ s, rely s s
  rely_trans : ∀ {s₁ s₂ s₃}, rely s₁ s₂ → rely s₂ s₃ → rely s₁ s₃

variable {ι L S O C K : Type} {α β : Type} {D : Duties ι L S}

/-- A write that leaves nothing due, whatever it finds. -/
def Duties.Harmless (D : Duties ι L S) (f : S → S) : Prop :=
  ∀ s, D.rely s (f s) ∧ ∀ i, D.due (f s) i → D.due s i

namespace Prog

/-- From this state on the task makes `i` no longer due, or ends where `Q` holds. -/
def Settles (D : Duties ι L S) (i : ι) (Q : α → S → Prop) : Prog L S O C K α → S → Prop
  | done a, s => ∀ s', D.rely s s' → D.due s' i → Q a s'
  | fail, s => ∀ s', D.rely s s' → ¬D.due s' i
  | acquire _ _ _ next, s => next.Settles D i Q s
  | release _ next, s => next.Settles D i Q s
  | read next, s => ∀ s', D.rely s s' → D.due s' i → (next s').Settles D i Q s'
  | write _ f next, s => ∀ s', D.rely s s' → D.due s' i → D.due (f s') i →
      next.Settles D i Q (f s')
  | emit _ next, s => next.Settles D i Q s
  | choose next, s => ∀ c, (next c).Settles D i Q s

variable {i : ι} {Q : α → S → Prop}

/-- What holds from each later state in which `i` is due holds from here. -/
theorem Settles.of_later {p : Prog L S O C K α} {s : S}
    (h : ∀ s', D.rely s s' → D.due s' i → p.Settles D i Q s') : p.Settles D i Q s := by
  induction p generalizing s with
  | done a => exact fun s' hs' hdue => h s' hs' hdue s' (D.rely_refl s') hdue
  | fail => exact fun s' hs' hdue => h s' hs' hdue s' (D.rely_refl s') hdue
  | acquire l ex site next ih => exact ih h
  | release l next ih => exact ih h
  | read next ih => exact fun s' hs' hdue => h s' hs' hdue s' (D.rely_refl s') hdue
  | write site f next ih => exact fun s' hs' hdue => h s' hs' hdue s' (D.rely_refl s') hdue
  | emit o next ih => exact ih h
  | choose next ih => exact fun c => ih c fun s' hs' hdue => h s' hs' hdue c

/-- The other tasks do not change what a task settles. -/
theorem Settles.rely {p : Prog L S O C K α} {s s' : S} (h : p.Settles D i Q s)
    (hs : D.rely s s') : p.Settles D i Q s' := by
  induction p generalizing s s' with
  | done a => exact fun s₂ hs₂ => h s₂ (D.rely_trans hs hs₂)
  | fail => exact fun s₂ hs₂ => h s₂ (D.rely_trans hs hs₂)
  | acquire l ex site next ih => exact ih h hs
  | release l next ih => exact ih h hs
  | read next ih => exact fun s₂ hs₂ => h s₂ (D.rely_trans hs hs₂)
  | write site f next ih => exact fun s₂ hs₂ => h s₂ (D.rely_trans hs hs₂)
  | emit o next ih => exact ih h hs
  | choose next ih => exact fun c => ih c (h c) hs

/-- A sequence settles what its first part settles, or leaves to its second. -/
theorem settles_bind {p : Prog L S O C K α} {f : α → Prog L S O C K β} {Q : β → S → Prop} {s : S}
    (h : p.Settles D i (fun a s' => (f a).Settles D i Q s') s) :
    (p >>= f).Settles D i Q s := by
  show (p.bind f).Settles D i Q s
  induction p generalizing s with
  | done a => exact .of_later h
  | fail => exact h
  | acquire l ex site next ih => exact ih h
  | release l next ih => exact ih h
  | read next ih => exact fun s' hs' hdue => ih s' (h s' hs' hdue)
  | write site g next ih => exact fun s' hs' hdue hdue' => ih (h s' hs' hdue hdue')
  | emit o next ih => exact ih h
  | choose next ih => exact fun c => ih c (h c)

/-- Where a task may end satisfies a weaker condition too. -/
theorem Settles.mono {Q' : α → S → Prop} (hQ : ∀ a s, Q a s → Q' a s) {p : Prog L S O C K α}
    {s : S} (h : p.Settles D i Q s) : p.Settles D i Q' s := by
  induction p generalizing s with
  | done a => exact fun s' hs' hdue => hQ a s' (h s' hs' hdue)
  | fail => exact h
  | acquire l ex site next ih => exact ih h
  | release l next ih => exact ih h
  | read next ih => exact fun s' hs' hdue => ih s' (h s' hs' hdue)
  | write site f next ih => exact fun s' hs' hdue hdue' => ih (h s' hs' hdue hdue')
  | emit o next ih => exact ih h
  | choose next ih => exact fun c => ih c (h c)

variable [DecidableEq L]

/-- What this write leaves due, what follows it settles. -/
def HonestWrite (D : Duties ι L S) (held : List (L × Bool)) (f : S → S)
    (next : Prog L S O C K Unit) : Prop :=
  ∀ s, D.ok held s f → D.rely s (f s) ∧
    ∀ i, ¬D.due s i → D.due (f s) i → next.Settles D i (fun _ _ => False) (f s)

/-- What a write of the task leaves due the rest of the task settles. `held` lists the guards
that the task holds. -/
def Honest (D : Duties ι L S) : Prog L S O C K Unit → List (L × Bool) → Prop
  | done _, _ => True
  | fail, _ => True
  | acquire l ex _ next, held => next.Honest D ((l, ex) :: held)
  | release l next, held => next.Honest D (Config.dropGuard l held)
  | read next, held => ∀ s, (next s).Honest D held
  | write _ f next, held => HonestWrite D held f next ∧ next.Honest D held
  | emit _ next, held => next.Honest D held
  | choose next, held => ∀ c, (next c).Honest D held

theorem honestWrite_of_harmless {f : S → S} (h : D.Harmless f) (held : List (L × Bool))
    (next : Prog L S O C K Unit) : HonestWrite D held f next :=
  fun s _ => ⟨(h s).1, fun i hdue hdue' => absurd ((h s).2 i hdue') hdue⟩

/-- What leaves nothing due may stand before an honest task. -/
theorem Only.honest_bind {A : L → Bool → Prop} {W : (S → S) → Prop} {E : O → Prop}
    {p : Prog L S O C K α} (h : p.Only A W E) (hW : ∀ f, W f → D.Harmless f)
    {f : α → Prog L S O C K Unit} (hf : ∀ a held, (f a).Honest D held) (held : List (L × Bool)) :
    (p >>= f).Honest D held := by
  show (p.bind f).Honest D held
  induction p generalizing held with
  | done a => exact hf a held
  | fail => trivial
  | acquire l ex site next ih => exact ih h.2 _
  | release l next ih => exact ih h _
  | read next ih => exact fun s => ih s (h s) held
  | write site g next ih => exact ⟨honestWrite_of_harmless (hW g h.1) held _, ih h.2 held⟩
  | emit o next ih => exact ih h.2 held
  | choose next ih => exact fun c => ih c (h c) held

/-- What leaves nothing due is honest. -/
theorem Only.honest {A : L → Bool → Prop} {W : (S → S) → Prop} {E : O → Prop}
    {p : Prog L S O C K Unit} (h : p.Only A W E) (hW : ∀ f, W f → D.Harmless f)
    (held : List (L × Bool)) : p.Honest D held := by
  have hend : ∀ (a : Unit) (held : List (L × Bool)), (done a : Prog L S O C K Unit).Honest D held :=
    fun _ _ => trivial
  rw [← bind_done p]
  exact h.honest_bind hW hend held

end Prog

/-- The task has ended. -/
def Thread.Ended (th : Thread L S O C K) : Prop :=
  match th.prog with
  | .done _ => True
  | _ => False

instance (th : Thread L S O C K) : Decidable th.Ended := by
  unfold Thread.Ended
  exact match th.prog with
    | .done _ | .fail | .acquire _ _ _ _ | .release _ _ | .read _ | .write _ _ _ | .emit _ _
    | .choose _ => inferInstance

namespace Config

/-- No task is running. -/
def AtRest (c : Config L S O C K) : Prop := ∀ th ∈ c.threads, th.Ended

instance (c : Config L S O C K) : Decidable c.AtRest :=
  inferInstanceAs (Decidable (∀ th ∈ c.threads, th.Ended))

/-- The write of the next step, if it is one, finds what `ok` says. -/
def Writes (ok : List (L × Bool) → S → (S → S) → Prop) (c : Config L S O C K) :
    Sched L S O C K → Prop
  | .spawn _ => True
  | .advance i _ =>
      match c.threads[i]? with
      | none => True
      | some th =>
          match th.prog with
          | .write _ f _ => ok th.held c.state f
          | _ => True

instance (ok : List (L × Bool) → S → (S → S) → Prop) [∀ held s f, Decidable (ok held s f)]
    (c : Config L S O C K) (a : Sched L S O C K) : Decidable (c.Writes ok a) := by
  unfold Writes
  exact match a with
    | .spawn _ => inferInstance
    | .advance i _ => by
        dsimp only
        exact match c.threads[i]? with
          | none => inferInstance
          | some ⟨prog, _, _⟩ =>
              match prog with
              | .done _ | .fail | .acquire _ _ _ _ | .release _ _ | .read _ | .write _ _ _
              | .emit _ _ | .choose _ => inferInstance

/-- What holds of every write holds of the next one. -/
theorem writes_of_forall {ok : List (L × Bool) → S → (S → S) → Prop}
    (h : ∀ held s f, ok held s f) (c : Config L S O C K) (a : Sched L S O C K) :
    c.Writes ok a := by
  unfold Writes
  split
  · trivial
  · split
    · trivial
    · split
      · exact h _ _ _
      · trivial

variable [DecidableEq L]

/-- All tasks are honest, and all that is due has a task that settles it. -/
structure Covered (D : Duties ι L S) (c : Config L S O C K) : Prop where
  honest : ∀ th ∈ c.threads, th.prog.Honest D th.held
  settled : ∀ i, D.due c.state i →
    ∃ th ∈ c.threads, th.prog.Settles D i (fun _ _ => False) c.state

variable {c c' : Config L S O C K}

/-- No tasks yet, and nothing due. -/
theorem Covered.initial {s : S} (h : ∀ i, ¬D.due s i) :
    Covered D (⟨s, [], []⟩ : Config L S O C K) where
  honest := fun _ hth => absurd hth List.not_mem_nil
  settled := fun i hi => absurd hi (h i)

/-- Once all tasks have ended nothing is due. -/
theorem Covered.atRest (h : c.Covered D) (hrest : c.AtRest) (i : ι) : ¬D.due c.state i := by
  intro hdue
  obtain ⟨th, hth, hsettles⟩ := h.settled i hdue
  have hended := hrest th hth
  unfold Thread.Ended at hended
  split at hended
  · rename_i heq
    rw [heq] at hsettles
    exact hsettles c.state (D.rely_refl _) hdue
  · exact hended

/-- A new honest task. -/
theorem Covered.spawn (h : c.Covered D) {p : Prog L S O C K Unit} (hp : p.Honest D []) :
    Covered D { c with threads := c.threads ++ [⟨p, [], []⟩] } where
  honest := fun th hth => by
    rcases List.mem_append.mp hth with hth | hth
    · exact h.honest th hth
    · obtain rfl := List.mem_singleton.mp hth
      exact hp
  settled := fun i hi => by
    obtain ⟨th, hth, hsettles⟩ := h.settled i hi
    exact ⟨th, List.mem_append_left _ hth, hsettles⟩

/-- Task `i` becomes `th'`, and the state `s`. What was due before and still is stays settled:
by another task, or by what is left of this one. -/
theorem Covered.update (h : c.Covered D) {i : Nat} {th th' : Thread L S O C K} {s : S}
    {out : List O} (hi : c.threads[i]? = some th) (hrely : D.rely c.state s)
    (hhonest : th'.prog.Honest D th'.held)
    (hkeep : ∀ j, D.due c.state j → D.due s j →
      th.prog.Settles D j (fun _ _ => False) c.state →
      th'.prog.Settles D j (fun _ _ => False) s)
    (hnew : ∀ j, ¬D.due c.state j → D.due s j → th'.prog.Settles D j (fun _ _ => False) s) :
    Covered D ⟨s, out, c.threads.set i th'⟩ where
  honest := fun th₂ hth₂ => by
    rcases List.mem_or_eq_of_mem_set hth₂ with hth₂ | rfl
    · exact h.honest th₂ hth₂
    · exact hhonest
  settled := fun j hj => by
    have hlt : i < c.threads.length := (List.getElem?_eq_some_iff.mp hi).1
    have hmoved : th' ∈ c.threads.set i th' :=
      List.mem_of_getElem? (List.getElem?_set_self hlt)
    by_cases hdue : D.due c.state j
    · obtain ⟨th₂, hth₂, hsettles⟩ := h.settled j hdue
      obtain ⟨k, hk⟩ := List.mem_iff_getElem?.mp hth₂
      by_cases hik : i = k
      · subst hik
        obtain rfl := Option.some.inj (hi.symm.trans hk)
        exact ⟨th', hmoved, hkeep j hdue hj hsettles⟩
      · exact ⟨th₂, List.mem_of_getElem? ((List.getElem?_set_ne hik).trans hk),
          hsettles.rely hrely⟩
    · exact ⟨th', hmoved, hnew j hdue hj⟩

/-- A step of honest tasks whose write finds what is assumed leaves all that is due with a task
that settles it. -/
theorem Covered.step (h : c.Covered D) {a : Sched L S O C K} (hok : c.Writes D.ok a)
    (hnew : ∀ p, a = .spawn p → p.Honest D []) (hstep : c.step a = some c') : c'.Covered D := by
  cases a with
  | spawn p =>
      obtain rfl := Option.some.inj hstep
      exact h.spawn (hnew p rfl)
  | advance i answer =>
      simp only [Config.step, Config.advance] at hstep
      cases hi : c.threads[i]? with
      | none => simp [hi] at hstep
      | some th =>
          obtain ⟨prog, held, memo⟩ := th
          have hhonest := h.honest _ (List.mem_of_getElem? hi)
          have hrefl := D.rely_refl c.state
          simp only [Config.Writes, hi] at hok hstep
          -- All actions but a write keep the state, so nothing becomes due.
          have hsame : ∀ j, ¬D.due c.state j → D.due c.state j → ∀ P : Prop, P :=
            fun j hno hyes _ => absurd hyes hno
          cases prog with
          | done a => cases hstep
          | fail =>
              obtain rfl := Option.some.inj hstep
              exact h.update hi hrefl trivial
                (fun j hdue _ hset => absurd hdue (hset _ hrefl))
                fun j hno hyes => hsame j hno hyes _
          | acquire l ex site next =>
              dsimp only at hstep
              split at hstep
              · obtain rfl := Option.some.inj hstep
                exact h.update hi hrefl hhonest (fun j _ _ hset => hset)
                  fun j hno hyes => hsame j hno hyes _
              · cases hstep
          | release l next =>
              obtain rfl := Option.some.inj hstep
              exact h.update hi hrefl hhonest (fun j _ _ hset => hset)
                fun j hno hyes => hsame j hno hyes _
          | read next =>
              obtain rfl := Option.some.inj hstep
              exact h.update hi hrefl (hhonest _) (fun j hdue _ hset => hset _ hrefl hdue)
                fun j hno hyes => hsame j hno hyes _
          | write site f next =>
              obtain rfl := Option.some.inj hstep
              obtain ⟨hrely, hleft⟩ := hhonest.1 c.state hok
              exact h.update hi hrely hhonest.2
                (fun j hdue hdue' hset => hset _ hrefl hdue hdue') hleft
          | emit o next =>
              obtain rfl := Option.some.inj hstep
              exact h.update hi hrefl hhonest (fun j _ _ hset => hset)
                fun j hno hyes => hsame j hno hyes _
          | choose next =>
              obtain rfl := Option.some.inj hstep
              exact h.update hi hrefl (hhonest answer) (fun j _ _ hset => hset answer)
                fun j hno hyes => hsame j hno hyes _

end Config

end RaftEbpf.Lib
