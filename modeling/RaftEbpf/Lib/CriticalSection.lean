import RaftEbpf.Lib.LockQueue
import RaftEbpf.Lib.RelyGuarantee

/-!
# `RaftEbpf.Lib.CriticalSection`: tasks that have the mutex for a while

Most of a task runs without the mutex of a `Discipline`. Such a task is put together from parts
that start and end without it (`Prog.Tidy`): `Tidy.bind` for a sequence, `Only.tidy` for a part
that never takes the mutex. What is left to look at is each part that takes it.

`Queued.config_step` brings the results about `Config` to fair locks: a task that joins the queue
of a lock leaves the configuration as it is.
-/

set_option autoImplicit false

namespace RaftEbpf.Lib

variable {L S O C K : Type} {α β : Type} [DecidableEq L] {D : Discipline L S O C K}

namespace Prog

/-- A sequence is safe where its second part is, from wherever the first one ends. -/
theorem Safe.bind {p : Prog L S O C K α} {f : α → Prog L S O C K β} {held : Bool} {memo : List O}
    {Q : β → Bool → List O → World S O → Prop} {w : World S O}
    (h : p.Safe D held memo (fun a held' memo' w' => (f a).Safe D held' memo' Q w') w) :
    (p >>= f).Safe D held memo Q w := by
  show (p.bind f).Safe D held memo Q w
  induction p generalizing held memo w with
  | done a => exact h w (D.rely_refl held w)
  | fail => exact h
  | acquire l ex site next ih =>
      intro w' hw hs
      have h' := h w' hw hs
      split
      · rename_i hl
        rw [if_pos hl] at h'
        exact ⟨h'.1, fun hheld hinv => ih (h'.2 hheld hinv)⟩
      · rename_i hl
        rw [if_neg hl] at h'
        exact ih h'
  | release l next ih =>
      intro w' hw
      have h' := h w' hw
      split
      · rename_i hl
        rw [if_pos hl] at h'
        exact ⟨h'.1, ih h'.2⟩
      · rename_i hl
        rw [if_neg hl] at h'
        exact ih h'
  | read next ih => exact fun w' hw => ih w'.state (h w' hw)
  | write site g next ih => exact fun w' hw hm hs => ⟨(h w' hw hm hs).1, ih (h w' hw hm hs).2⟩
  | emit o next ih => exact fun w' hw => ⟨(h w' hw).1, ih (h w' hw).2⟩
  | choose next ih => exact fun c hc w' hw => ih c (h c hc w' hw)

/-- In any world the task starts without the mutex, keeps to the discipline and ends without the
mutex. -/
def Tidy (D : Discipline L S O C K) (p : Prog L S O C K α) : Prop :=
  ∀ memo w, p.Safe D false memo (fun _ held _ _ => held = false) w

theorem tidy_pure (a : α) : (pure a : Prog L S O C K α).Tidy D := fun _ _ _ _ => rfl

theorem Tidy.bind {p : Prog L S O C K α} {f : α → Prog L S O C K β} (hp : p.Tidy D)
    (hf : ∀ a, (f a).Tidy D) : (p >>= f).Tidy D := by
  intro memo w
  refine Safe.bind ((hp memo w).mono fun a held memo' w' hheld => ?_)
  subst hheld
  exact hf a memo' w'

/-- The rest of a task that has let the mutex go. -/
theorem Tidy.safe {p : Prog L S O C K Unit} (hp : p.Tidy D) (w : World S O) :
    p.Safe D false [] (fun _ _ _ _ => True) w :=
  (hp [] w).mono fun _ _ _ _ _ => trivial

/-- A task that never takes the mutex. -/
theorem Only.tidy {A : L → Bool → Prop} {W : (S → S) → Prop} {E : O → Prop} {p : Prog L S O C K α}
    (hp : p.Only A W E) (hA : ∀ l ex, A l ex → l ≠ D.mutex)
    (hW : ∀ f, W f → ∀ w, D.guar false w (w.write f))
    (hE : ∀ o, E o → ∀ w, D.guar false w (w.emit o)) : p.Tidy D := by
  intro memo w
  induction p generalizing memo w with
  | done a => exact fun _ _ => rfl
  | fail => exact fun _ _ => nofun
  | acquire l ex site next ih =>
      intro w' _ _
      rw [if_neg (hA l ex hp.1)]
      exact ih hp.2 memo w'
  | release l next ih =>
      -- A lock that is dropped may be the mutex, which the task does not have.
      intro w' _
      split
      · exact ⟨nofun, ih hp memo w'⟩
      · exact ih hp memo w'
  | read next ih => exact fun w' _ => ih w'.state (hp _) memo w'
  | write site g next ih => exact fun w' _ _ _ => ⟨hW g hp.1 w', ih hp.2 memo _⟩
  | emit o next ih => exact fun w' _ => ⟨hE o hp.1 w', ih hp.2 _ _⟩
  | choose next ih => exact fun c _ w' _ => ih c (hp c) memo w'

end Prog

/-! ### Configurations -/

omit [DecidableEq L] in
/-- Where nothing is assumed, each step finds what is assumed. -/
theorem Config.finds_of_forall {site : K → List O → S → Prop} {answers : C → Prop}
    (hsite : ∀ k memo s, site k memo s) (hanswers : ∀ c, answers c) (c : Config L S O C K)
    (a : Sched L S O C K) : c.Finds site answers a := by
  unfold Finds
  split
  · trivial
  · split
    · trivial
    · split
      · exact hsite _ _ _
      · exact hsite _ _ _
      · exact hanswers _
      · trivial

/-- A step over fair locks is a step, or a task joins the queue. -/
theorem Queued.config_step {c c' : Queued L S O C K} {a : Sched L S O C K}
    (h : c.step a = some c') : c'.config = c.config ∨ c.config.step a = some c'.config := by
  cases a with
  | spawn p =>
      rw [step] at h
      obtain ⟨config, hconfig, rfl⟩ := Option.map_eq_some_iff.mp h
      exact Or.inr hconfig
  | advance i answer =>
      rw [step] at h
      split at h
      · obtain ⟨config, hconfig, rfl⟩ := Option.map_eq_some_iff.mp h
        exact Or.inr hconfig
      · split at h
        · split at h
          · cases h
          · obtain rfl := Option.some.inj h
            exact Or.inl rfl
        · obtain ⟨config, hconfig, rfl⟩ := Option.map_eq_some_iff.mp h
          exact Or.inr hconfig

end RaftEbpf.Lib
