import Mathlib.Data.List.Basic

/-!
# `RaftEbpf.Lib.Prog`: programs over shared state and locks

A `Prog` is one task of a concurrent program: a tree of atomic actions on a shared state
`S`. A task takes and releases locks, reads and writes the shared state, hands values to
the outside (`emit`) and asks the environment for the outcome of an operation that may
fail (`choose`). `fail` ends the task early, as an error that propagates out of every
function does. Acquisitions and writes carry a `site`, the place in the program text.

The same program has three meanings:

* `Prog.run`: the task alone, lock waits aside. The result is a function of the state and
  of the environment's answers, and it composes (`run_bind`).
* `Prog.runLocked`: the task alone over locks that are not re-entrant. A task that asks for
  a lock it already holds is `blocked`, for good. A run that does not block computes what
  `run` computes (`runLocked_finished`), and where it ends is a matter of its parts
  (`endsWith_bind`).
* `Config.step`: any number of tasks, one atomic action at a time. A task that asks for a
  lock another task holds does not move.
-/

set_option autoImplicit false

namespace RaftEbpf.Lib

/-- A task: a tree of atomic actions over locks `L`, state `S`, outputs `O`, environment
answers `C` and program sites `K`, with a result of type `α`. -/
inductive Prog (L S O C K : Type) (α : Type) : Type where
  /-- The end of the task, with its result. -/
  | done (a : α)
  /-- The end of the task by an error. The guards it holds are dropped. -/
  | fail
  /-- Wait for the lock and take it. -/
  | acquire (l : L) (exclusive : Bool) (site : K) (next : Prog L S O C K α)
  /-- Drop the lock. -/
  | release (l : L) (next : Prog L S O C K α)
  /-- Read the shared state. -/
  | read (next : S → Prog L S O C K α)
  /-- Change the shared state. -/
  | write (site : K) (f : S → S) (next : Prog L S O C K α)
  /-- Hand a value to the outside. -/
  | emit (o : O) (next : Prog L S O C K α)
  /-- Ask the environment. -/
  | choose (next : C → Prog L S O C K α)

namespace Prog

variable {L S O C K : Type} {α β : Type}

/-- Sequencing. -/
def bind : Prog L S O C K α → (α → Prog L S O C K β) → Prog L S O C K β
  | done a, f => f a
  | fail, _ => fail
  | acquire l ex site next, f => acquire l ex site (next.bind f)
  | release l next, f => release l (next.bind f)
  | read next, f => read fun s => (next s).bind f
  | write site g next, f => write site g (next.bind f)
  | emit o next, f => emit o (next.bind f)
  | choose next, f => choose fun c => (next c).bind f

instance : Monad (Prog L S O C K) where
  pure := done
  bind := bind

/-- A sequence with nothing after it. -/
theorem bind_done (p : Prog L S O C K α) : p >>= done = p := by
  show p.bind done = p
  induction p with
  | done a => rfl
  | fail => rfl
  | acquire l ex site next ih => rw [bind, ih]
  | release l next ih => rw [bind, ih]
  | read next ih => exact congrArg read (funext ih)
  | write site g next ih => rw [bind, ih]
  | emit o next ih => rw [bind, ih]
  | choose next ih => exact congrArg choose (funext ih)

/-! ### The task alone -/

/-- What a task leaves behind when it runs alone: its result (`none` after `fail`), the
state, its outputs in order and the answers the environment has not given yet. -/
structure Result (S O C α : Type) where
  value : Option α
  state : S
  out : List O
  rest : List C

/-- Go on with a second task where the first one ended with a value. -/
def Result.andThen (r : Result S O C α) (f : α → List C → S → Result S O C β) :
    Result S O C β :=
  match r.value with
  | none => ⟨none, r.state, r.out, r.rest⟩
  | some a =>
      let r' := f a r.rest r.state
      ⟨r'.value, r'.state, r.out ++ r'.out, r'.rest⟩

@[simp] theorem Result.andThen_some (a : α) (s : S) (out : List O) (cs : List C)
    (f : α → List C → S → Result S O C β) :
    (Result.mk (some a) s out cs).andThen f
      = ⟨(f a cs s).value, (f a cs s).state, out ++ (f a cs s).out, (f a cs s).rest⟩ := rfl

@[simp] theorem Result.andThen_none (s : S) (out : List O) (cs : List C)
    (f : α → List C → S → Result S O C β) :
    (Result.mk (none : Option α) s out cs).andThen f = ⟨none, s, out, cs⟩ := rfl

/-- The task alone, lock waits aside. The environment answers from the list, and with its
default once the list is used up. -/
def run [Inhabited C] : Prog L S O C K α → List C → S → Result S O C α
  | done a, cs, s => ⟨some a, s, [], cs⟩
  | fail, cs, s => ⟨none, s, [], cs⟩
  | acquire _ _ _ next, cs, s => next.run cs s
  | release _ next, cs, s => next.run cs s
  | read next, cs, s => (next s).run cs s
  | write _ f next, cs, s => next.run cs (f s)
  | emit o next, cs, s =>
      let r := next.run cs s
      ⟨r.value, r.state, o :: r.out, r.rest⟩
  | choose next, cs, s => (next (cs.headD default)).run cs.tail s

section Run
variable [Inhabited C]

@[simp] theorem run_pure (a : α) (cs : List C) (s : S) :
    (pure a : Prog L S O C K α).run cs s = ⟨some a, s, [], cs⟩ := rfl

/-- The run of a sequence is the sequence of the runs. -/
theorem run_bind (p : Prog L S O C K α) (f : α → Prog L S O C K β) (cs : List C) (s : S) :
    (p >>= f).run cs s = (p.run cs s).andThen fun a cs' s' => (f a).run cs' s' := by
  show (p.bind f).run cs s = _
  induction p generalizing cs s with
  | done a => rfl
  | fail => rfl
  | acquire l ex site next ih => exact ih cs s
  | release l next ih => exact ih cs s
  | read next ih => exact ih s cs s
  | write site g next ih => exact ih cs (g s)
  | emit o next ih =>
      show (⟨_, _, o :: _, _⟩ : Result S O C β) = _
      rw [ih cs s]
      simp only [run, Result.andThen]
      cases (next.run cs s).value with
      | none => rfl
      | some a => rfl
  | choose next ih => exact ih (cs.headD default) cs.tail s

end Run

/-! ### The task alone over locks that are not re-entrant -/

/-- How a task alone ends over locks that are not re-entrant. -/
inductive LockedResult (L S O : Type) where
  /-- It asked for a lock it holds, and waits for ever. -/
  | blocked (state : S) (out : List O)
  /-- It ended, by its last action or by an error, with these locks still held. -/
  | finished (ok : Bool) (state : S) (out : List O) (held : List L)
  deriving DecidableEq

/-- The outcome with one output in front. -/
def LockedResult.prepend (o : O) : LockedResult L S O → LockedResult L S O
  | blocked s out => blocked s (o :: out)
  | finished ok s out held => finished ok s (o :: out) held

/-- The task alone, over locks it must not take twice. `held` lists what it holds. -/
def runLocked [Inhabited C] [DecidableEq L] :
    Prog L S O C K α → List C → S → List L → LockedResult L S O
  | done _, _, s, held => .finished true s [] held
  | fail, _, s, _ => .finished false s [] []
  | acquire l _ _ next, cs, s, held =>
      if l ∈ held then .blocked s [] else next.runLocked cs s (l :: held)
  | release l next, cs, s, held => next.runLocked cs s (held.erase l)
  | read next, cs, s, held => (next s).runLocked cs s held
  | write _ f next, cs, s, held => next.runLocked cs (f s) held
  | emit o next, cs, s, held => (next.runLocked cs s held).prepend o
  | choose next, cs, s, held => (next (cs.headD default)).runLocked cs.tail s held

/-- A task that does not block on itself computes what it computes with lock waits
aside. -/
theorem runLocked_finished [Inhabited C] [DecidableEq L] (p : Prog L S O C K α)
    {cs : List C} {s s' : S} {held held' : List L} {ok : Bool} {out : List O}
    (h : p.runLocked cs s held = .finished ok s' out held') :
    (p.run cs s).value.isSome = ok ∧ (p.run cs s).state = s' ∧ (p.run cs s).out = out := by
  induction p generalizing cs s held out with
  | done a =>
      simp only [runLocked, LockedResult.finished.injEq] at h
      obtain ⟨rfl, rfl, rfl, -⟩ := h
      exact ⟨rfl, rfl, rfl⟩
  | fail =>
      simp only [runLocked, LockedResult.finished.injEq] at h
      obtain ⟨rfl, rfl, rfl, -⟩ := h
      exact ⟨rfl, rfl, rfl⟩
  | acquire l ex site next ih =>
      rw [runLocked] at h
      split at h
      · exact absurd h (by simp)
      · exact ih h
  | release l next ih => exact ih h
  | read next ih => exact ih s h
  | write site g next ih => exact ih h
  | emit o next ih =>
      rw [runLocked] at h
      cases hn : next.runLocked cs s held with
      | blocked sb outb => simp [hn, LockedResult.prepend] at h
      | finished okn sn outn heldn =>
          simp only [hn, LockedResult.prepend, LockedResult.finished.injEq] at h
          obtain ⟨rfl, rfl, rfl, rfl⟩ := h
          obtain ⟨h1, h2, h3⟩ := ih hn
          exact ⟨h1, h2, congrArg (o :: ·) h3⟩
  | choose next ih => exact ih (cs.headD default) h

section Locked
variable [Inhabited C] [DecidableEq L]

/-- The task alone never asks for a lock it holds, and it ends with a value, such that the
value, the answers left, the state and the locks still held satisfy `post`. -/
def EndsWith : Prog L S O C K α → List C → S → List L → (α → List C → S → List L → Prop) → Prop
  | done a, cs, s, held, post => post a cs s held
  | fail, _, _, _, _ => False
  | acquire l _ _ next, cs, s, held, post => l ∉ held ∧ next.EndsWith cs s (l :: held) post
  | release l next, cs, s, held, post => next.EndsWith cs s (held.erase l) post
  | read next, cs, s, held, post => (next s).EndsWith cs s held post
  | write _ f next, cs, s, held, post => next.EndsWith cs (f s) held post
  | emit _ next, cs, s, held, post => next.EndsWith cs s held post
  | choose next, cs, s, held, post => (next (cs.headD default)).EndsWith cs.tail s held post

/-- A sequence ends where its second part ends, started where the first part ends. -/
theorem endsWith_bind (p : Prog L S O C K α) (f : α → Prog L S O C K β) (cs : List C) (s : S)
    (held : List L) (post : β → List C → S → List L → Prop) :
    (p >>= f).EndsWith cs s held post ↔
      p.EndsWith cs s held fun a cs' s' held' => (f a).EndsWith cs' s' held' post := by
  show (p.bind f).EndsWith cs s held post ↔ _
  induction p generalizing cs s held with
  | done a => exact Iff.rfl
  | fail => exact Iff.rfl
  | acquire l ex site next ih => exact and_congr_right fun _ => ih cs s (l :: held)
  | release l next ih => exact ih cs s (held.erase l)
  | read next ih => exact ih s cs s held
  | write site g next ih => exact ih cs (g s) held
  | emit o next ih => exact ih cs s held
  | choose next ih => exact ih (cs.headD default) cs.tail s held

/-- `EndsWith` speaks of the outcome of `runLocked`. -/
theorem endsWith_iff_runLocked (p : Prog L S O C K α) (cs : List C) (s : S) (held : List L)
    (post : List L → Prop) : (p.EndsWith cs s held fun _ _ _ held' => post held') ↔
      ∃ s' out held', p.runLocked cs s held = .finished true s' out held' ∧ post held' := by
  induction p generalizing cs s held with
  | done a => simp [EndsWith, runLocked]
  | fail => simp [EndsWith, runLocked]
  | acquire l ex site next ih =>
      by_cases h : l ∈ held
      · simp [EndsWith, runLocked, h]
      · simp [EndsWith, runLocked, h, ih]
  | release l next ih => exact ih cs s (held.erase l)
  | read next ih => exact ih s cs s held
  | write site g next ih => exact ih cs (g s) held
  | emit o next ih =>
      rw [EndsWith, ih, runLocked]
      cases next.runLocked cs s held with
      | blocked sb outb => simp [LockedResult.prepend]
      | finished ok sf outf heldf => simp [LockedResult.prepend]
  | choose next ih => exact ih (cs.headD default) cs.tail s held

end Locked

end Prog

/-! ### Any number of tasks -/

/-- One running task: what is left of it, the locks it holds (with the mode), and its own
outputs so far. -/
structure Thread (L S O C K : Type) where
  prog : Prog L S O C K Unit
  held : List (L × Bool)
  memo : List O

/-- A concurrent configuration: the shared state, all outputs in order, and the tasks. -/
structure Config (L S O C K : Type) where
  state : S
  out : List O
  threads : List (Thread L S O C K)

/-- One choice of the scheduler: start a task, or let task `i` do its next action (with
the environment's answer, where it asks). -/
inductive Sched (L S O C K : Type) where
  | spawn (p : Prog L S O C K Unit)
  | advance (i : Nat) (c : C)

namespace Config

variable {L S O C K : Type} [DecidableEq L]

/-- A task may take the lock: no task holds it in a conflicting mode, itself included. -/
def Free (c : Config L S O C K) (l : L) (exclusive : Bool) : Prop :=
  ∀ th ∈ c.threads, ∀ h ∈ th.held, h.1 = l → exclusive = false ∧ h.2 = false

instance (c : Config L S O C K) (l : L) (exclusive : Bool) : Decidable (c.Free l exclusive) :=
  inferInstanceAs (Decidable (∀ th ∈ c.threads, ∀ h ∈ th.held, h.1 = l → _))

/-- Drop the first guard of the lock. -/
def dropGuard (l : L) (held : List (L × Bool)) : List (L × Bool) :=
  held.eraseP (fun h => decide (h.1 = l))

/-- The configuration after task `i` became `th`. -/
def update (c : Config L S O C K) (i : Nat) (th : Thread L S O C K) : Config L S O C K :=
  { c with threads := c.threads.set i th }

/-- The next action of task `i`. `none`: there is no such task, it has ended, or it waits
for a lock. -/
def advance (c : Config L S O C K) (i : Nat) (answer : C) : Option (Config L S O C K) :=
  match c.threads[i]? with
  | none => none
  | some th =>
      match th.prog with
      | .done _ => none
      | .fail => some (c.update i { th with prog := .done (), held := [] })
      | .acquire l ex _ next =>
          if c.Free l ex then
            some (c.update i { th with prog := next, held := (l, ex) :: th.held })
          else none
      | .release l next =>
          some (c.update i { th with prog := next, held := dropGuard l th.held })
      | .read next => some (c.update i { th with prog := next c.state })
      | .write _ f next =>
          some { c.update i { th with prog := next } with state := f c.state }
      | .emit o next =>
          some { c.update i { th with prog := next, memo := th.memo ++ [o] } with
            out := c.out ++ [o] }
      | .choose next => some (c.update i { th with prog := next answer })

/-- The next step finds what an assumption about sites of the program says, given the state
and the outputs of the task that moves, and the environment answers as assumed. -/
def Finds (site : K → List O → S → Prop) (answers : C → Prop) (c : Config L S O C K) :
    Sched L S O C K → Prop
  | .spawn _ => True
  | .advance i answer =>
      match c.threads[i]? with
      | none => True
      | some th =>
          match th.prog with
          | .acquire _ _ k _ => site k th.memo c.state
          | .write k _ _ => site k th.memo c.state
          | .choose _ => answers answer
          | _ => True

instance (site : K → List O → S → Prop) (answers : C → Prop)
    [∀ k memo s, Decidable (site k memo s)] [DecidablePred answers] (c : Config L S O C K)
    (a : Sched L S O C K) : Decidable (c.Finds site answers a) := by
  unfold Finds
  exact match a with
    | .spawn _ => inferInstance
    | .advance i _ => by
        dsimp only
        exact match c.threads[i]? with
          | none => inferInstance
          | some ⟨prog, _, _⟩ =>
              match prog with
              | .done _ | .fail | .acquire _ _ _ _ | .release _ _ | .read _ | .write _ _ _
              | .emit _ _ | .choose _ => inferInstance

/-- One step of the scheduler. -/
def step (c : Config L S O C K) : Sched L S O C K → Option (Config L S O C K)
  | .spawn p => some { c with threads := c.threads ++ [⟨p, [], []⟩] }
  | .advance i answer => c.advance i answer

end Config

end RaftEbpf.Lib
