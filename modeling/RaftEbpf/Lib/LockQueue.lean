import Mathlib.Data.Finset.Max
import Mathlib.Data.List.TakeWhile
import RaftEbpf.Lib.Prog
import RaftEbpf.Lib.Run

/-!
# `RaftEbpf.Lib.LockQueue`: tasks over fair locks, and deadlocks

`Config` lets a task take a lock whenever no guard excludes it. Here the locks are fair: a
task that cannot take its lock at once joins a queue, and a request waits for the guards and
for the earlier requests that exclude it. So a writer that waits holds up the readers behind
it, and readers that stand next to each other are let in together.

A set of tasks is `Deadlocked` where each of them waits for a lock that another one of them
holds. `Deadlocked.exists_inversion` is the lock order argument: whatever the order, one task
of the set waits for a lock that does not come behind one that it holds.

`Prog.Acquires` collects what a program holds wherever it asks for a lock, and composes
(`acquires_bind`). `Sound` is the invariant of all runs in which no task asks for a lock that
it holds (`Sound.step`).

`Unhindered` is for a request that may come against the order: no guard and no earlier
request of one mode stands in its way for good. What holds when a task asks holds as long as
it waits (`Unhindered.step`).
-/

set_option autoImplicit false

namespace RaftEbpf.Lib

variable {L S O C K : Type} {α β : Type}

/-! ### What a program holds where it asks for a lock -/

section Acquires
variable [DecidableEq L]

/-- `ok` holds of each acquisition of the program, with the guards it has there, and `post` of
the guards at its end. -/
def Prog.Acquires (ok : List (L × Bool) → L → Bool → Prop) : Prog L S O C K α →
    List (L × Bool) → (α → List (L × Bool) → Prop) → Prop
  | .done a, held, post => post a held
  | .fail, _, _ => True
  | .acquire l ex _ next, held, post => ok held l ex ∧ next.Acquires ok ((l, ex) :: held) post
  | .release l next, held, post => next.Acquires ok (Config.dropGuard l held) post
  | .read next, held, post => ∀ s, (next s).Acquires ok held post
  | .write _ _ next, held, post => next.Acquires ok held post
  | .emit _ next, held, post => next.Acquires ok held post
  | .choose next, held, post => ∀ c, (next c).Acquires ok held post

variable {ok : List (L × Bool) → L → Bool → Prop} {held : List (L × Bool)}

/-- A sequence is checked part by part. -/
theorem Prog.acquires_bind (p : Prog L S O C K α) (f : α → Prog L S O C K β)
    (post : β → List (L × Bool) → Prop) :
    (p >>= f).Acquires ok held post ↔
      p.Acquires ok held fun a held' => (f a).Acquires ok held' post := by
  show (p.bind f).Acquires ok held post ↔ _
  induction p generalizing held with
  | done a => exact Iff.rfl
  | fail => exact Iff.rfl
  | acquire l ex site next ih => exact and_congr_right fun _ => ih
  | release l next ih => exact ih
  | read next ih => exact forall_congr' fun s => ih s
  | write site g next ih => exact ih
  | emit o next ih => exact ih
  | choose next ih => exact forall_congr' fun c => ih c

/-- What is left of a task is checked. -/
def Thread.Acquires (ok : List (L × Bool) → L → Bool → Prop) (th : Thread L S O C K) : Prop :=
  th.prog.Acquires ok th.held fun _ _ => True

end Acquires

/-! ### Fair locks -/

/-- A task that has asked for a lock. -/
structure Request (L : Type) where
  task : Nat
  lock : L
  exclusive : Bool
  deriving DecidableEq

/-- A configuration over fair locks, with the requests that wait in order of arrival. -/
structure Queued (L S O C K : Type) where
  config : Config L S O C K
  queue : List (Request L)

namespace Queued

/-- The guards of task `i`. -/
def heldBy (c : Queued L S O C K) (i : Nat) : List (L × Bool) :=
  match c.config.threads[i]? with
  | some th => th.held
  | none => []

/-- The lock that task `i` asks for next. -/
def asks (c : Queued L S O C K) (i : Nat) : Option (L × Bool) :=
  match c.config.threads[i]? with
  | some ⟨.acquire l ex _ _, _, _⟩ => some (l, ex)
  | _ => none

/-- The next action of task `i` drops the lock. -/
def Drops (c : Queued L S O C K) (i : Nat) (l : L) : Prop :=
  match c.config.threads[i]? with
  | some ⟨.release l' _, _, _⟩ => l' = l
  | _ => False

instance [DecidableEq L] (c : Queued L S O C K) (i : Nat) (l : L) : Decidable (c.Drops i l) := by
  unfold Drops
  exact match c.config.threads[i]? with
    | some ⟨prog, _, _⟩ =>
        match prog with
        | .done _ | .fail | .acquire _ _ _ _ | .release _ _ | .read _ | .write _ _ _ | .emit _ _
        | .choose _ => inferInstance
    | none => inferInstance

/-- The requests before the one of task `i`; all of them where it has none. -/
def before (i : Nat) (rs : List (Request L)) : List (Request L) :=
  rs.takeWhile fun r => decide (r.task ≠ i)

/-- The requests that came before the one of task `i`, or before it asks. -/
def ahead (c : Queued L S O C K) (i : Nat) : List (Request L) := before i c.queue

/-- A guard or an earlier request excludes task `i` from the lock. -/
def MustWait (c : Queued L S O C K) (i : Nat) (l : L) (ex : Bool) : Prop :=
  ¬ c.config.Free l ex ∨ ∃ r ∈ c.ahead i, r.lock = l ∧ (ex = true ∨ r.exclusive = true)

instance [DecidableEq L] (c : Queued L S O C K) (i : Nat) (l : L) (ex : Bool) :
    Decidable (c.MustWait i l ex) :=
  inferInstanceAs (Decidable (¬ c.config.Free l ex ∨ ∃ r ∈ c.ahead i, _))

/-- One step of the scheduler. A task takes its lock, or joins the queue, or does not move. -/
def step [DecidableEq L] (c : Queued L S O C K) : Sched L S O C K → Option (Queued L S O C K)
  | .spawn p => (c.config.step (.spawn p)).map fun config => { c with config }
  | .advance i answer =>
      match c.asks i with
      | none => (c.config.advance i answer).map fun config => { c with config }
      | some (l, ex) =>
          if c.MustWait i l ex then
            if ∃ r ∈ c.queue, r.task = i then none
            else some { c with queue := c.queue ++ [⟨i, l, ex⟩] }
          else
            (c.config.advance i answer).map fun config =>
              { config, queue := c.queue.filter fun r => decide (r.task ≠ i) }

/-- Task `i` has asked for the lock and cannot take it. -/
def Waits (c : Queued L S O C K) (i : Nat) (l : L) : Prop :=
  ∃ ex, ⟨i, l, ex⟩ ∈ c.queue ∧ c.MustWait i l ex

/-- Task `i` has a guard of the lock. -/
def Holds (c : Queued L S O C K) (i : Nat) (l : L) : Prop := ∃ ex, (l, ex) ∈ c.heldBy i

/-- Each task of the set waits for a lock that another task of the set holds. -/
def Deadlocked (c : Queued L S O C K) (tasks : Finset Nat) : Prop :=
  tasks.Nonempty ∧ ∀ i ∈ tasks, ∃ l, c.Waits i l ∧ ∃ j ∈ tasks, j ≠ i ∧ c.Holds j l

/-- The next action of a task does not ask for a lock that the task holds. -/
def NotAgain (c : Queued L S O C K) : Sched L S O C K → Prop
  | .spawn _ => True
  | .advance i _ =>
      match c.asks i with
      | some (l, _) => l ∉ (c.heldBy i).map Prod.fst
      | none => True

instance [DecidableEq L] (c : Queued L S O C K) (a : Sched L S O C K) :
    Decidable (c.NotAgain a) := by
  unfold NotAgain
  exact match a with
    | .spawn _ => inferInstance
    | .advance i _ => by
        dsimp only
        exact match c.asks i with
          | some (_, _) => inferInstance
          | none => inferInstance

theorem NotAgain.notMem {c : Queued L S O C K} {i : Nat} {answer : C}
    (h : c.NotAgain (.advance i answer)) {l : L} {ex : Bool} (hasks : c.asks i = some (l, ex)) :
    l ∉ (c.heldBy i).map Prod.fst := by
  simpa only [NotAgain, hasks] using h

/-- Of the tasks of a deadlocked set, one that holds a lock of the highest rank that the set
waits for waits for a lock whose rank is not higher. -/
theorem Deadlocked.exists_inversion {c : Queued L S O C K} {tasks : Finset Nat}
    (h : c.Deadlocked tasks) (rank : L → Nat) :
    ∃ i ∈ tasks, ∃ l l', c.Waits i l ∧ c.Holds i l' ∧ rank l ≤ rank l' ∧
      ∃ j ∈ tasks, j ≠ i ∧ c.Holds j l := by
  obtain ⟨⟨i₀, hi₀⟩, hwait⟩ := h
  obtain ⟨l₀, -⟩ := hwait i₀ hi₀
  have hlock : ∀ i, ∃ l, i ∈ tasks → c.Waits i l ∧ ∃ j ∈ tasks, j ≠ i ∧ c.Holds j l := by
    intro i
    by_cases hi : i ∈ tasks
    · obtain ⟨l, hl⟩ := hwait i hi
      exact ⟨l, fun _ => hl⟩
    · exact ⟨l₀, fun hi' => absurd hi' hi⟩
  choose lock hlock using hlock
  obtain ⟨i, hi, hmax⟩ := tasks.exists_max_image (fun i => rank (lock i)) ⟨i₀, hi₀⟩
  obtain ⟨-, j, hj, -, hholds⟩ := hlock i hi
  obtain ⟨hwaits, hnext⟩ := hlock j hj
  exact ⟨j, hj, lock j, lock i, hwaits, hholds, hmax j hj, hnext⟩

/-! ### One step -/

section Step
variable [DecidableEq L]

/-- The next action of a task changes only this task, and its guards as the action says. -/
theorem advance_cases {c c' : Config L S O C K} {i : Nat} {answer : C}
    (h : c.advance i answer = some c') :
    ∃ th th', c.threads[i]? = some th ∧ c'.threads[i]? = some th' ∧
      (∀ j, j ≠ i → c'.threads[j]? = c.threads[j]?) ∧
      (∀ ok, th.Acquires ok → th'.Acquires ok) ∧
      match th.prog with
      | .acquire l ex _ _ => c.Free l ex ∧ th'.held = (l, ex) :: th.held
      | .release l _ => th'.held = Config.dropGuard l th.held
      | _ => th'.held.Sublist th.held := by
  have hset : ∀ {th th' : Thread L S O C K}, c.threads[i]? = some th →
      (c.threads.set i th')[i]? = some th' ∧
        ∀ j, j ≠ i → (c.threads.set i th')[j]? = c.threads[j]? := by
    intro th th' hth
    have hi := (List.getElem?_eq_some_iff.mp hth).1
    exact ⟨List.getElem?_set_self hi, fun j hj => List.getElem?_set_ne (Ne.symm hj)⟩
  rw [Config.advance] at h
  cases hth : c.threads[i]? with
  | none =>
      rw [hth] at h
      cases h
  | some th =>
      obtain ⟨prog, held, memo⟩ := th
      rw [hth] at h
      cases prog with
      | done a => cases h
      | fail =>
          obtain rfl := Option.some.inj h
          exact ⟨_, _, rfl, (hset hth).1, (hset hth).2, fun ok _ => trivial, List.nil_sublist _⟩
      | acquire l ex site next =>
          simp only at h
          split at h
          · rename_i hfree
            obtain rfl := Option.some.inj h
            exact ⟨_, _, rfl, (hset hth).1, (hset hth).2, fun ok hok => hok.2, hfree, rfl⟩
          · cases h
      | release l next =>
          obtain rfl := Option.some.inj h
          exact ⟨_, _, rfl, (hset hth).1, (hset hth).2, fun ok hok => hok, rfl⟩
      | read next =>
          obtain rfl := Option.some.inj h
          exact ⟨_, _, rfl, (hset hth).1, (hset hth).2, fun ok hok => hok c.state,
            List.Sublist.refl _⟩
      | write site f next =>
          obtain rfl := Option.some.inj h
          exact ⟨_, _, rfl, (hset hth).1, (hset hth).2, fun ok hok => hok, List.Sublist.refl _⟩
      | emit o next =>
          obtain rfl := Option.some.inj h
          exact ⟨_, _, rfl, (hset hth).1, (hset hth).2, fun ok hok => hok, List.Sublist.refl _⟩
      | choose next =>
          obtain rfl := Option.some.inj h
          exact ⟨_, _, rfl, (hset hth).1, (hset hth).2, fun ok hok => hok answer,
            List.Sublist.refl _⟩

/-- What is left of each task is checked. -/
def Acquires (ok : List (L × Bool) → L → Bool → Prop) (c : Queued L S O C K) : Prop :=
  ∀ (i : Nat) (th : Thread L S O C K), c.config.threads[i]? = some th → th.Acquires ok

omit [DecidableEq L] in
theorem heldBy_eq {c : Queued L S O C K} {i : Nat} {th : Thread L S O C K}
    (h : c.config.threads[i]? = some th) : c.heldBy i = th.held := by
  rw [heldBy, h]

omit [DecidableEq L] in
/-- A task that asks for a lock stands before an acquisition. -/
theorem prog_of_asks {c : Queued L S O C K} {i : Nat} {l : L} {ex : Bool}
    (h : c.asks i = some (l, ex)) : ∃ th site next, c.config.threads[i]? = some th ∧
      th.prog = .acquire l ex site next := by
  unfold asks at h
  split at h
  · rename_i l' ex' site next held memo hth
    obtain ⟨rfl, rfl⟩ := Prod.mk.inj (Option.some.inj h)
    exact ⟨_, site, next, hth, rfl⟩
  · cases h

omit [DecidableEq L] in
/-- A task that drops a lock stands before its release. -/
theorem prog_of_drops {c : Queued L S O C K} {i : Nat} {l : L} (h : c.Drops i l) :
    ∃ th next, c.config.threads[i]? = some th ∧ th.prog = .release l next := by
  unfold Drops at h
  split at h
  · rename_i l' next held memo hth
    subst h
    exact ⟨_, next, hth, rfl⟩
  · exact h.elim

/-- The other tasks are as before. -/
theorem acquires_of_frame {c c' : Queued L S O C K} {i : Nat} {th th' : Thread L S O C K}
    (hth : c.config.threads[i]? = some th) (hth' : c'.config.threads[i]? = some th')
    (hframe : ∀ j, j ≠ i → c'.config.threads[j]? = c.config.threads[j]?)
    (hok : ∀ ok, th.Acquires ok → th'.Acquires ok) (ok : List (L × Bool) → L → Bool → Prop)
    (h : c.Acquires ok) : c'.Acquires ok := by
  intro j th₀ hj
  by_cases hji : j = i
  · subst hji
    obtain rfl : th' = th₀ := Option.some.inj (hth'.symm.trans hj)
    exact hok ok (h j th hth)
  · exact h j th₀ ((hframe j hji).symm.trans hj)

/-- What a step of the scheduler does. -/
inductive Effect (c c' : Queued L S O C K) : Sched L S O C K → Prop where
  /-- A task starts, without guards. -/
  | spawn (p : Prog L S O C K Unit)
      (threads : c'.config.threads = c.config.threads ++ [⟨p, [], []⟩])
      (queue : c'.queue = c.queue) : Effect c c' (.spawn p)
  /-- A task joins the queue. -/
  | ask {i : Nat} {answer : C} {l : L} {ex : Bool} (asks : c.asks i = some (l, ex))
      (wait : c.MustWait i l ex) (fresh : ∀ r ∈ c.queue, r.task ≠ i)
      (config : c'.config = c.config) (queue : c'.queue = c.queue ++ [⟨i, l, ex⟩]) :
      Effect c c' (.advance i answer)
  /-- A task takes its lock. -/
  | take {i : Nat} {answer : C} {l : L} {ex : Bool} (asks : c.asks i = some (l, ex))
      (go : ¬ c.MustWait i l ex)
      (frame : ∀ j, j ≠ i → c'.config.threads[j]? = c.config.threads[j]?)
      (held : c'.heldBy i = (l, ex) :: c.heldBy i)
      (acquires : ∀ ok, c.Acquires ok → c'.Acquires ok)
      (queue : c'.queue = c.queue.filter fun r => decide (r.task ≠ i)) :
      Effect c c' (.advance i answer)
  /-- A task does something else. -/
  | other {i : Nat} {answer : C} (asks : c.asks i = none)
      (frame : ∀ j, j ≠ i → c'.config.threads[j]? = c.config.threads[j]?)
      (held : (c'.heldBy i).Sublist (c.heldBy i))
      (drop : ∀ l, c.Drops i l → c'.heldBy i = Config.dropGuard l (c.heldBy i))
      (acquires : ∀ ok, c.Acquires ok → c'.Acquires ok)
      (queue : c'.queue = c.queue) : Effect c c' (.advance i answer)

theorem step_effect {c c' : Queued L S O C K} {a : Sched L S O C K} (h : c.step a = some c') :
    Effect c c' a := by
  cases a with
  | spawn p =>
      rw [step] at h
      obtain ⟨config, hconfig, rfl⟩ := Option.map_eq_some_iff.mp h
      obtain rfl := Option.some.inj hconfig
      exact .spawn p rfl rfl
  | advance i answer =>
      rw [step] at h
      cases hasks : c.asks i with
      | none =>
          simp only [hasks] at h
          obtain ⟨config, hconfig, rfl⟩ := Option.map_eq_some_iff.mp h
          obtain ⟨th, th', hth, hth', hframe, hok, hheld⟩ := advance_cases hconfig
          have hheld' := heldBy_eq (c := { c with config }) hth'
          refine .other hasks hframe ?_ ?_ (acquires_of_frame hth hth' hframe hok) rfl
          · rw [heldBy_eq hth, hheld']
            cases hprog : th.prog with
            | acquire l ex site next =>
                have : c.asks i = some (l, ex) := by
                  obtain ⟨prog, held, memo⟩ := th
                  subst hprog
                  rw [asks, hth]
                rw [hasks] at this
                cases this
            | release l next =>
                rw [hprog] at hheld
                rw [show th'.held = _ from hheld]
                exact List.eraseP_sublist
            | _ =>
                rw [hprog] at hheld
                exact hheld
          · intro l hl
            obtain ⟨th₀, next, hth₀, hprog⟩ := prog_of_drops hl
            obtain rfl : th = th₀ := Option.some.inj (hth.symm.trans hth₀)
            rw [hprog] at hheld
            rw [heldBy_eq hth, hheld']
            exact hheld
      | some request =>
          obtain ⟨l, ex⟩ := request
          simp only [hasks] at h
          split at h
          · rename_i hwait
            split at h
            · cases h
            · rename_i hfresh
              obtain rfl := Option.some.inj h
              exact .ask hasks hwait (by simpa using hfresh) rfl rfl
          · rename_i hgo
            obtain ⟨config, hconfig, rfl⟩ := Option.map_eq_some_iff.mp h
            obtain ⟨th, th', hth, hth', hframe, hok, hheld⟩ := advance_cases hconfig
            refine .take hasks hgo hframe ?_ (acquires_of_frame hth hth' hframe hok) rfl
            obtain ⟨th₀, site, next, hth₀, hprog⟩ := prog_of_asks hasks
            obtain rfl : th = th₀ := Option.some.inj (hth.symm.trans hth₀)
            rw [hprog] at hheld
            rw [heldBy_eq hth]
            exact (heldBy_eq hth').trans hheld.2

end Step

/-! ### The invariant of all runs -/

/-- The invariant of the runs in which no task asks for a lock that it holds. -/
structure Sound [DecidableEq L] (ok : List (L × Bool) → L → Bool → Prop)
    (c : Queued L S O C K) : Prop where
  /-- What is left of each task is checked. -/
  acquires : c.Acquires ok
  /-- No task has two guards of one lock. -/
  nodup : ∀ i, ((c.heldBy i).map Prod.fst).Nodup
  /-- Guards of one lock in two tasks are for reading. -/
  exclusive : ∀ i j l ex ex', i ≠ j → (l, ex) ∈ c.heldBy i → (l, ex') ∈ c.heldBy j →
    ex = false ∧ ex' = false
  /-- A request is what its task asks for. -/
  asked : ∀ r ∈ c.queue, c.asks r.task = some (r.lock, r.exclusive)
  /-- No task waits for a lock that it holds. -/
  apart : ∀ r ∈ c.queue, r.lock ∉ (c.heldBy r.task).map Prod.fst
  /-- A task has one request. -/
  once : (c.queue.map Request.task).Nodup

section Frame
variable {c c' : Queued L S O C K}

/-- A task that the step leaves alone. -/
theorem frame_task {i : Nat} (h : c'.config.threads[i]? = c.config.threads[i]?) :
    c'.heldBy i = c.heldBy i ∧ c'.asks i = c.asks i ∧ ∀ l, c'.Drops i l ↔ c.Drops i l := by
  simp [heldBy, asks, Drops, h]

/-- A started task has no guards, and leaves the others alone. -/
theorem frame_spawn {p : Prog L S O C K Unit}
    (h : c'.config.threads = c.config.threads ++ [⟨p, [], []⟩]) (i : Nat) :
    c'.heldBy i = c.heldBy i ∧ ∀ th : Thread L S O C K, c.config.threads[i]? = some th →
      c'.config.threads[i]? = c.config.threads[i]? := by
  have hold : ∀ th : Thread L S O C K, c.config.threads[i]? = some th →
      c'.config.threads[i]? = c.config.threads[i]? := by
    intro th hth
    rw [h, List.getElem?_append_left (List.getElem?_eq_some_iff.mp hth).1]
  refine ⟨?_, hold⟩
  cases hth : c.config.threads[i]? with
  | some th => exact (frame_task (hold th hth)).1
  | none =>
      have hlen := List.getElem?_eq_none_iff.mp hth
      rw [heldBy, heldBy, hth, h, List.getElem?_append_right hlen]
      cases i - c.config.threads.length <;> rfl

/-- A free lock has no guard that excludes the new one. -/
theorem of_free {l : L} {ex ex' : Bool} {j : Nat} (hfree : c.config.Free l ex)
    (h : (l, ex') ∈ c.heldBy j) : ex = false ∧ ex' = false := by
  unfold heldBy at h
  split at h
  · rename_i th hth
    exact hfree th (List.mem_of_getElem? hth) (l, ex') h rfl
  · cases h

end Frame

section Sound
variable [DecidableEq L] {ok : List (L × Bool) → L → Bool → Prop} {c c' : Queued L S O C K}

theorem Sound.spawn (h : c.Sound ok) {p : Prog L S O C K Unit}
    (hp : p.Acquires ok [] fun _ _ => True)
    (hthreads : c'.config.threads = c.config.threads ++ [⟨p, [], []⟩])
    (hqueue : c'.queue = c.queue) : c'.Sound ok := by
  have hheld : ∀ i, c'.heldBy i = c.heldBy i := fun i => (frame_spawn hthreads i).1
  refine ⟨?_, ?_, ?_, ?_, ?_, ?_⟩
  · intro i th hth
    rw [hthreads, List.getElem?_append] at hth
    split at hth
    · exact h.acquires i th hth
    · obtain rfl := List.mem_singleton.mp (List.mem_of_getElem? hth)
      exact hp
  · intro i
    rw [hheld]
    exact h.nodup i
  · intro i j l ex ex' hij
    rw [hheld, hheld]
    exact h.exclusive i j l ex ex' hij
  · intro r hr
    rw [hqueue] at hr
    obtain ⟨th, -, -, hth, -⟩ := prog_of_asks (h.asked r hr)
    rw [(frame_task ((frame_spawn hthreads r.task).2 th hth)).2.1]
    exact h.asked r hr
  · intro r hr
    rw [hqueue] at hr
    rw [hheld]
    exact h.apart r hr
  · rw [hqueue]
    exact h.once

theorem Sound.ask (h : c.Sound ok) {i : Nat} {l : L} {ex : Bool} (hasks : c.asks i = some (l, ex))
    (hapart : l ∉ (c.heldBy i).map Prod.fst) (hfresh : ∀ r ∈ c.queue, r.task ≠ i)
    (hconfig : c'.config = c.config) (hqueue : c'.queue = c.queue ++ [⟨i, l, ex⟩]) :
    c'.Sound ok := by
  have hheld : ∀ j, c'.heldBy j = c.heldBy j := fun j => (frame_task (by rw [hconfig])).1
  have hnext : ∀ j, c'.asks j = c.asks j := fun j => (frame_task (by rw [hconfig])).2.1
  refine ⟨?_, ?_, ?_, ?_, ?_, ?_⟩
  · intro j th hth
    rw [hconfig] at hth
    exact h.acquires j th hth
  · intro j
    rw [hheld]
    exact h.nodup j
  · intro j j' l' ex' ex''
    rw [hheld, hheld]
    exact h.exclusive j j' l' ex' ex''
  · intro r hr
    rw [hqueue, List.mem_append, List.mem_singleton] at hr
    rw [hnext]
    rcases hr with hr | rfl
    · exact h.asked r hr
    · exact hasks
  · intro r hr
    rw [hqueue, List.mem_append, List.mem_singleton] at hr
    rw [hheld]
    rcases hr with hr | rfl
    · exact h.apart r hr
    · exact hapart
  · rw [hqueue, List.map_append, List.nodup_append]
    refine ⟨h.once, List.nodup_singleton _, ?_⟩
    intro t ht t' ht' heq
    obtain ⟨r, hr, rfl⟩ := List.mem_map.mp ht
    obtain rfl : t' = i := List.mem_singleton.mp ht'
    exact hfresh r hr heq

theorem Sound.take (h : c.Sound ok) {i : Nat} {l : L} {ex : Bool}
    (hapart : l ∉ (c.heldBy i).map Prod.fst) (hfree : c.config.Free l ex)
    (hframe : ∀ j, j ≠ i → c'.config.threads[j]? = c.config.threads[j]?)
    (hheld : c'.heldBy i = (l, ex) :: c.heldBy i) (hacq : c'.Acquires ok)
    (hqueue : c'.queue = c.queue.filter fun r => decide (r.task ≠ i)) : c'.Sound ok := by
  -- A new guard is one that the guards of the others allow.
  have hnew : ∀ j l' ex' ex'', j ≠ i → (l', ex') ∈ c'.heldBy i → (l', ex'') ∈ c.heldBy j →
      ex' = false ∧ ex'' = false := by
    intro j l' ex' ex'' hj hi hj'
    rw [hheld] at hi
    rcases List.mem_cons.mp hi with heq | hi
    · obtain ⟨rfl, rfl⟩ := Prod.mk.inj heq
      exact of_free hfree hj'
    · exact h.exclusive i j l' ex' ex'' (Ne.symm hj) hi hj'
  have hrest : ∀ r ∈ c'.queue, r ∈ c.queue ∧ r.task ≠ i := by
    intro r hr
    rw [hqueue, List.mem_filter] at hr
    exact ⟨hr.1, of_decide_eq_true hr.2⟩
  refine ⟨hacq, ?_, ?_, ?_, ?_, ?_⟩
  · intro j
    by_cases hj : j = i
    · subst hj
      rw [hheld, List.map_cons, List.nodup_cons]
      exact ⟨hapart, h.nodup j⟩
    · rw [(frame_task (hframe j hj)).1]
      exact h.nodup j
  · intro j j' l' ex' ex'' hjj' hj hj'
    by_cases hji : j = i
    · subst hji
      rw [(frame_task (hframe j' (Ne.symm hjj'))).1] at hj'
      exact hnew j' l' ex' ex'' (Ne.symm hjj') hj hj'
    · rw [(frame_task (hframe j hji)).1] at hj
      by_cases hji' : j' = i
      · subst hji'
        exact (hnew j l' ex'' ex' hji hj' hj).symm
      · rw [(frame_task (hframe j' hji')).1] at hj'
        exact h.exclusive j j' l' ex' ex'' hjj' hj hj'
  · intro r hr
    rw [(frame_task (hframe r.task (hrest r hr).2)).2.1]
    exact h.asked r (hrest r hr).1
  · intro r hr
    rw [(frame_task (hframe r.task (hrest r hr).2)).1]
    exact h.apart r (hrest r hr).1
  · rw [hqueue]
    exact (List.filter_sublist.map Request.task).nodup h.once

/-- A task whose next action asks for no lock is not in the queue. -/
theorem Sound.task_ne (h : c.Sound ok) {i : Nat} (hasks : c.asks i = none) :
    ∀ r ∈ c.queue, r.task ≠ i := by
  rintro r hr rfl
  have := h.asked r hr
  rw [hasks] at this
  cases this

theorem Sound.other (h : c.Sound ok) {i : Nat} (hasks : c.asks i = none)
    (hframe : ∀ j, j ≠ i → c'.config.threads[j]? = c.config.threads[j]?)
    (hheld : (c'.heldBy i).Sublist (c.heldBy i)) (hacq : c'.Acquires ok)
    (hqueue : c'.queue = c.queue) : c'.Sound ok := by
  have hsub : ∀ j, (c'.heldBy j).Sublist (c.heldBy j) := by
    intro j
    by_cases hj : j = i
    · subst hj
      exact hheld
    · rw [(frame_task (hframe j hj)).1]
  refine ⟨hacq, ?_, ?_, ?_, ?_, ?_⟩
  · intro j
    exact ((hsub j).map Prod.fst).nodup (h.nodup j)
  · intro j j' l' ex' ex'' hjj' hj hj'
    exact h.exclusive j j' l' ex' ex'' hjj' ((hsub j).subset hj) ((hsub j').subset hj')
  · intro r hr
    rw [hqueue] at hr
    rw [(frame_task (hframe r.task (h.task_ne hasks r hr))).2.1]
    exact h.asked r hr
  · intro r hr hmem
    rw [hqueue] at hr
    exact h.apart r hr (((hsub r.task).map Prod.fst).subset hmem)
  · rw [hqueue]
    exact h.once

/-- A step in which no task asks for a lock that it holds keeps the invariant. -/
theorem Sound.step (h : c.Sound ok) {a : Sched L S O C K} (ha : c.NotAgain a)
    (hspawn : ∀ p, a = .spawn p → p.Acquires ok [] fun _ _ => True)
    (hstep : c.step a = some c') : c'.Sound ok := by
  cases step_effect hstep with
  | spawn p hthreads hqueue => exact h.spawn (hspawn p rfl) hthreads hqueue
  | @ask i answer l ex hasks hwait hfresh hconfig hqueue =>
      exact h.ask hasks (ha.notMem hasks) hfresh hconfig hqueue
  | @take i answer l ex hasks hgo hframe hheld hacq hqueue =>
      have hfree : c.config.Free l ex := by
        by_contra hfree
        exact hgo (Or.inl hfree)
      exact h.take (ha.notMem hasks) hfree hframe hheld (hacq ok h.acquires) hqueue
  | @other i answer hasks hframe hheld hdrop hacq hqueue =>
      exact h.other hasks hframe hheld (hacq ok h.acquires) hqueue

end Sound

/-! ### Requests that nothing of one mode stands in the way of -/

/-- A use of mode `m` of the lock comes before one that it excludes: these requests, or a
request to read behind them. -/
def Blocking (l : L) (m : Bool) (later : List (Request L)) : Prop :=
  m = true ∨ ∃ w ∈ later, w.lock = l ∧ w.exclusive = true

/-- One of the requests is of mode `m` and comes before one that it excludes. -/
def Stuck (l : L) (m : Bool) : List (Request L) → Prop
  | [] => False
  | r :: later => (r.lock = l ∧ r.exclusive = m ∧ Blocking l m later) ∨ Stuck l m later

/-- A request of task `i` to read waits for no use of mode `m` of the lock that lasts: no
request ahead is one, and a guard is one that its task drops next. -/
def Unhindered (c : Queued L S O C K) (i : Nat) (l : L) (m : Bool) : Prop :=
  ¬ Stuck l m (c.ahead i) ∧
    (Blocking l m (c.ahead i) →
      ∀ j < c.config.threads.length, j ≠ i → (l, m) ∈ c.heldBy j → c.Drops j l)

section Decide
variable [DecidableEq L]

instance (l : L) (m : Bool) (later : List (Request L)) : Decidable (Blocking l m later) :=
  inferInstanceAs (Decidable (_ ∨ ∃ w ∈ later, _))

instance decidableStuck (l : L) (m : Bool) : (rs : List (Request L)) → Decidable (Stuck l m rs)
  | [] => isFalse id
  | _ :: later =>
      have := decidableStuck l m later
      inferInstanceAs (Decidable (_ ∨ _))

instance (c : Queued L S O C K) (i : Nat) (l : L) (m : Bool) : Decidable (c.Unhindered i l m) :=
  inferInstanceAs (Decidable (_ ∧ (_ → _)))

end Decide

section Lists
variable {l : L} {m : Bool} {i : Nat}

theorem Blocking.subset {rs rs' : List (Request L)} (h : Blocking l m rs) (hsub : rs ⊆ rs') :
    Blocking l m rs' := by
  rcases h with h | ⟨w, hw, hw'⟩
  · exact Or.inl h
  · exact Or.inr ⟨w, hsub hw, hw'⟩

/-- Fewer requests are stuck less often. -/
theorem Stuck.sublist {rs rs' : List (Request L)} (h : Stuck l m rs) (hsub : rs.Sublist rs') :
    Stuck l m rs' := by
  induction hsub with
  | slnil => exact h
  | cons r hsub ih => exact Or.inr (ih h)
  | cons_cons r hsub ih =>
      rcases h with ⟨h1, h2, h3⟩ | h
      · exact Or.inl ⟨h1, h2, h3.subset hsub.subset⟩
      · exact Or.inr (ih h)

theorem Stuck.of_append {before later : List (Request L)} {r : Request L} (hl : r.lock = l)
    (hm : r.exclusive = m) (hlater : Blocking l m later) : Stuck l m (before ++ r :: later) := by
  induction before with
  | nil => exact Or.inl ⟨hl, hm, hlater⟩
  | cons r' before ih => exact Or.inr ih

@[simp] theorem before_cons_of_eq {r : Request L} (h : r.task = i) (rs : List (Request L)) :
    before i (r :: rs) = [] :=
  List.takeWhile_cons_of_neg (by simpa using h)

@[simp] theorem before_cons_of_ne {r : Request L} (h : r.task ≠ i) (rs : List (Request L)) :
    before i (r :: rs) = r :: before i rs :=
  List.takeWhile_cons_of_pos (by simpa using h)

/-- A queue with a request of task `i`, cut there. -/
theorem exists_eq_before_append {rs : List (Request L)} (h : ∃ r ∈ rs, r.task = i) :
    ∃ r behind, r.task = i ∧ rs = before i rs ++ r :: behind := by
  induction rs with
  | nil => simp at h
  | cons r rs ih =>
      by_cases hr : r.task = i
      · exact ⟨r, rs, hr, by simp [hr]⟩
      · obtain ⟨r', hr', htask⟩ := h
        rcases List.mem_cons.mp hr' with rfl | hr'
        · exact absurd htask hr
        · obtain ⟨r₀, behind, hr₀, heq⟩ := ih ⟨r', hr', htask⟩
          refine ⟨r₀, behind, hr₀, ?_⟩
          rw [before_cons_of_ne hr, List.cons_append, ← heq]

/-- What stands behind the request of a task does not come before it. -/
theorem before_append {rs : List (Request L)} (h : ∃ r ∈ rs, r.task = i)
    (rs' : List (Request L)) : before i (rs ++ rs') = before i rs := by
  induction rs with
  | nil => simp at h
  | cons r rs ih =>
      rw [List.cons_append]
      by_cases hr : r.task = i
      · simp [hr]
      · obtain ⟨r', hr', htask⟩ := h
        rcases List.mem_cons.mp hr' with rfl | hr'
        · exact absurd htask hr
        · rw [before_cons_of_ne hr, before_cons_of_ne hr, ih ⟨r', hr', htask⟩]

/-- Where no request is of the task, all of them come before it. -/
theorem before_eq_self {rs : List (Request L)} (h : ∀ r ∈ rs, r.task ≠ i) : before i rs = rs :=
  List.takeWhile_eq_self_iff.mpr fun r hr => by simpa using h r hr

/-- Requests of other tasks are taken out before the request of a task, or behind it. -/
theorem before_filter {j : Nat} (hij : j ≠ i) (rs : List (Request L)) :
    before i (rs.filter fun r => decide (r.task ≠ j))
      = (before i rs).filter fun r => decide (r.task ≠ j) := by
  induction rs with
  | nil => rfl
  | cons r rs ih =>
      by_cases hi : r.task = i
      · simp [hi, Ne.symm hij]
      · by_cases hj : r.task = j
        · simpa [hi, hj, hij] using ih
        · simpa [hi, hj] using ih

/-- Requests of other tasks at the front all come before the request of a task. -/
theorem before_append_of_ne {rs : List (Request L)} (h : ∀ r ∈ rs, r.task ≠ i)
    (rs' : List (Request L)) : before i (rs ++ rs') = rs ++ before i rs' := by
  induction rs with
  | nil => rfl
  | cons r rs ih =>
      rw [List.cons_append, before_cons_of_ne (h r List.mem_cons_self),
        ih fun r' hr' => h r' (List.mem_cons_of_mem _ hr'), List.cons_append]

end Lists

/-- The guard that is dropped was the only one of its lock. -/
theorem notMem_dropGuard [DecidableEq L] {l : L} {held : List (L × Bool)}
    (h : (held.map Prod.fst).Nodup) : l ∉ (Config.dropGuard l held).map Prod.fst := by
  induction held with
  | nil => simp [Config.dropGuard]
  | cons g held ih =>
      rw [List.map_cons, List.nodup_cons] at h
      by_cases hg : g.1 = l
      · rw [Config.dropGuard, List.eraseP_cons_of_pos (by simpa using hg), ← hg]
        exact h.1
      · rw [Config.dropGuard, List.eraseP_cons_of_neg (by simpa using hg), List.map_cons,
          List.mem_cons, not_or]
        exact ⟨Ne.symm hg, ih h.2⟩

section Unhindered
variable [DecidableEq L] {ok : List (L × Bool) → L → Bool → Prop} {c c' : Queued L S O C K}
  {i : Nat} {l : L} {m : Bool}

/-- A task that takes a lock for use `m` that a request to read waits for was ahead of the
request, and stuck. -/
theorem Unhindered.not_take (h : c.Sound ok) (hu : c.Unhindered i l m)
    (hr : ⟨i, l, false⟩ ∈ c.queue) {j : Nat} (hij : j ≠ i) (hasks : c.asks j = some (l, m))
    (hgo : ¬ c.MustWait j l m)
    (hblock : Blocking l m ((c.ahead i).filter fun r => decide (r.task ≠ j))) : False := by
  -- No request ahead of `j` excludes it.
  have hpass : ∀ r ∈ c.ahead j, r.lock = l → m = false ∧ r.exclusive = false := by
    intro r hr' hl
    by_contra hex
    refine hgo (Or.inr ⟨r, hr', hl, ?_⟩)
    cases hm : m <;> cases hre : r.exclusive <;> simp_all
  obtain ⟨r₀, behind, hr₀, hqueue⟩ :
      ∃ r behind, r.task = i ∧ c.queue = c.ahead i ++ r :: behind :=
    exists_eq_before_append ⟨_, hr, rfl⟩
  by_cases hj : ∃ d ∈ c.ahead i, d.task = j
  · obtain ⟨d, later, hd, hahead⟩ := exists_eq_before_append hj
    have hmem : d ∈ c.queue := by
      rw [hqueue]
      refine List.mem_append_left _ ?_
      rw [hahead]
      simp
    -- The request of `j` is for this use of the lock.
    have hdasks := h.asked d hmem
    rw [hd, hasks] at hdasks
    obtain ⟨hl, hm⟩ := Prod.mk.inj (Option.some.inj hdasks)
    have hfree : ¬ Blocking l m later := by
      intro hlater
      refine hu.1 ?_
      rw [hahead]
      exact .of_append hl.symm hm.symm hlater
    have hjahead : c.ahead j = before j (c.ahead i) := by
      rw [ahead, hqueue, before_append hj]
    rcases hblock with hm' | ⟨w, hw, hwl, hwex⟩
    · exact hfree (Or.inl hm')
    · rw [List.mem_filter, hahead, List.mem_append, List.mem_cons] at hw
      obtain ⟨hw | rfl | hw, hne⟩ := hw
      · have := (hpass w (hjahead ▸ hw) hwl).2
        rw [hwex] at this
        cases this
      · exact of_decide_eq_true hne hd
      · exact hfree (Or.inr ⟨w, hw, hwl, hwex⟩)
  · -- All that is ahead of task `i`, and its own request, is ahead of task `j`.
    have hne : ∀ r ∈ c.ahead i, r.task ≠ j := fun r hr' htask => hj ⟨r, hr', htask⟩
    have hjahead : c.ahead j = c.ahead i ++ r₀ :: before j behind := by
      rw [ahead, hqueue, before_append_of_ne hne,
        before_cons_of_ne (by rw [hr₀]; exact Ne.symm hij)]
    have hr₀lock : r₀.lock = l := by
      have h₀ := h.asked r₀ (by rw [hqueue]; simp)
      rw [hr₀, h.asked _ hr] at h₀
      exact (Prod.mk.inj (Option.some.inj h₀)).1.symm
    have hmode := (hpass r₀ (by rw [hjahead]; simp) hr₀lock).1
    rcases hblock with hm' | ⟨w, hw, hwl, hwex⟩
    · rw [hmode] at hm'
      cases hm'
    · have hwj : w ∈ c.ahead j := by
        rw [hjahead]
        exact List.mem_append_left _ (List.mem_of_mem_filter hw)
      have := (hpass w hwj hwl).2
      rw [hwex] at this
      cases this

/-- What holds when a task asks holds as long as it waits. -/
theorem Unhindered.step (h : c.Sound ok) (hu : c.Unhindered i l m)
    (hr : ⟨i, l, false⟩ ∈ c.queue) {a : Sched L S O C K} (ha : c.NotAgain a)
    (hstep : c.step a = some c') (hr' : ⟨i, l, false⟩ ∈ c'.queue) : c'.Unhindered i l m := by
  have hi : ∃ r ∈ c.queue, r.task = i := ⟨_, hr, rfl⟩
  have hdrops : ∀ j, c.Drops j l → c'.config.threads[j]? = c.config.threads[j]? →
      c'.Drops j l := by
    intro j hj hframe
    exact ((frame_task hframe).2.2 l).mpr hj
  have hin : ∀ j, (l, m) ∈ c.heldBy j → j < c.config.threads.length := by
    intro j hj
    unfold heldBy at hj
    split at hj
    · rename_i th hth
      exact (List.getElem?_eq_some_iff.mp hth).1
    · cases hj
  cases step_effect hstep with
  | spawn p hthreads hqueue =>
      have hahead : c'.ahead i = c.ahead i := by rw [ahead, hqueue]; rfl
      refine ⟨hahead ▸ hu.1, fun hblock j _ hji hheld => ?_⟩
      rw [(frame_spawn hthreads j).1] at hheld
      have hj := hu.2 (hahead ▸ hblock) j (hin j hheld) hji hheld
      obtain ⟨th, -, hth, -⟩ := prog_of_drops hj
      exact hdrops j hj ((frame_spawn hthreads j).2 th hth)
  | @ask j answer l' ex hasks hwait hfresh hconfig hqueue =>
      have hahead : c'.ahead i = c.ahead i := by rw [ahead, hqueue, before_append hi]; rfl
      have hframe : ∀ k : Nat, c'.config.threads[k]? = c.config.threads[k]? := fun k => by
        rw [hconfig]
      refine ⟨hahead ▸ hu.1, fun hblock k _ hki hk => ?_⟩
      rw [(frame_task (hframe k)).1] at hk
      exact hdrops k (hu.2 (hahead ▸ hblock) k (hin k hk) hki hk) (hframe k)
  | @take j answer l' ex hasks hgo hframe hheld hacq hqueue =>
      have hij : j ≠ i := by
        rintro rfl
        rw [hqueue, List.mem_filter] at hr'
        simp at hr'
      have hahead : c'.ahead i = (c.ahead i).filter fun r => decide (r.task ≠ j) := by
        rw [ahead, hqueue, before_filter hij]
        rfl
      have hsub : (c'.ahead i).Sublist (c.ahead i) := hahead ▸ List.filter_sublist
      refine ⟨fun hstuck => hu.1 (hstuck.sublist hsub), fun hblock k _ hki hk => ?_⟩
      have hblock' := hblock.subset hsub.subset
      by_cases hkj : k = j
      · subst hkj
        rw [hheld] at hk
        rcases List.mem_cons.mp hk with heq | hk
        · obtain ⟨rfl, rfl⟩ := Prod.mk.inj heq
          exact (hu.not_take h hr hij hasks hgo (hahead ▸ hblock)).elim
        · -- A task that takes a lock does not drop one.
          obtain ⟨th, next, hth, hprog⟩ := prog_of_drops (hu.2 hblock' k (hin k hk) hki hk)
          obtain ⟨th', site, next', hth', hprog'⟩ := prog_of_asks hasks
          obtain rfl : th = th' := Option.some.inj (hth.symm.trans hth')
          rw [hprog] at hprog'
          cases hprog'
      · rw [(frame_task (hframe k hkj)).1] at hk
        exact hdrops k (hu.2 hblock' k (hin k hk) hki hk) (hframe k hkj)
  | @other j answer hasks hframe hheld hdrop hacq hqueue =>
      have hahead : c'.ahead i = c.ahead i := by rw [ahead, hqueue]; rfl
      refine ⟨hahead ▸ hu.1, fun hblock k _ hki hk => ?_⟩
      by_cases hkj : k = j
      · subst hkj
        have hk₀ := hheld.subset hk
        have hd := hu.2 (hahead ▸ hblock) k (hin k hk₀) hki hk₀
        -- The guard is the one that the task drops.
        rw [hdrop l hd] at hk
        exact (notMem_dropGuard (h.nodup k) (List.mem_map_of_mem hk)).elim
      · rw [(frame_task (hframe k hkj)).1] at hk
        exact hdrops k (hu.2 (hahead ▸ hblock) k (hin k hk) hki hk) (hframe k hkj)

omit [DecidableEq L] in
/-- A request that joins the queue stands behind all that is there. -/
theorem Unhindered.ask (hu : c.Unhindered i l m) {l' : L} {ex : Bool}
    (hfresh : ∀ r ∈ c.queue, r.task ≠ i) (hconfig : c'.config = c.config)
    (hqueue : c'.queue = c.queue ++ [⟨i, l', ex⟩]) : c'.Unhindered i l m := by
  have hahead : c'.ahead i = c.ahead i := by
    have hown : before i [(⟨i, l', ex⟩ : Request L)] = [] := before_cons_of_eq rfl []
    rw [ahead, ahead, hqueue, before_append_of_ne hfresh, hown, before_eq_self hfresh,
      List.append_nil]
  have hframe : ∀ j : Nat, c'.config.threads[j]? = c.config.threads[j]? := fun j => by
    rw [hconfig]
  refine ⟨hahead ▸ hu.1, fun hblock j hj hji hheld => ?_⟩
  rw [(frame_task (hframe j)).1] at hheld
  rw [hconfig] at hj
  exact ((frame_task (hframe j)).2.2 l).mpr (hu.2 (hahead ▸ hblock) j hj hji hheld)

/-- Where an unhindered request waits, a task that has the lock for use `m` asks for no
lock. -/
theorem Unhindered.asks_eq_none (h : c.Sound ok) (hu : c.Unhindered i l m)
    (hwait : c.MustWait i l false) {j : Nat} (hji : j ≠ i) (hheld : (l, m) ∈ c.heldBy j) :
    c.asks j = none := by
  cases hasks : c.asks j with
  | none => rfl
  | some request =>
      obtain ⟨th, site, next, hth, hprog⟩ := prog_of_asks hasks
      have hfree : ¬ Blocking l m (c.ahead i) := by
        intro hblock
        have hj := (List.getElem?_eq_some_iff.mp hth).1
        obtain ⟨th', next', hth', hprog'⟩ := prog_of_drops (hu.2 hblock j hj hji hheld)
        obtain rfl : th = th' := Option.some.inj (hth.symm.trans hth')
        rw [hprog] at hprog'
        cases hprog'
      have hm : m = false := by
        cases m with
        | false => rfl
        | true => exact absurd (Or.inl rfl) hfree
      subst hm
      rcases hwait with hguard | ⟨r, hr, hrl, hrex⟩
      · -- A guard for writing excludes the one of task `j`.
        refine absurd (fun th' hth' g hg hgl => ⟨rfl, ?_⟩) hguard
        obtain ⟨k, hk⟩ := List.mem_iff_getElem?.mp hth'
        obtain ⟨l', ex⟩ := g
        obtain rfl : l' = l := hgl
        have hk' : (l', ex) ∈ c.heldBy k := by
          rw [heldBy_eq hk]
          exact hg
        by_cases hkj : k = j
        · subst hkj
          exact congrArg Prod.snd (List.inj_on_of_nodup_map (h.nodup k) hk' hheld rfl)
        · exact (h.exclusive k j l' ex false hkj hk' hheld).1
      · exact absurd (Or.inr ⟨r, hr, hrl, hrex.resolve_left (by simp)⟩) hfree

end Unhindered

/-! ### Runs in which the requests against the order are unhindered -/

/-- `danger` says which uses of a lock a request to read must not wait for, made with these
guards. The next action of a task makes no request that does. -/
def Courteous (danger : List (L × Bool) → L → Bool → Prop) (c : Queued L S O C K) :
    Sched L S O C K → Prop
  | .spawn _ => True
  | .advance i _ =>
      match c.asks i with
      | some (l, false) => ∀ m, danger (c.heldBy i) l m → c.Unhindered i l m
      | _ => True

instance [DecidableEq L] (danger : List (L × Bool) → L → Bool → Prop)
    [∀ held l m, Decidable (danger held l m)] (c : Queued L S O C K) (a : Sched L S O C K) :
    Decidable (c.Courteous danger a) := by
  unfold Courteous
  exact match a with
    | .spawn _ => inferInstance
    | .advance i _ => by
        dsimp only
        exact match c.asks i with
          | some (_, false) => inferInstance
          | some (_, true) | none => inferInstance

/-- The invariant of the runs in which no task asks for a lock that it holds, or makes a
request that must not wait where it may have to. -/
structure Orderly [DecidableEq L] (ok danger : List (L × Bool) → L → Bool → Prop)
    (c : Queued L S O C K) : Prop where
  sound : c.Sound ok
  unhindered : ∀ r ∈ c.queue, r.exclusive = false → ∀ m, danger (c.heldBy r.task) r.lock m →
    c.Unhindered r.task r.lock m

section Orderly
variable [DecidableEq L] {ok danger : List (L × Bool) → L → Bool → Prop}
  {c c' : Queued L S O C K}

/-- Without tasks. -/
theorem Orderly.initial (s : S) : Orderly ok danger (⟨⟨s, [], []⟩, []⟩ : Queued L S O C K) where
  sound :=
    { acquires := fun _ _ h => by simp at h
      nodup := fun _ => List.nodup_nil
      exclusive := fun _ _ _ _ _ _ h => by simp [heldBy] at h
      asked := by simp
      apart := by simp
      once := List.nodup_nil }
  unhindered := by simp

/-- A task that waits has its guards after a step as before. -/
theorem Sound.heldBy_eq (h : c.Sound ok) {a : Sched L S O C K} (hstep : c.step a = some c')
    {r : Request L} (hr : r ∈ c.queue) (hr' : r ∈ c'.queue) :
    c'.heldBy r.task = c.heldBy r.task := by
  cases step_effect hstep with
  | spawn p hthreads hqueue => exact (frame_spawn hthreads r.task).1
  | ask hasks hwait hfresh hconfig hqueue => exact (frame_task (by rw [hconfig])).1
  | take hasks hgo hframe hheld hacq hqueue =>
      rw [hqueue, List.mem_filter] at hr'
      exact (frame_task (hframe r.task (of_decide_eq_true hr'.2))).1
  | other hasks hframe hheld hdrop hacq hqueue =>
      exact (frame_task (hframe r.task (h.task_ne hasks r hr))).1

theorem Orderly.step (h : Orderly ok danger c) {a : Sched L S O C K} (ha : c.NotAgain a)
    (hc : c.Courteous danger a)
    (hspawn : ∀ p, a = .spawn p → p.Acquires ok [] fun _ _ => True)
    (hstep : c.step a = some c') : Orderly ok danger c' := by
  refine ⟨h.sound.step ha hspawn hstep, fun r hr' hread m hm => ?_⟩
  by_cases hr : r ∈ c.queue
  · rw [h.sound.heldBy_eq hstep hr hr'] at hm
    have hu := h.unhindered r hr hread m hm
    obtain ⟨i, l, ex⟩ := r
    obtain rfl : ex = false := hread
    exact hu.step h.sound hr ha hstep hr'
  · cases step_effect hstep with
    | spawn p hthreads hqueue => exact absurd (hqueue ▸ hr') hr
    | @ask i answer l ex hasks hwait hfresh hconfig hqueue =>
        rw [hqueue, List.mem_append, List.mem_singleton] at hr'
        obtain rfl := hr'.resolve_left hr
        obtain rfl : ex = false := hread
        have hheld : c'.heldBy i = c.heldBy i := (frame_task (by rw [hconfig])).1
        rw [hheld] at hm
        simp only [Courteous, hasks] at hc
        exact (hc m hm).ask hfresh hconfig hqueue
    | take hasks hgo hframe hheld hacq hqueue =>
        rw [hqueue] at hr'
        exact absurd (List.mem_of_mem_filter hr') hr
    | other hasks hframe hheld hdrop hacq hqueue => exact absurd (hqueue ▸ hr') hr

end Orderly

end Queued

end RaftEbpf.Lib
