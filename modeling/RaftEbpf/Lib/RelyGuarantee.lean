import RaftEbpf.Lib.ProgLogic

/-!
# `RaftEbpf.Lib.RelyGuarantee`: tasks around one mutex

Rely-guarantee reasoning for the tasks of a `Config` that share one mutex. A `Discipline`
names the mutex and says what one action of a task may do (`guar`, which depends on whether
the task has the mutex), what a task must expect of the others meanwhile (`rely`), and what
holds whenever no task has the mutex (`inv`).

`Prog.Safe` checks one task against a discipline, action by action: whatever the others do in
between, each action is within `guar`, and each release of the mutex finds `inv`. It may
assume that named sites of the program find the state as `site` says, and that the
environment answers as `answer` says (`Config.Finds`). `Config.Safe.step` is the soundness:
steps that bear this out keep all tasks safe, and each of them is within `guar`.
-/

set_option autoImplicit false

namespace RaftEbpf.Lib

variable {L S O C K : Type} {α β : Type}

/-- What the tasks share: the state, and all outputs so far. -/
structure World (S O : Type) where
  state : S
  out : List O

namespace World

/-- The world after a write. -/
def write (w : World S O) (f : S → S) : World S O := { w with state := f w.state }

/-- The world after an output. -/
def emit (w : World S O) (o : O) : World S O := { w with out := w.out ++ [o] }

@[simp] theorem state_write (w : World S O) (f : S → S) : (w.write f).state = f w.state := rfl

@[simp] theorem out_write (w : World S O) (f : S → S) : (w.write f).out = w.out := rfl

@[simp] theorem state_emit (w : World S O) (o : O) : (w.emit o).state = w.state := rfl

@[simp] theorem out_emit (w : World S O) (o : O) : (w.emit o).out = w.out ++ [o] := rfl

end World

/-- The rules for tasks around one mutex. The flag of `guar` and `rely` says whether the task
at hand has the mutex. -/
structure Discipline (L S O C K : Type) where
  mutex : L
  /-- What holds while no task has the mutex. -/
  inv : World S O → Prop
  /-- What one action of a task may do. -/
  guar : Bool → World S O → World S O → Prop
  /-- What the others may do between two actions of a task. -/
  rely : Bool → World S O → World S O → Prop
  /-- What an action at this site finds, given the outputs of its own task. -/
  site : K → List O → S → Prop
  /-- What the environment may answer. -/
  answer : C → Prop
  rely_refl : ∀ held w, rely held w w
  rely_trans : ∀ held w₁ w₂ w₃, rely held w₁ w₂ → rely held w₂ w₃ → rely held w₁ w₃
  /-- What a task does is what the others expect: they do not have the mutex where it has. -/
  guar_rely : ∀ held other w w', (held = true → other = false) → guar held w w' → rely other w w'
  /-- Without the mutex no task breaks the invariant. -/
  inv_guar : ∀ w w', guar false w w' → inv w → inv w'

section Safe
variable [DecidableEq L] (D : Discipline L S O C K)

/-- From this world on, with the mutex or without it and with these outputs of its own so
far, each action of the task is within the discipline, and where it ends `Q` holds. -/
def Prog.Safe : Prog L S O C K α → Bool → List O → (α → Bool → List O → World S O → Prop) →
    World S O → Prop
  | .done a, held, memo, Q, w => ∀ w', D.rely held w w' → Q a held memo w'
  | .fail, held, _, _, w => ∀ w', D.rely held w w' → held = true → D.inv w'
  | .acquire l ex site next, held, memo, Q, w => ∀ w', D.rely held w w' →
      D.site site memo w'.state →
      if l = D.mutex then ex = true ∧ (held = false → D.inv w' → next.Safe true memo Q w')
      else next.Safe held memo Q w'
  | .release l next, held, memo, Q, w => ∀ w', D.rely held w w' →
      if l = D.mutex then (held = true → D.inv w') ∧ next.Safe false memo Q w'
      else next.Safe held memo Q w'
  | .read next, held, memo, Q, w => ∀ w', D.rely held w w' → (next w'.state).Safe held memo Q w'
  | .write site f next, held, memo, Q, w => ∀ w', D.rely held w w' → (∀ o ∈ memo, o ∈ w'.out) →
      D.site site memo w'.state →
      D.guar held w' (w'.write f) ∧ next.Safe held memo Q (w'.write f)
  | .emit o next, held, memo, Q, w => ∀ w', D.rely held w w' →
      D.guar held w' (w'.emit o) ∧ next.Safe held (memo ++ [o]) Q (w'.emit o)
  | .choose next, held, memo, Q, w => ∀ c, D.answer c → ∀ w', D.rely held w w' →
      (next c).Safe held memo Q w'

variable {D} {held : Bool} {memo : List O} {w w' : World S O}

/-- What the others do in between does no harm. -/
theorem Prog.Safe.rely {p : Prog L S O C K α} {Q : α → Bool → List O → World S O → Prop}
    (h : p.Safe D held memo Q w) (hw : D.rely held w w') : p.Safe D held memo Q w' := by
  cases p with
  | choose next => exact fun c hc w₂ hw₂ => h c hc w₂ (D.rely_trans held w w' w₂ hw hw₂)
  | done a => exact fun w₂ hw₂ => h w₂ (D.rely_trans held w w' w₂ hw hw₂)
  | fail => exact fun w₂ hw₂ => h w₂ (D.rely_trans held w w' w₂ hw hw₂)
  | acquire l ex site next => exact fun w₂ hw₂ => h w₂ (D.rely_trans held w w' w₂ hw hw₂)
  | release l next => exact fun w₂ hw₂ => h w₂ (D.rely_trans held w w' w₂ hw hw₂)
  | read next => exact fun w₂ hw₂ => h w₂ (D.rely_trans held w w' w₂ hw hw₂)
  | write site f next => exact fun w₂ hw₂ => h w₂ (D.rely_trans held w w' w₂ hw hw₂)
  | emit o next => exact fun w₂ hw₂ => h w₂ (D.rely_trans held w w' w₂ hw hw₂)

/-- A task whose writes and outputs are within the discipline, with the mutex and without it,
and keep the invariant, is safe wherever the invariant holds if it has the mutex. -/
theorem Prog.Only.safe {A : L → Bool → Prop} {W : (S → S) → Prop} {E : O → Prop}
    {p : Prog L S O C K α} (hp : p.Only A W E) (hA : ∀ ex, A D.mutex ex → ex = true)
    (hW : ∀ f, W f → ∀ held w, D.guar held w (w.write f) ∧ (D.inv w → D.inv (w.write f)))
    (hE : ∀ o, E o → ∀ held w, D.guar held w (w.emit o) ∧ (D.inv w → D.inv (w.emit o)))
    (hrely : ∀ w w', D.rely true w w' → D.inv w → D.inv w') (hinv : held = true → D.inv w) :
    p.Safe D held memo (fun _ held' _ w' => held' = true → D.inv w') w := by
  -- While the task has the mutex, the invariant outlasts what the others do.
  have hkeep : ∀ {held : Bool} {w w' : World S O}, D.rely held w w' → (held = true → D.inv w) →
      held = true → D.inv w' := by
    intro held w w' hw hinv hheld
    subst hheld
    exact hrely w w' hw (hinv rfl)
  induction p generalizing held memo w with
  | done a => exact fun w' hw => hkeep hw hinv
  | fail => exact fun w' hw => hkeep hw hinv
  | acquire l ex site next ih =>
      intro w' hw _
      split
      · rename_i hl
        exact ⟨hA ex (hl ▸ hp.1), fun _ hfree => ih hp.2 fun _ => hfree⟩
      · exact ih hp.2 (hkeep hw hinv)
  | release l next ih =>
      intro w' hw
      split
      · exact ⟨hkeep hw hinv, ih hp nofun⟩
      · exact ih hp (hkeep hw hinv)
  | read next ih => exact fun w' hw => ih w'.state (hp _) (hkeep hw hinv)
  | write site g next ih =>
      intro w' hw _ _
      have hg := hW g hp.1 held w'
      exact ⟨hg.1, ih hp.2 fun hheld => hg.2 (hkeep hw hinv hheld)⟩
  | emit o next ih =>
      intro w' hw
      have ho := hE o hp.1 held w'
      exact ⟨ho.1, ih hp.2 fun hheld => ho.2 (hkeep hw hinv hheld)⟩
  | choose next ih => exact fun c _ w' hw => ih c (hp c) (hkeep hw hinv)

/-- A weaker end. -/
theorem Prog.Safe.mono {p : Prog L S O C K α} {Q Q' : α → Bool → List O → World S O → Prop}
    (h : p.Safe D held memo Q w)
    (hQ : ∀ a held' memo' w', Q a held' memo' w' → Q' a held' memo' w') :
    p.Safe D held memo Q' w := by
  induction p generalizing held memo w with
  | done a => exact fun w' hw => hQ _ _ _ _ (h w' hw)
  | fail => exact h
  | acquire l ex site next ih =>
      intro w' hw hs
      have h' := h w' hw hs
      split
      · rename_i hl
        rw [if_pos hl] at h'
        exact ⟨h'.1, fun hheld hinv => ih (h'.2 hheld hinv)⟩
      · rename_i hl
        rw [if_neg hl] at h'
        exact ih h'
  | release l next ih =>
      intro w' hw
      have h' := h w' hw
      split
      · rename_i hl
        rw [if_pos hl] at h'
        exact ⟨h'.1, ih h'.2⟩
      · rename_i hl
        rw [if_neg hl] at h'
        exact ih h'
  | read next ih => exact fun w' hw => ih w'.state (h w' hw)
  | write site g next ih => exact fun w' hw hm hs => ⟨(h w' hw hm hs).1, ih (h w' hw hm hs).2⟩
  | emit o next ih => exact fun w' hw => ⟨(h w' hw).1, ih (h w' hw).2⟩
  | choose next ih => exact fun c hc w' hw => ih c (h c hc w' hw)

end Safe

/-! ### Configurations -/

section Config
variable [DecidableEq L]

/-- The number of guards of the lock in a list of guards. -/
def guards (l : L) (held : List (L × Bool)) : Nat := held.countP fun h => decide (h.1 = l)

@[simp] theorem guards_nil (l : L) : guards l [] = 0 := rfl

theorem guards_cons_self (l : L) (ex : Bool) (held : List (L × Bool)) :
    guards l ((l, ex) :: held) = guards l held + 1 := by
  simp [guards]

theorem guards_cons_ne {l l' : L} (h : l' ≠ l) (ex : Bool) (held : List (L × Bool)) :
    guards l ((l', ex) :: held) = guards l held := by
  simp [guards, h]

theorem guards_dropGuard_self (l : L) (held : List (L × Bool)) :
    guards l (Config.dropGuard l held) = guards l held - 1 := by
  induction held with
  | nil => rfl
  | cons h held ih =>
      by_cases hl : h.1 = l
      · simp [Config.dropGuard, guards, hl]
      · simp only [Config.dropGuard, guards] at ih ⊢
        simp [hl, ih]

theorem guards_dropGuard_ne {l l' : L} (h : l' ≠ l) (held : List (L × Bool)) :
    guards l (Config.dropGuard l' held) = guards l held := by
  induction held with
  | nil => rfl
  | cons g held ih =>
      by_cases hl : g.1 = l'
      · simp [Config.dropGuard, guards, hl, h]
      · simp only [Config.dropGuard, guards] at ih ⊢
        simp [hl, List.countP_cons, ih]

variable (D : Discipline L S O C K)

/-- The task has the mutex. -/
def Thread.hasMutex (th : Thread L S O C K) : Bool := decide (0 < guards D.mutex th.held)

/-- The state and the outputs of a configuration. -/
def Config.world (c : Config L S O C K) : World S O := ⟨c.state, c.out⟩

/-- All tasks are safe, at most one has the mutex, and the invariant holds if none has. -/
structure Config.Safe (c : Config L S O C K) : Prop where
  threads : ∀ th ∈ c.threads,
    th.prog.Safe D (th.hasMutex D) th.memo (fun _ _ _ _ => True) c.world
  memo : ∀ th ∈ c.threads, ∀ o ∈ th.memo, o ∈ c.out
  single : ∀ th ∈ c.threads, guards D.mutex th.held ≤ 1
  exclusive : ∀ (i j : Nat) (th th' : Thread L S O C K), c.threads[i]? = some th →
    c.threads[j]? = some th' → th.hasMutex D = true → th'.hasMutex D = true → i = j
  inv : (∀ th ∈ c.threads, th.hasMutex D = false) → D.inv c.world

variable {D} {c c' : Config L S O C K}

/-- No tasks yet. -/
theorem Config.Safe.initial {s : S} (h : D.inv ⟨s, []⟩) :
    Config.Safe D (⟨s, [], []⟩ : Config L S O C K) where
  threads := fun _ hth => absurd hth List.not_mem_nil
  memo := fun _ hth => absurd hth List.not_mem_nil
  single := fun _ hth => absurd hth List.not_mem_nil
  exclusive := fun i j th th' hi => by simp at hi
  inv := fun _ => h

/-- A new task that is safe in any world. -/
theorem Config.Safe.spawn (h : c.Safe D) {p : Prog L S O C K Unit}
    (hp : ∀ w, p.Safe D false [] (fun _ _ _ _ => True) w) :
    Config.Safe D { c with threads := c.threads ++ [⟨p, [], []⟩] } := by
  have hnew : ∀ th ∈ c.threads ++ [⟨p, [], []⟩], th ∈ c.threads ∨ th = ⟨p, [], []⟩ :=
    fun th hth => (List.mem_append.mp hth).imp_right List.mem_singleton.mp
  -- A task that has the mutex was there before, at the same place.
  have hold : ∀ (i : Nat) (th : Thread L S O C K), (c.threads ++ [⟨p, [], []⟩])[i]? = some th →
      th.hasMutex D = true → c.threads[i]? = some th := by
    intro i th hi hth
    rw [List.getElem?_append] at hi
    split at hi
    · exact hi
    · have heq := List.mem_singleton.mp (List.mem_of_getElem? hi)
      subst heq
      cases hth
  refine ⟨fun th hth => ?_, fun th hth => ?_, fun th hth => ?_, ?_, fun hfree => ?_⟩
  · rcases hnew th hth with hth | rfl
    · exact h.threads th hth
    · exact hp c.world
  · rcases hnew th hth with hth | rfl
    · exact h.memo th hth
    · exact fun o ho => absurd ho List.not_mem_nil
  · rcases hnew th hth with hth | rfl
    · exact h.single th hth
    · exact Nat.zero_le 1
  · exact fun i j th th' hi hj hth hth' =>
      h.exclusive i j th th' (hold i th hi hth) (hold j th' hj hth') hth hth'
  · exact h.inv fun th hth => hfree th (List.mem_append_left _ hth)

/-- One task takes one action: it changes the world within `guar`, and what is left of it
is safe. -/
theorem Config.Safe.update (h : c.Safe D) {i : Nat} {th th' : Thread L S O C K}
    {w : World S O} (hi : c.threads[i]? = some th)
    (hguar : w = c.world ∨ D.guar (th.hasMutex D) c.world w)
    (hsafe : th'.prog.Safe D (th'.hasMutex D) th'.memo (fun _ _ _ _ => True) w)
    (hmemo : ∀ o ∈ th'.memo, o ∈ w.out) (hout : ∀ o ∈ c.out, o ∈ w.out)
    (hsingle : guards D.mutex th'.held ≤ 1)
    (htake : th.hasMutex D = false → th'.hasMutex D = true →
      ∀ th₂ ∈ c.threads, th₂.hasMutex D = false)
    (hinv : th.hasMutex D = true → th'.hasMutex D = false → D.inv w) :
    Config.Safe D ⟨w.state, w.out, c.threads.set i th'⟩ := by
  -- A task afterwards is the one that moved, or an old one at another place.
  have hget : ∀ (j : Nat) (th₂ : Thread L S O C K), (c.threads.set i th')[j]? = some th₂ →
      j = i ∧ th₂ = th' ∨ j ≠ i ∧ c.threads[j]? = some th₂ := by
    intro j th₂ hj
    by_cases hij : j = i
    · subst hij
      have hlt : j < c.threads.length := (List.getElem?_eq_some_iff.mp hi).1
      rw [List.getElem?_set_self hlt] at hj
      exact Or.inl ⟨rfl, (Option.some.inj hj).symm⟩
    · rw [List.getElem?_set_ne (Ne.symm hij)] at hj
      exact Or.inr ⟨hij, hj⟩
  have hmem : ∀ th₂ ∈ c.threads.set i th', th₂ = th' ∨
      ∃ j, j ≠ i ∧ c.threads[j]? = some th₂ := by
    intro th₂ hth₂
    obtain ⟨j, hj⟩ := List.mem_iff_getElem?.mp hth₂
    rcases hget j th₂ hj with ⟨-, rfl⟩ | hold
    · exact Or.inl rfl
    · exact Or.inr ⟨j, hold⟩
  -- While the task that moved has the mutex, no other has it.
  have hother : ∀ (j : Nat) (th₂ : Thread L S O C K), j ≠ i → c.threads[j]? = some th₂ →
      th.hasMutex D = true → th₂.hasMutex D = false := by
    intro j th₂ hij hj hth
    by_contra hne
    exact hij (h.exclusive j i th₂ th hj hi (Bool.not_eq_false _ ▸ hne) hth)
  refine ⟨fun th₂ hth₂ => ?_, fun th₂ hth₂ => ?_, fun th₂ hth₂ => ?_, ?_, fun hfree => ?_⟩
  · rcases hmem th₂ hth₂ with rfl | ⟨j, hij, hj⟩
    · exact hsafe
    · have hs := h.threads th₂ (List.mem_of_getElem? hj)
      rcases hguar with rfl | hguar
      · exact hs
      · exact hs.rely (D.guar_rely _ _ _ _ (hother j th₂ hij hj) hguar)
  · rcases hmem th₂ hth₂ with rfl | ⟨j, -, hj⟩
    · exact hmemo
    · exact fun o ho => hout o (h.memo th₂ (List.mem_of_getElem? hj) o ho)
  · rcases hmem th₂ hth₂ with rfl | ⟨j, -, hj⟩
    · exact hsingle
    · exact h.single th₂ (List.mem_of_getElem? hj)
  · -- A task that takes the mutex finds it free.
    have hnone : th'.hasMutex D = true → ∀ (j : Nat) (th₂ : Thread L S O C K), j ≠ i →
        c.threads[j]? = some th₂ → th₂.hasMutex D = false := by
      intro hth' j th₂ hij hj
      cases hth : th.hasMutex D with
      | true => exact hother j th₂ hij hj hth
      | false => exact htake hth hth' th₂ (List.mem_of_getElem? hj)
    intro j k th₂ th₃ hj hk h₂ h₃
    rcases hget j th₂ hj with ⟨rfl, rfl⟩ | ⟨hji, hj'⟩
    · rcases hget k th₃ hk with ⟨rfl, -⟩ | ⟨hki, hk'⟩
      · rfl
      · exact absurd (hnone h₂ k th₃ hki hk') (by rw [h₃]; decide)
    · rcases hget k th₃ hk with ⟨rfl, rfl⟩ | ⟨-, hk'⟩
      · exact absurd (hnone h₃ j th₂ hji hj') (by rw [h₂]; decide)
      · exact h.exclusive j k th₂ th₃ hj' hk' h₂ h₃
  · have hlt : i < c.threads.length := (List.getElem?_eq_some_iff.mp hi).1
    have hth' : th'.hasMutex D = false :=
      hfree th' (List.mem_of_getElem? (List.getElem?_set_self hlt))
    cases hth : th.hasMutex D with
    | true => exact hinv hth hth'
    | false =>
        have hbefore : D.inv c.world := by
          refine h.inv fun th₂ hth₂ => ?_
          obtain ⟨j, hj⟩ := List.mem_iff_getElem?.mp hth₂
          by_cases hij : j = i
          · subst hij
            obtain rfl := Option.some.inj (hi.symm.trans hj)
            exact hth
          · exact hfree th₂ (List.mem_of_getElem?
              ((List.getElem?_set_ne (Ne.symm hij)).trans hj))
        rcases hguar with rfl | hguar
        · exact hbefore
        · exact D.inv_guar _ _ (hth ▸ hguar) hbefore

/-- The case of an action that neither takes nor drops the mutex. -/
theorem Config.Safe.act (h : c.Safe D) {i : Nat} {th : Thread L S O C K} {w : World S O}
    (hi : c.threads[i]? = some th) {prog : Prog L S O C K Unit} {held : List (L × Bool)}
    {memo : List O} (hguar : w = c.world ∨ D.guar (th.hasMutex D) c.world w)
    (hheld : guards D.mutex held = guards D.mutex th.held)
    (hsafe : prog.Safe D (th.hasMutex D) memo (fun _ _ _ _ => True) w)
    (hmemo : ∀ o ∈ memo, o ∈ w.out) (hout : ∀ o ∈ c.out, o ∈ w.out) :
    Config.Safe D ⟨w.state, w.out, c.threads.set i ⟨prog, held, memo⟩⟩ := by
  have hhas : (⟨prog, held, memo⟩ : Thread L S O C K).hasMutex D = th.hasMutex D := by
    simp only [Thread.hasMutex, hheld]
  refine h.update hi hguar ?_ hmemo hout ?_ ?_ ?_
  · rw [hhas]
    exact hsafe
  · rw [hheld]
    exact h.single th (List.mem_of_getElem? hi)
  · intro hfree htaken
    rw [hhas, hfree] at htaken
    cases htaken
  · intro htaken hfree
    rw [hhas, htaken] at hfree
    cases hfree

/-- A task that may take the mutex finds that no task has it. -/
theorem Config.Free.hasMutex (h : c.Free D.mutex true) :
    ∀ th ∈ c.threads, th.hasMutex D = false := by
  intro th hth
  have hzero : guards D.mutex th.held = 0 := by
    rw [guards, List.countP_eq_zero]
    intro g hg heq
    exact absurd (h th hth g hg (of_decide_eq_true heq)).1 (by decide)
  simp [Thread.hasMutex, hzero]

/-- A task that has the mutex has one guard of it. -/
theorem Config.Safe.guards_eq (h : c.Safe D) {th : Thread L S O C K} (hth : th ∈ c.threads) :
    guards D.mutex th.held = if th.hasMutex D = true then 1 else 0 := by
  have hsingle := h.single th hth
  simp only [Thread.hasMutex, decide_eq_true_eq]
  split <;> omega

/-- A step of safe tasks that finds what the discipline assumes keeps them safe and is within
`guar`. New tasks are safe in any world. -/
theorem Config.Safe.step (h : c.Safe D) {a : Sched L S O C K} (hfinds : c.Finds D.site D.answer a)
    (hnew : ∀ p, a = .spawn p → ∀ w, p.Safe D false [] (fun _ _ _ _ => True) w)
    (hstep : c.step a = some c') :
    c'.Safe D ∧ (c'.world = c.world ∨ ∃ held, D.guar held c.world c'.world) := by
  cases a with
  | spawn p =>
      obtain rfl := Option.some.inj hstep
      exact ⟨h.spawn (hnew p rfl), Or.inl rfl⟩
  | advance i answer =>
      simp only [Config.step, Config.advance] at hstep
      cases hi : c.threads[i]? with
      | none => simp [hi] at hstep
      | some th =>
          obtain ⟨prog, held, memo⟩ := th
          have hmem := List.mem_of_getElem? hi
          have hsafe := h.threads _ hmem
          have hmemo := h.memo _ hmem
          have hsingle : guards D.mutex held ≤ 1 := h.single _ hmem
          have hrefl := D.rely_refl (Thread.hasMutex D ⟨prog, held, memo⟩) c.world
          simp only [Config.Finds, hi] at hfinds hstep
          cases prog with
          | done a => cases hstep
          | fail =>
              obtain rfl := Option.some.inj hstep
              refine ⟨h.update hi (Or.inl rfl) (fun _ _ => trivial) hmemo (fun _ => id)
                (Nat.zero_le 1) nofun fun htaken _ => hsafe c.world hrefl htaken, Or.inl rfl⟩
          | acquire l ex site next =>
              dsimp only at hstep
              by_cases hfree : c.Free l ex
              · rw [if_pos hfree] at hstep
                obtain rfl := Option.some.inj hstep
                have hsafe := hsafe c.world hrefl hfinds
                refine ⟨?_, Or.inl rfl⟩
                split at hsafe
                · rename_i hl
                  obtain ⟨rfl, hnext⟩ := hsafe
                  subst hl
                  have hnone := hfree.hasMutex
                  have hzero := h.guards_eq hmem
                  rw [hnone _ hmem, if_neg (by decide)] at hzero
                  have hone : guards D.mutex ((D.mutex, true) :: held) = 1 := by
                    rw [guards_cons_self, hzero]
                  refine h.update hi (Or.inl rfl) ?_ hmemo (fun _ => id) (Nat.le_of_eq hone)
                    (fun _ _ => hnone) fun htaken => absurd htaken (by rw [hnone _ hmem]; decide)
                  have hhas : Thread.hasMutex D ⟨next, (D.mutex, true) :: held, memo⟩ = true := by
                    simp [Thread.hasMutex, hone]
                  rw [hhas]
                  exact hnext (hnone _ hmem) (h.inv hnone)
                · rename_i hl
                  exact h.act hi (Or.inl rfl) (guards_cons_ne hl ex held) hsafe hmemo fun _ => id
              · rw [if_neg hfree] at hstep
                cases hstep
          | release l next =>
              obtain rfl := Option.some.inj hstep
              have hsafe := hsafe c.world hrefl
              refine ⟨?_, Or.inl rfl⟩
              split at hsafe
              · rename_i hl
                subst hl
                have hzero : guards D.mutex (Config.dropGuard D.mutex held) = 0 := by
                  rw [guards_dropGuard_self]
                  omega
                have hhas : Thread.hasMutex D ⟨next, Config.dropGuard D.mutex held, memo⟩
                    = false := by
                  simp [Thread.hasMutex, hzero]
                refine h.update hi (Or.inl rfl) ?_ hmemo (fun _ => id) (by rw [hzero]; omega)
                  (fun _ htaken => absurd htaken (by rw [hhas]; decide)) fun htaken _ =>
                    hsafe.1 htaken
                rw [hhas]
                exact hsafe.2
              · rename_i hl
                exact h.act hi (Or.inl rfl) (guards_dropGuard_ne hl held) hsafe hmemo fun _ => id
          | read next =>
              obtain rfl := Option.some.inj hstep
              exact ⟨h.act hi (Or.inl rfl) rfl (hsafe c.world hrefl) hmemo fun _ => id, Or.inl rfl⟩
          | write site f next =>
              obtain rfl := Option.some.inj hstep
              obtain ⟨hguar, hnext⟩ := hsafe c.world hrefl hmemo hfinds
              exact ⟨h.act hi (Or.inr hguar) rfl hnext hmemo fun _ => id, Or.inr ⟨_, hguar⟩⟩
          | emit o next =>
              obtain rfl := Option.some.inj hstep
              obtain ⟨hguar, hnext⟩ := hsafe c.world hrefl
              refine ⟨h.act hi (Or.inr hguar) rfl hnext ?_ ?_, Or.inr ⟨_, hguar⟩⟩
              · intro o' ho'
                rcases List.mem_append.mp ho' with ho' | ho'
                · exact List.mem_append_left _ (hmemo o' ho')
                · exact List.mem_append_right _ ho'
              · exact fun o' ho' => List.mem_append_left _ ho'
          | choose next =>
              obtain rfl := Option.some.inj hstep
              exact ⟨h.act hi (Or.inl rfl) rfl (hsafe answer hfinds c.world hrefl) hmemo
                fun _ => id, Or.inl rfl⟩

end Config

end RaftEbpf.Lib
