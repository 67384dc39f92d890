import Mathlib.Algebra.BigOperators.Group.Finset.Piecewise
import RaftEbpf.Lib.CriticalSection

/-!
# `RaftEbpf.Lib.Ledger`: what tasks hand on and never copy

A `Ledger` counts credits of some kinds: those that the shared state holds, and those that an
output spends. A task has a purse of its own. `Prog.Pays` checks that a task takes what it spends
from its purse or out of the state: each write leaves no more credits in the state and in the purse
than there were, and each output costs what the ledger says. It may use what the discipline of the
mutex promises, so that two tasks never take one credit out of the state.

`Config.Solvent.advance` is the soundness: all credits in the state, in the purses and in the
outputs together never get more, but for the purse that a new task brings
(`Config.Solvent.spawn`). So each kind of output is made at most as often as tasks were given the
credit for it (`Config.Solvent.spent_le`).
-/

set_option autoImplicit false

namespace RaftEbpf.Lib

/-- The credits in a state, and those that an output spends, for each kind. -/
structure Ledger (S O T : Type) where
  stored : S → T → Nat
  spent : O → T → Nat

namespace Ledger

variable {S O T : Type} (G : Ledger S O T)

/-- The credits that these outputs spend. -/
def total : List O → T → Nat
  | [], _ => 0
  | o :: out, t => G.spent o t + total out t

@[simp] theorem total_nil (t : T) : G.total [] t = 0 := rfl

@[simp] theorem total_append (out : List O) (o : O) (t : T) :
    G.total (out ++ [o]) t = G.total out t + G.spent o t := by
  induction out with
  | nil => exact Nat.add_comm _ _
  | cons o' out ih =>
      show G.spent o' t + G.total (out ++ [o]) t = G.spent o' t + G.total out t + G.spent o t
      rw [ih, Nat.add_assoc]

end Ledger

variable {L S O C K T : Type} {α β : Type} [DecidableEq L]

namespace Prog

/-- In this world, with the mutex or without it, the task pays for what it does. It ends where `Q`
holds of what is left in its purse. -/
def Pays (D : Discipline L S O C K) (G : Ledger S O T) :
    Prog L S O C K α → Bool → (T → Nat) → (α → Bool → (T → Nat) → World S O → Prop) →
      World S O → Prop
  | done a, held, purse, Q, w => ∀ w', D.rely held w w' → Q a held purse w'
  | fail, _, _, _, _ => True
  | acquire l _ _ next, held, purse, Q, w => ∀ w', D.rely held w w' →
      next.Pays D G (if l = D.mutex then true else held) purse Q w'
  | release l next, held, purse, Q, w => ∀ w', D.rely held w w' →
      next.Pays D G (if l = D.mutex then false else held) purse Q w'
  | read next, held, purse, Q, w => ∀ w', D.rely held w w' →
      (next w'.state).Pays D G held purse Q w'
  | write _ f next, held, purse, Q, w => ∀ w', D.rely held w w' → ∃ purse',
      (∀ t, G.stored (f w'.state) t + purse' t ≤ G.stored w'.state t + purse t) ∧
        next.Pays D G held purse' Q (w'.write f)
  | emit o next, held, purse, Q, w => ∀ w', D.rely held w w' → ∃ purse',
      (∀ t, G.spent o t + purse' t ≤ purse t) ∧ next.Pays D G held purse' Q (w'.emit o)
  | choose next, held, purse, Q, w => ∀ c w', D.rely held w w' →
      (next c).Pays D G held purse Q w'

variable {D : Discipline L S O C K} {G : Ledger S O T} {held : Bool} {purse : T → Nat}
  {w w' : World S O}

/-- What the others do costs the task nothing. -/
theorem Pays.rely {p : Prog L S O C K α} {Q : α → Bool → (T → Nat) → World S O → Prop}
    (h : p.Pays D G held purse Q w) (hw : D.rely held w w') : p.Pays D G held purse Q w' := by
  cases p with
  | fail => trivial
  | choose next => exact fun c w₂ hw₂ => h c w₂ (D.rely_trans held w w' w₂ hw hw₂)
  | done a => exact fun w₂ hw₂ => h w₂ (D.rely_trans held w w' w₂ hw hw₂)
  | acquire l ex site next => exact fun w₂ hw₂ => h w₂ (D.rely_trans held w w' w₂ hw hw₂)
  | release l next => exact fun w₂ hw₂ => h w₂ (D.rely_trans held w w' w₂ hw hw₂)
  | read next => exact fun w₂ hw₂ => h w₂ (D.rely_trans held w w' w₂ hw hw₂)
  | write site f next => exact fun w₂ hw₂ => h w₂ (D.rely_trans held w w' w₂ hw hw₂)
  | emit o next => exact fun w₂ hw₂ => h w₂ (D.rely_trans held w w' w₂ hw hw₂)

/-- A sequence pays where its second part does, with what the first one leaves. -/
theorem Pays.bind {p : Prog L S O C K α} {f : α → Prog L S O C K β}
    {Q : β → Bool → (T → Nat) → World S O → Prop}
    (h : p.Pays D G held purse (fun a held' purse' w' => (f a).Pays D G held' purse' Q w') w) :
    (p >>= f).Pays D G held purse Q w := by
  show (p.bind f).Pays D G held purse Q w
  induction p generalizing held purse w with
  | done a => exact h w (D.rely_refl held w)
  | fail => trivial
  | acquire l ex site next ih => exact fun w' hw => ih (h w' hw)
  | release l next ih => exact fun w' hw => ih (h w' hw)
  | read next ih => exact fun w' hw => ih w'.state (h w' hw)
  | write site g next ih =>
      intro w' hw
      obtain ⟨purse', hpaid, hnext⟩ := h w' hw
      exact ⟨purse', hpaid, ih hnext⟩
  | emit o next ih =>
      intro w' hw
      obtain ⟨purse', hpaid, hnext⟩ := h w' hw
      exact ⟨purse', hpaid, ih hnext⟩
  | choose next ih => exact fun c w' hw => ih c (h c w' hw)

theorem Pays.mono {p : Prog L S O C K α} {Q Q' : α → Bool → (T → Nat) → World S O → Prop}
    (h : p.Pays D G held purse Q w) (hQ : ∀ a held' purse' w', Q a held' purse' w' →
      Q' a held' purse' w') : p.Pays D G held purse Q' w := by
  induction p generalizing held purse w with
  | done a => exact fun w' hw => hQ _ _ _ _ (h w' hw)
  | fail => trivial
  | acquire l ex site next ih => exact fun w' hw => ih (h w' hw)
  | release l next ih => exact fun w' hw => ih (h w' hw)
  | read next ih => exact fun w' hw => ih w'.state (h w' hw)
  | write site g next ih =>
      intro w' hw
      obtain ⟨purse', hpaid, hnext⟩ := h w' hw
      exact ⟨purse', hpaid, ih hnext⟩
  | emit o next ih =>
      intro w' hw
      obtain ⟨purse', hpaid, hnext⟩ := h w' hw
      exact ⟨purse', hpaid, ih hnext⟩
  | choose next ih => exact fun c w' hw => ih c (h c w' hw)

/-- In any world the task starts without the mutex and with an empty purse, pays for what it does,
and ends so. -/
def Frugal (D : Discipline L S O C K) (G : Ledger S O T) (p : Prog L S O C K α) : Prop :=
  ∀ w, p.Pays D G false (fun _ => 0) (fun _ held purse _ => held = false ∧ purse = fun _ => 0) w

theorem Frugal.bind {p : Prog L S O C K α} {f : α → Prog L S O C K β} (hp : p.Frugal D G)
    (hf : ∀ a, (f a).Frugal D G) : (p >>= f).Frugal D G := by
  intro w
  refine Pays.bind ((hp w).mono fun a held purse w' hend => ?_)
  obtain ⟨rfl, rfl⟩ := hend
  exact hf a w'

/-- A task that never takes the mutex, and neither stores nor spends, keeps its purse. -/
theorem Only.pays {A : L → Bool → Prop} {W : (S → S) → Prop} {E : O → Prop} {p : Prog L S O C K α}
    (hp : p.Only A W E) (hA : ∀ l ex, A l ex → l ≠ D.mutex)
    (hW : ∀ f, W f → ∀ s, G.stored (f s) = G.stored s) (hE : ∀ o, E o → ∀ t, G.spent o t = 0) :
    p.Pays D G false purse (fun _ held purse' _ => held = false ∧ purse' = purse) w := by
  induction p generalizing w with
  | done a => exact fun _ _ => ⟨rfl, rfl⟩
  | fail => trivial
  | acquire l ex site next ih =>
      intro w' _
      rw [if_neg (hA l ex hp.1)]
      exact ih hp.2
  | release l next ih =>
      intro w' _
      rw [ite_self]
      exact ih hp
  | read next ih => exact fun w' _ => ih w'.state (hp _)
  | write site g next ih =>
      refine fun w' _ => ⟨purse, fun t => ?_, ih hp.2⟩
      rw [hW g hp.1 w'.state]
  | emit o next ih =>
      refine fun w' _ => ⟨purse, fun t => ?_, ih hp.2⟩
      rw [hE o hp.1 t, Nat.zero_add]
  | choose next ih => exact fun c w' _ => ih c (hp c)

end Prog

/-! ### Configurations -/

namespace Config

variable {D : Discipline L S O C K} {G : Ledger S O T} {c c' : Config L S O C K}

/-- A task that takes a lock has the mutex if it had it, or if the lock is the mutex. -/
theorem hasMutex_take (l : L) (ex : Bool) (prog : Prog L S O C K Unit) (held : List (L × Bool))
    (memo : List O) : (⟨prog, (l, ex) :: held, memo⟩ : Thread L S O C K).hasMutex D
      = if l = D.mutex then true else (⟨prog, held, memo⟩ : Thread L S O C K).hasMutex D := by
  unfold Thread.hasMutex
  split
  · rename_i hl
    rw [hl, guards_cons_self]
    exact decide_eq_true (Nat.succ_pos _)
  · rename_i hl
    rw [guards_cons_ne hl]

/-- A task that drops a lock has the mutex if it had it, and if the lock is another one. -/
theorem hasMutex_drop (l : L) (prog : Prog L S O C K Unit) {held : List (L × Bool)}
    (hsingle : guards D.mutex held ≤ 1) (memo : List O) :
    (⟨prog, dropGuard l held, memo⟩ : Thread L S O C K).hasMutex D
      = if l = D.mutex then false else (⟨prog, held, memo⟩ : Thread L S O C K).hasMutex D := by
  unfold Thread.hasMutex
  split
  · rename_i hl
    rw [hl, guards_dropGuard_self]
    exact decide_eq_false (by omega)
  · rename_i hl
    rw [guards_dropGuard_ne hl]

/-- What one task does within the discipline the others expect. -/
theorem Safe.others (h : c.Safe D) {i : Nat} {th : Thread L S O C K} {w : World S O}
    (hi : c.threads[i]? = some th) (hguar : w = c.world ∨ D.guar (th.hasMutex D) c.world w)
    {j : Nat} {th' : Thread L S O C K} (hij : j ≠ i) (hj : c.threads[j]? = some th') :
    D.rely (th'.hasMutex D) c.world w := by
  rcases hguar with rfl | hguar
  · exact D.rely_refl _ _
  · refine D.guar_rely _ _ _ _ (fun hth => ?_) hguar
    by_contra hne
    exact hij (h.exclusive j i th' th hj hi (Bool.not_eq_false _ ▸ hne) hth)

/-- The tasks pay for what they do, and all credits together are at most `supply`. -/
def Solvent (D : Discipline L S O C K) (G : Ledger S O T) (supply : T → Nat)
    (c : Config L S O C K) : Prop :=
  ∃ purse : T → Nat → Nat,
    (∀ (i : Nat) (th : Thread L S O C K), c.threads[i]? = some th →
      th.prog.Pays D G (th.hasMutex D) (fun t => purse t i) (fun _ _ _ _ => True) c.world) ∧
    ∀ t, G.stored c.state t + G.total c.out t + ∑ i ∈ Finset.range c.threads.length, purse t i
      ≤ supply t

/-- An output is made at most as often as there were credits for it. -/
theorem Solvent.spent_le {supply : T → Nat} (h : c.Solvent D G supply) (t : T) :
    G.total c.out t ≤ supply t := by
  obtain ⟨purse, -, hbound⟩ := h
  have := hbound t
  omega

theorem Solvent.mono {supply supply' : T → Nat} (h : c.Solvent D G supply)
    (hsupply : ∀ t, supply t ≤ supply' t) : c.Solvent D G supply' := by
  obtain ⟨purse, hpays, hbound⟩ := h
  exact ⟨purse, hpays, fun t => Nat.le_trans (hbound t) (hsupply t)⟩

/-- No tasks yet. -/
theorem Solvent.initial {s : S} (h : ∀ t, G.stored s t = 0) :
    Solvent D G (fun _ => 0) (⟨s, [], []⟩ : Config L S O C K) := by
  refine ⟨fun _ _ => 0, fun i th hi => ?_, fun t => ?_⟩
  · simp at hi
  · simp [h t]

/-- A new task brings its purse. -/
theorem Solvent.spawn {supply supply' : T → Nat} (h : c.Solvent D G supply)
    {p : Prog L S O C K Unit} {purse : T → Nat}
    (hp : ∀ w, p.Pays D G false purse (fun _ _ _ _ => True) w)
    (hsupply : ∀ t, supply t + purse t ≤ supply' t) :
    Solvent D G supply' { c with threads := c.threads ++ [⟨p, [], []⟩] } := by
  obtain ⟨purses, hpays, hbound⟩ := h
  refine ⟨fun t i => if i < c.threads.length then purses t i else purse t, fun i th hi => ?_,
    fun t => ?_⟩
  · show th.prog.Pays D G _ _ _ c.world
    rw [List.getElem?_append] at hi
    split at hi
    · rename_i hlt
      simp only [if_pos hlt]
      exact hpays i th hi
    · rename_i hlt
      obtain rfl := List.mem_singleton.mp (List.mem_of_getElem? hi)
      simp only [if_neg hlt]
      exact hp c.world
  · -- The new purse is the last one of the sum.
    have hold : ∑ i ∈ Finset.range c.threads.length,
        (if i < c.threads.length then purses t i else purse t)
          = ∑ i ∈ Finset.range c.threads.length, purses t i :=
      Finset.sum_congr rfl fun i hi => if_pos (Finset.mem_range.mp hi)
    simp only [List.length_append, List.length_singleton]
    rw [Finset.sum_range_succ, hold, if_neg (Nat.lt_irrefl _)]
    have := hbound t
    have := hsupply t
    show G.stored c.state t + G.total c.out t + _ ≤ _
    omega

/-- One task takes one action and pays for it. -/
theorem Solvent.update {supply : T → Nat} (h : c.Solvent D G supply) (hsafe : c.Safe D) {i : Nat}
    {th th' : Thread L S O C K} {w : World S O} (hi : c.threads[i]? = some th)
    (hguar : w = c.world ∨ D.guar (th.hasMutex D) c.world w)
    (hact : ∀ purse : T → Nat,
      th.prog.Pays D G (th.hasMutex D) purse (fun _ _ _ _ => True) c.world → ∃ purse' : T → Nat,
        (∀ t, G.stored w.state t + G.total w.out t + purse' t
          ≤ G.stored c.state t + G.total c.out t + purse t) ∧
        th'.prog.Pays D G (th'.hasMutex D) purse' (fun _ _ _ _ => True) w) :
    Solvent D G supply ⟨w.state, w.out, c.threads.set i th'⟩ := by
  obtain ⟨purses, hpays, hbound⟩ := h
  obtain ⟨purse', hpaid, hnext⟩ := hact _ (hpays i th hi)
  have hlt : i < c.threads.length := (List.getElem?_eq_some_iff.mp hi).1
  refine ⟨fun t => Function.update (purses t) i (purse' t), fun j th₂ hj => ?_, fun t => ?_⟩
  · by_cases hij : j = i
    · subst hij
      rw [List.getElem?_set_self hlt] at hj
      obtain rfl := Option.some.inj hj
      simp only [Function.update_self]
      exact hnext
    · rw [List.getElem?_set_ne (Ne.symm hij)] at hj
      simp only [Function.update_of_ne hij]
      exact (hpays j th₂ hj).rely (hsafe.others hi hguar hij hj)
  · have hmem : i ∈ Finset.range c.threads.length := Finset.mem_range.mpr hlt
    simp only [List.length_set]
    rw [Finset.sum_update_of_mem hmem]
    have hsplit := Finset.add_sum_erase _ (purses t) hmem
    rw [Finset.sdiff_singleton_eq_erase]
    have := hbound t
    have := hpaid t
    omega

/-- A step of a task that is safe and pays leaves all credits together as many as before, or
fewer. -/
theorem Solvent.advance {supply : T → Nat} (h : c.Solvent D G supply) (hsafe : c.Safe D) {i : Nat}
    {answer : C} (hfinds : c.Finds D.site D.answer (.advance i answer))
    (hstep : c.advance i answer = some c') : c'.Solvent D G supply := by
  simp only [Config.advance] at hstep
  cases hi : c.threads[i]? with
  | none => simp [hi] at hstep
  | some th =>
      obtain ⟨prog, held, memo⟩ := th
      have hmem := List.mem_of_getElem? hi
      have hth := hsafe.threads _ hmem
      have hsingle : guards D.mutex held ≤ 1 := hsafe.single _ hmem
      have hrefl := D.rely_refl (Thread.hasMutex D ⟨prog, held, memo⟩) c.world
      simp only [Config.Finds, hi] at hfinds hstep
      cases prog with
      | done a => cases hstep
      | fail =>
          obtain rfl := Option.some.inj hstep
          exact h.update hsafe hi (Or.inl rfl) fun purse _ =>
            ⟨purse, fun _ => Nat.le_refl _, fun _ _ => trivial⟩
      | acquire l ex site next =>
          dsimp only at hstep
          split at hstep
          · obtain rfl := Option.some.inj hstep
            refine h.update hsafe hi (Or.inl rfl) fun purse hpays =>
              ⟨purse, fun _ => Nat.le_refl _, ?_⟩
            rw [hasMutex_take]
            exact hpays c.world hrefl
          · cases hstep
      | release l next =>
          obtain rfl := Option.some.inj hstep
          refine h.update hsafe hi (Or.inl rfl) fun purse hpays =>
            ⟨purse, fun _ => Nat.le_refl _, ?_⟩
          rw [hasMutex_drop l next hsingle memo]
          exact hpays c.world hrefl
      | read next =>
          obtain rfl := Option.some.inj hstep
          exact h.update hsafe hi (Or.inl rfl) fun purse hpays =>
            ⟨purse, fun _ => Nat.le_refl _, hpays c.world hrefl⟩
      | write site f next =>
          obtain rfl := Option.some.inj hstep
          have hguar := (hth c.world hrefl (hsafe.memo _ hmem) hfinds).1
          refine h.update hsafe hi (Or.inr hguar) fun purse hpays => ?_
          obtain ⟨purse', hpaid, hnext⟩ := hpays c.world hrefl
          refine ⟨purse', fun t => ?_, hnext⟩
          have := hpaid t
          show G.stored (f c.state) t + G.total c.out t + purse' t ≤ _
          change G.stored (f c.state) t + purse' t ≤ G.stored c.state t + purse t at this
          omega
      | emit o next =>
          obtain rfl := Option.some.inj hstep
          have hguar := (hth c.world hrefl).1
          refine h.update hsafe hi (Or.inr hguar) fun purse hpays => ?_
          obtain ⟨purse', hpaid, hnext⟩ := hpays c.world hrefl
          refine ⟨purse', fun t => ?_, hnext⟩
          have := hpaid t
          show G.stored c.state t + G.total (c.out ++ [o]) t + purse' t ≤ _
          rw [Ledger.total_append]
          omega
      | choose next =>
          obtain rfl := Option.some.inj hstep
          exact h.update hsafe hi (Or.inl rfl) fun purse hpays =>
            ⟨purse, fun _ => Nat.le_refl _, hpays answer c.world hrefl⟩

end Config

end RaftEbpf.Lib
