import Mathlib.Logic.Function.Basic
import RaftEbpf.Lib.ProgLogic

/-!
# `RaftEbpf.Lib.Custody`: what the guards of several locks protect

Rely-guarantee reasoning for tasks over any number of read-write locks. A `Custody` says which
part of the shared state each lock protects (`same`) and what every action keeps (`grows`). A
task with a guard of the lock, shared or exclusive, finds that part as it left it, and a task
writes to it only with the exclusive guard.

Each task has a note beside it that no task reads: what it saw when it last took a lock. An
assumption about the tasks that take a lock (`may`) can so compare the state with what the task
saw before.

* `Prog.Guarded`: the task keeps to the custody, whatever the others do meanwhile.
* `Config.Guarded.step`: a step of such tasks whose acquisition finds what is assumed is within
  `grows`.
-/

set_option autoImplicit false

namespace RaftEbpf.Lib

/-- Which part of the state each lock protects, what all actions keep, and what is noted and
assumed when a task takes a lock. -/
structure Custody (L S G : Type) where
  /-- What the lock protects is the same. -/
  same : L → S → S → Prop
  /-- From a state to a later one. -/
  grows : S → S → Prop
  /-- The note of a task that takes the lock. -/
  note : L → Bool → S → G → G
  /-- Assumed of a task with this note and these guards that takes the lock. -/
  may : G → List (L × Bool) → L → Bool → S → Prop
  same_refl : ∀ l s, same l s s
  same_trans : ∀ {l s₁ s₂ s₃}, same l s₁ s₂ → same l s₂ s₃ → same l s₁ s₃
  grows_refl : ∀ s, grows s s
  grows_trans : ∀ {s₁ s₂ s₃}, grows s₁ s₂ → grows s₂ s₃ → grows s₁ s₃

namespace Custody

variable {L S G : Type} (D : Custody L S G)

/-- What the others do while a task has these guards. -/
def Rely (held : List (L × Bool)) (s s' : S) : Prop :=
  D.grows s s' ∧ ∀ g ∈ held, D.same g.1 s s'

/-- What a task with these guards may do. -/
def Guar (held : List (L × Bool)) (s s' : S) : Prop :=
  D.grows s s' ∧ ∀ l, (l, true) ∉ held → D.same l s s'

theorem Rely.refl (held : List (L × Bool)) (s : S) : D.Rely held s s :=
  ⟨D.grows_refl s, fun g _ => D.same_refl g.1 s⟩

variable {D}

theorem Rely.trans {held : List (L × Bool)} {s₁ s₂ s₃ : S} (h : D.Rely held s₁ s₂)
    (h' : D.Rely held s₂ s₃) : D.Rely held s₁ s₃ :=
  ⟨D.grows_trans h.1 h'.1, fun g hg => D.same_trans (h.2 g hg) (h'.2 g hg)⟩

/-- With fewer guards a task relies on less. -/
theorem Rely.mono {held held' : List (L × Bool)} {s s' : S} (h : D.Rely held s s')
    (hsub : ∀ g ∈ held', g ∈ held) : D.Rely held' s s' :=
  ⟨h.1, fun g hg => h.2 g (hsub g hg)⟩

end Custody

variable {L S O C K G : Type} {α β : Type} {D : Custody L S G}

namespace Config

/-- The notes of the tasks after a step: the task that moves may have taken a lock. -/
def noted (note : L → Bool → S → G → G) (c : Config L S O C K) (a : Sched L S O C K)
    (notes : Nat → G) : Nat → G :=
  match a with
  | .spawn _ => notes
  | .advance i _ =>
      match c.threads[i]? with
      | none => notes
      | some th =>
          match th.prog with
          | .acquire l ex _ _ => Function.update notes i (note l ex c.state (notes i))
          | _ => notes

/-- The acquisition of the next step, if it is one, finds what `may` says. -/
def Takes (may : G → List (L × Bool) → L → Bool → S → Prop) (c : Config L S O C K)
    (a : Sched L S O C K) (notes : Nat → G) : Prop :=
  match a with
  | .spawn _ => True
  | .advance i _ =>
      match c.threads[i]? with
      | none => True
      | some th =>
          match th.prog with
          | .acquire l ex _ _ => may (notes i) th.held l ex c.state
          | _ => True

instance (may : G → List (L × Bool) → L → Bool → S → Prop)
    [∀ g held l ex s, Decidable (may g held l ex s)] (c : Config L S O C K)
    (a : Sched L S O C K) (notes : Nat → G) : Decidable (c.Takes may a notes) := by
  unfold Takes
  exact match a with
    | .spawn _ => inferInstance
    | .advance i _ => by
        dsimp only
        exact match c.threads[i]? with
          | none => inferInstance
          | some ⟨prog, _, _⟩ =>
              match prog with
              | .done _ | .fail | .acquire _ _ _ _ | .release _ _ | .read _ | .write _ _ _
              | .emit _ _ | .choose _ => inferInstance

end Config

variable [DecidableEq L]

namespace Prog

/-- With this note and these guards, from this state on, the task keeps to the custody. It ends
where `Q` holds. -/
def Guarded (D : Custody L S G) (Q : α → G → List (L × Bool) → S → Prop) :
    Prog L S O C K α → G → List (L × Bool) → S → Prop
  | done a, g, held, s => ∀ s', D.Rely held s s' → Q a g held s'
  | fail, _, _, _ => True
  | acquire l ex _ next, g, held, s => ∀ s', D.Rely held s s' → D.may g held l ex s' →
      next.Guarded D Q (D.note l ex s' g) ((l, ex) :: held) s'
  | release l next, g, held, s => ∀ s', D.Rely held s s' →
      next.Guarded D Q g (Config.dropGuard l held) s'
  | read next, g, held, s => ∀ s', D.Rely held s s' → (next s').Guarded D Q g held s'
  | write _ f next, g, held, s => ∀ s', D.Rely held s s' →
      D.Guar held s' (f s') ∧ next.Guarded D Q g held (f s')
  | emit _ next, g, held, s => ∀ s', D.Rely held s s' → next.Guarded D Q g held s'
  | choose next, g, held, s => ∀ c s', D.Rely held s s' → (next c).Guarded D Q g held s'

variable {Q : α → G → List (L × Bool) → S → Prop} {g : G} {held : List (L × Bool)} {s s' : S}

/-- What the others do leaves a task in its custody. -/
theorem Guarded.rely {p : Prog L S O C K α} (h : p.Guarded D Q g held s)
    (hs : D.Rely held s s') : p.Guarded D Q g held s' := by
  cases p with
  | done a => exact fun s₂ hs₂ => h s₂ (hs.trans hs₂)
  | fail => trivial
  | acquire l ex site next => exact fun s₂ hs₂ => h s₂ (hs.trans hs₂)
  | release l next => exact fun s₂ hs₂ => h s₂ (hs.trans hs₂)
  | read next => exact fun s₂ hs₂ => h s₂ (hs.trans hs₂)
  | write site f next => exact fun s₂ hs₂ => h s₂ (hs.trans hs₂)
  | emit o next => exact fun s₂ hs₂ => h s₂ (hs.trans hs₂)
  | choose next => exact fun c s₂ hs₂ => h c s₂ (hs.trans hs₂)

/-- A sequence keeps to the custody where its second part does so from each end of the first. -/
theorem guarded_bind {p : Prog L S O C K α} {f : α → Prog L S O C K β}
    {Q : β → G → List (L × Bool) → S → Prop}
    (h : p.Guarded D (fun a g' held' s' => (f a).Guarded D Q g' held' s') g held s) :
    (p >>= f).Guarded D Q g held s := by
  show (p.bind f).Guarded D Q g held s
  induction p generalizing g held s with
  | done a => exact h s (Custody.Rely.refl D held s)
  | fail => trivial
  | acquire l ex site next ih => exact fun s' hs' hmay => ih (h s' hs' hmay)
  | release l next ih => exact fun s' hs' => ih (h s' hs')
  | read next ih => exact fun s' hs' => ih s' (h s' hs')
  | write site w next ih => exact fun s' hs' => ⟨(h s' hs').1, ih (h s' hs').2⟩
  | emit o next ih => exact fun s' hs' => ih (h s' hs')
  | choose next ih => exact fun c s' hs' => ih c (h c s' hs')

/-- Writes to nothing that a lock protects may stand anywhere. -/
theorem Only.guarded {A : L → Bool → Prop} {W : (S → S) → Prop} {E : O → Prop}
    {p : Prog L S O C K α} (h : p.Only A W E)
    (hW : ∀ f, W f → ∀ s, D.grows s (f s) ∧ ∀ l, D.same l s (f s)) (g : G)
    (held : List (L × Bool)) (s : S) : p.Guarded D (fun _ _ _ _ => True) g held s := by
  induction p generalizing g held s with
  | done a => exact fun _ _ => trivial
  | fail => trivial
  | acquire l ex site next ih => exact fun s' _ _ => ih h.2 _ _ s'
  | release l next ih => exact fun s' _ => ih h g _ s'
  | read next ih => exact fun s' _ => ih s' (h s') g held s'
  | write site f next ih =>
      intro s' _
      obtain ⟨hgrows, hsame⟩ := hW f h.1 s'
      exact ⟨⟨hgrows, fun l _ => hsame l⟩, ih h.2 g held (f s')⟩
  | emit o next ih => exact fun s' _ => ih h.2 g held s'
  | choose next ih => exact fun c s' _ => ih c (h c) g held s'

end Prog

namespace Config

/-- All tasks keep to the custody, and no two have guards of one lock unless both share it. -/
structure Guarded (D : Custody L S G) (c : Config L S O C K) (notes : Nat → G) : Prop where
  threads : ∀ (i : Nat) (th : Thread L S O C K), c.threads[i]? = some th →
    th.prog.Guarded D (fun _ _ _ _ => True) (notes i) th.held c.state
  exclusive : ∀ (i j : Nat) (th th' : Thread L S O C K), c.threads[i]? = some th →
    c.threads[j]? = some th' → i ≠ j → ∀ l ex, (l, true) ∈ th.held → (l, ex) ∉ th'.held

variable {c c' : Config L S O C K} {notes : Nat → G}

/-- No tasks yet. -/
theorem Guarded.initial (s : S) (notes : Nat → G) :
    Guarded D (⟨s, [], []⟩ : Config L S O C K) notes where
  threads := fun i th hi => by simp at hi
  exclusive := fun i j th th' hi => by simp at hi

/-- A guard after a drop was there before. -/
theorem mem_of_mem_dropGuard {l : L} {held : List (L × Bool)} {g : L × Bool}
    (h : g ∈ dropGuard l held) : g ∈ held :=
  List.mem_of_mem_eraseP h

/-- A new task that keeps to the custody, whatever its note and the state. -/
theorem Guarded.spawn (h : c.Guarded D notes) {p : Prog L S O C K Unit}
    (hp : ∀ g s, p.Guarded D (fun _ _ _ _ => True) g [] s) :
    Guarded D { c with threads := c.threads ++ [⟨p, [], []⟩] } notes := by
  -- A task is an old one at its old place, or the new one, without guards.
  have hget : ∀ (j : Nat) (th : Thread L S O C K), (c.threads ++ [⟨p, [], []⟩])[j]? = some th →
      c.threads[j]? = some th ∨ th = ⟨p, [], []⟩ := by
    intro j th hj
    rw [List.getElem?_append] at hj
    split at hj
    · exact Or.inl hj
    · exact Or.inr (List.mem_singleton.mp (List.mem_of_getElem? hj))
  refine ⟨fun i th hi => ?_, fun i j th th' hi hj hij l ex hl hl' => ?_⟩
  · rcases hget i th hi with hold | rfl
    · exact h.threads i th hold
    · exact hp _ _
  · rcases hget i th hi with hold | rfl
    · rcases hget j th' hj with hold' | rfl
      · exact h.exclusive i j th th' hold hold' hij l ex hl hl'
      · cases hl'
    · cases hl

/-- Task `i` becomes `th'`, and the state `s`, within what its guards allow. -/
theorem Guarded.update (h : c.Guarded D notes) {i : Nat} {th th' : Thread L S O C K} {s : S}
    {out : List O} {g : G} (hi : c.threads[i]? = some th) (hguar : D.Guar th.held c.state s)
    (hsafe : th'.prog.Guarded D (fun _ _ _ _ => True) g th'.held s)
    (hheld : ∀ l ex, (l, ex) ∈ th'.held → (l, ex) ∈ th.held ∨ c.Free l ex) :
    Guarded D ⟨s, out, c.threads.set i th'⟩ (Function.update notes i g) := by
  have hget : ∀ (j : Nat) (th₂ : Thread L S O C K), (c.threads.set i th')[j]? = some th₂ →
      j = i ∧ th₂ = th' ∨ j ≠ i ∧ c.threads[j]? = some th₂ := by
    intro j th₂ hj
    by_cases hij : j = i
    · subst hij
      rw [List.getElem?_set_self (List.getElem?_eq_some_iff.mp hi).1] at hj
      exact Or.inl ⟨rfl, (Option.some.inj hj).symm⟩
    · rw [List.getElem?_set_ne (Ne.symm hij)] at hj
      exact Or.inr ⟨hij, hj⟩
  -- A guard that the task has now conflicts with no guard of another task.
  have hapart : ∀ (j : Nat) (th₂ : Thread L S O C K), j ≠ i → c.threads[j]? = some th₂ →
      ∀ l ex ex', (ex = true ∨ ex' = true) → (l, ex) ∈ th'.held → (l, ex') ∉ th₂.held := by
    intro j th₂ hij hj l ex ex' hex hl hl'
    rcases hheld l ex hl with hold | hfree
    · rcases hex with rfl | rfl
      · exact h.exclusive i j th th₂ hi hj (Ne.symm hij) l ex' hold hl'
      · exact h.exclusive j i th₂ th hj hi hij l ex hl' hold
    · obtain ⟨rfl, hshared⟩ := hfree th₂ (List.mem_of_getElem? hj) _ hl' rfl
      rcases hex with hex | rfl
      · cases hex
      · cases hshared
  refine ⟨fun j th₂ hj => ?_, fun j k th₂ th₃ hj hk hjk l ex hl hl' => ?_⟩
  · rcases hget j th₂ hj with ⟨rfl, rfl⟩ | ⟨hij, hold⟩
    · rw [Function.update_self]
      exact hsafe
    · rw [Function.update_of_ne hij]
      refine (h.threads j th₂ hold).rely ⟨hguar.1, fun gd hgd => hguar.2 _ fun hl => ?_⟩
      exact h.exclusive i j th th₂ hi hold (Ne.symm hij) gd.1 gd.2 hl hgd
  · rcases hget j th₂ hj with ⟨rfl, rfl⟩ | ⟨hij, hold⟩
    · rcases hget k th₃ hk with ⟨rfl, rfl⟩ | ⟨hik, hold'⟩
      · exact hjk rfl
      · exact hapart k th₃ hik hold' l true ex (Or.inl rfl) hl hl'
    · rcases hget k th₃ hk with ⟨rfl, rfl⟩ | ⟨hik, hold'⟩
      · exact hapart j th₂ hij hold l ex true (Or.inr rfl) hl' hl
      · exact h.exclusive j k th₂ th₃ hold hold' hjk l ex hl hl'

/-- The case of an action that takes no lock: the note stays. -/
theorem Guarded.act (h : c.Guarded D notes) {i : Nat} {th th' : Thread L S O C K} {s : S}
    {out : List O} (hi : c.threads[i]? = some th) (hguar : D.Guar th.held c.state s)
    (hsafe : th'.prog.Guarded D (fun _ _ _ _ => True) (notes i) th'.held s)
    (hheld : ∀ gd ∈ th'.held, gd ∈ th.held) :
    Guarded D ⟨s, out, c.threads.set i th'⟩ notes := by
  have hupdate : Guarded D ⟨s, out, c.threads.set i th'⟩ (Function.update notes i (notes i)) :=
    h.update hi hguar hsafe fun l ex hl => Or.inl (hheld _ hl)
  rwa [Function.update_eq_self] at hupdate

/-- A step of tasks that keep to the custody, with an acquisition that finds what is assumed,
leaves such tasks, and the state grows. -/
theorem Guarded.step (h : c.Guarded D notes) {a : Sched L S O C K}
    (hok : c.Takes D.may a notes)
    (hnew : ∀ p, a = .spawn p → ∀ g s, p.Guarded D (fun _ _ _ _ => True) g [] s)
    (hstep : c.step a = some c') :
    c'.Guarded D (c.noted D.note a notes) ∧ D.grows c.state c'.state := by
  cases a with
  | spawn p =>
      obtain rfl := Option.some.inj hstep
      exact ⟨h.spawn (hnew p rfl), D.grows_refl _⟩
  | advance i answer =>
      simp only [Config.step, Config.advance] at hstep
      cases hi : c.threads[i]? with
      | none => simp [hi] at hstep
      | some th =>
          obtain ⟨prog, held, memo⟩ := th
          have hsafe := h.threads i _ hi
          have hrefl := Custody.Rely.refl D held c.state
          have hguar : D.Guar held c.state c.state := ⟨hrefl.1, fun l _ => D.same_refl l _⟩
          simp only [Config.Takes, Config.noted, hi] at hok hstep ⊢
          cases prog with
          | done a => cases hstep
          | fail =>
              obtain rfl := Option.some.inj hstep
              exact ⟨h.act hi hguar (fun _ _ => trivial) fun gd hgd => absurd hgd List.not_mem_nil,
                D.grows_refl _⟩
          | acquire l ex site next =>
              dsimp only at hstep
              split at hstep
              · rename_i hfree
                obtain rfl := Option.some.inj hstep
                refine ⟨h.update hi hguar (hsafe _ hrefl hok) fun l' ex' hl' => ?_,
                  D.grows_refl _⟩
                rcases List.mem_cons.mp hl' with heq | hold
                · cases heq
                  exact Or.inr hfree
                · exact Or.inl hold
              · cases hstep
          | release l next =>
              obtain rfl := Option.some.inj hstep
              exact ⟨h.act hi hguar (hsafe _ hrefl) fun gd => mem_of_mem_dropGuard,
                D.grows_refl _⟩
          | read next =>
              obtain rfl := Option.some.inj hstep
              exact ⟨h.act hi hguar (hsafe _ hrefl) fun _ => id, D.grows_refl _⟩
          | write site f next =>
              obtain rfl := Option.some.inj hstep
              obtain ⟨hwrite, hnext⟩ := hsafe _ hrefl
              exact ⟨h.act hi hwrite hnext fun _ => id, hwrite.1⟩
          | emit o next =>
              obtain rfl := Option.some.inj hstep
              exact ⟨h.act hi hguar (hsafe _ hrefl) fun _ => id, D.grows_refl _⟩
          | choose next =>
              obtain rfl := Option.some.inj hstep
              exact ⟨h.act hi hguar (hsafe answer _ hrefl) fun _ => id, D.grows_refl _⟩

end Config

end RaftEbpf.Lib
