import Mathlib.Data.Set.Basic

/-!
# `RaftEbpf.Lib.PrefixCode`: words that are read off one after another

A word of a code is *read off* where the text tells how far it goes. No other word of the code can
stand at its place, as long as what comes behind both of them begins as the code has it. Two
ways to build such words:

* `span_unique`: words over one alphabet, with a letter outside of it behind them.
* `sepBy_unique`: a list of words with separators between them and a letter that closes it.
-/

set_option autoImplicit false

namespace RaftEbpf.Lib.PrefixCode

variable {β : Type}

/-- The texts whose first letter is one of these. -/
def Begins (p : β → Prop) : Set (List β) := {t | ∃ b r, t = b :: r ∧ p b}

/-- `v` is read off among the words of `S`, with a text of `follow` behind it. -/
def ReadOff (S follow : Set (List β)) (v : List β) : Prop :=
  ∀ w ∈ S, ∀ t ∈ follow, ∀ u ∈ follow, v ++ t = w ++ u → v = w ∧ t = u

theorem begins_cons {p : β → Prop} {b : β} (hb : p b) (r : List β) : b :: r ∈ Begins p :=
  ⟨b, r, rfl, hb⟩

/-- The first letter of a word is the first one of a text that it begins. -/
theorem Begins.append {p : β → Prop} {v : List β} (h : v ∈ Begins p) (t : List β) :
    v ++ t ∈ Begins p := by
  obtain ⟨b, r, rfl, hb⟩ := h
  exact begins_cons hb (r ++ t)

theorem Begins.mono {p q : β → Prop} (hpq : ∀ b, p b → q b) : Begins p ⊆ Begins q := by
  rintro _ ⟨b, r, rfl, hb⟩
  exact begins_cons (hpq b hb) r

theorem ReadOff.mono {S S' follow follow' : Set (List β)} {v : List β}
    (h : ReadOff S follow v) (hS : S' ⊆ S) (hfollow : follow' ⊆ follow) :
    ReadOff S' follow' v :=
  fun w hw t ht u hu => h w (hS hw) t (hfollow ht) u (hfollow hu)

/-- A word goes as far as its alphabet does. -/
theorem span_unique {p : β → Prop} {v w t u : List β} (hv : ∀ b ∈ v, p b) (hw : ∀ b ∈ w, p b)
    (ht : t ∈ Begins (¬ p ·)) (hu : u ∈ Begins (¬ p ·)) (h : v ++ t = w ++ u) :
    v = w ∧ t = u := by
  obtain ⟨c, t, rfl, hc⟩ := ht
  obtain ⟨d, u, rfl, hd⟩ := hu
  induction v generalizing w with
  | nil =>
      cases w with
      | nil => exact ⟨rfl, h⟩
      | cons b w => exact absurd ((List.cons.inj h).1 ▸ hw b List.mem_cons_self) hc
  | cons a v ih =>
      cases w with
      | nil => exact absurd ((List.cons.inj h).1 ▸ hv a List.mem_cons_self) hd
      | cons b w =>
          obtain ⟨rfl, hrest⟩ := List.cons.inj h
          obtain ⟨rfl, ht⟩ := ih (fun b hb => hv b (List.mem_cons_of_mem _ hb))
            (fun b hb => hw b (List.mem_cons_of_mem _ hb)) hrest
          exact ⟨rfl, ht⟩

/-! ### Lists -/

/-- Words with a separator between them. -/
def sepBy (sep : β) : List (List β) → List β
  | [] => []
  | [v] => v
  | v :: vs => v ++ sep :: sepBy sep vs

/-- What stands behind the first word of a list. -/
def behind (sep close : β) (vs : List (List β)) (t : List β) : List β :=
  if vs = [] then close :: t else sep :: (sepBy sep vs ++ close :: t)

theorem sepBy_cons (sep close : β) (v : List β) (vs : List (List β)) (t : List β) :
    sepBy sep (v :: vs) ++ close :: t = v ++ behind sep close vs t := by
  cases vs with
  | nil => rfl
  | cons w vs =>
      show v ++ sep :: sepBy sep (w :: vs) ++ close :: t = _
      rw [List.append_assoc]
      rfl

theorem behind_begins (sep close : β) (vs : List (List β)) (t : List β) :
    behind sep close vs t ∈ Begins fun b => b = sep ∨ b = close := by
  unfold behind
  split
  · exact ⟨close, t, rfl, Or.inr rfl⟩
  · exact ⟨sep, _, rfl, Or.inl rfl⟩

/-- A list of words goes as far as the letter that closes it. No word begins with that letter, so
that a list without words is told from the others. -/
theorem sepBy_unique {S : Set (List β)} {sep close : β} (hne : sep ≠ close)
    (hfirst : ∀ w ∈ S, w ∈ Begins (· ≠ close)) {vs ws : List (List β)}
    (hvs : ∀ v ∈ vs, v ∈ S ∧ ReadOff S (Begins fun b => b = sep ∨ b = close) v)
    (hws : ∀ w ∈ ws, w ∈ S) {t u : List β}
    (h : sepBy sep vs ++ close :: t = sepBy sep ws ++ close :: u) : vs = ws ∧ t = u := by
  have hopen : ∀ {w r : List β}, w ∈ S → ∀ t, close :: t ≠ w ++ r := by
    intro w r hw t heq
    obtain ⟨b, s, rfl, hb⟩ := hfirst w hw
    exact hb (List.cons.inj heq).1.symm
  induction vs generalizing ws with
  | nil =>
      cases ws with
      | nil => exact ⟨rfl, (List.cons.inj h).2⟩
      | cons w ws =>
          rw [sepBy_cons] at h
          exact absurd h (hopen (hws w List.mem_cons_self) t)
  | cons v vs ih =>
      obtain ⟨hv, hread⟩ := hvs v List.mem_cons_self
      cases ws with
      | nil =>
          rw [sepBy_cons] at h
          exact absurd h.symm (hopen hv u)
      | cons w ws =>
          rw [sepBy_cons, sepBy_cons] at h
          obtain ⟨rfl, hrest⟩ := hread w (hws w List.mem_cons_self) _ (behind_begins _ _ _ _) _
            (behind_begins _ _ _ _) h
          -- Both lists end here, or both go on behind a separator.
          unfold behind at hrest
          split at hrest <;> split at hrest
          · next hnil hnil' =>
              subst hnil hnil'
              exact ⟨rfl, (List.cons.inj hrest).2⟩
          · exact absurd (List.cons.inj hrest).1.symm hne
          · exact absurd (List.cons.inj hrest).1 hne
          · obtain ⟨rfl, ht⟩ := ih (fun v hv => hvs v (List.mem_cons_of_mem _ hv))
              (fun w hw => hws w (List.mem_cons_of_mem _ hw)) (List.cons.inj hrest).2
            exact ⟨rfl, ht⟩

end RaftEbpf.Lib.PrefixCode
