import Mathlib.Data.List.Basic
import Mathlib.Data.Set.Basic
import Mathlib.Logic.Function.Basic
import Mathlib.Logic.Relation

/-!
# `RaftEbpf.Lib.Replication.State`: logs replicated by one leader per term

An abstract protocol over any type of nodes and any type of entries that carry a term.
Each node has a term and a log. A node stands for a term, others vote for it, it wins, and
from then on it appends entries of its term. Another node in the same term takes over a
prefix of the leader's log (`overwrite`), and may acknowledge what its log shares with it.

The state remembers the past: who stood and with which log, who voted and with which log,
who won with which votes (`voters`) and which log (`base`), what the leader's log has grown
to (`llog`), and what was acknowledged (`acked`).

`Step i` is a step of node `i`, and `Grows i` says what every other node and every past
fact can rely on across such a step (`Steps.grows`).
-/

set_option autoImplicit false

namespace RaftEbpf.Lib.Replication

/-- Entries that carry the term they were created in. -/
class Termed (ε : Type) where
  termOf : ε → Nat

export Termed (termOf)

section Lists
variable {ε : Type}

open Classical in
/-- The log after a node takes over the prefix `P`: what it already has stays. -/
noncomputable def overwrite (l P : List ε) : List ε := if P <+: l then l else P

/-- A prefix that the log shares with the source of `P` survives the overwriting. -/
theorem keep_overwrite {l P R M : List ε} (hl : R <+: l) (hM : R <+: M) (hP : P <+: M) :
    R <+: overwrite l P := by
  unfold overwrite
  split
  · exact hl
  · rename_i h
    rcases List.prefix_or_prefix_of_prefix hM hP with h' | h'
    · exact h'
    · exact absurd (h'.trans hl) h

/-- An overwritten log is the old log or the prefix taken over. -/
theorem overwrite_cases (l P : List ε) : overwrite l P = l ∨ overwrite l P = P := by
  unfold overwrite
  split
  · exact Or.inl rfl
  · exact Or.inr rfl

/-- What is taken over is there. -/
theorem prefix_overwrite (l P : List ε) : P <+: overwrite l P := by
  unfold overwrite
  split
  · rename_i h
    exact h
  · exact List.prefix_refl P

theorem overwrite_eq_left {l P : List ε} (h : P <+: l) : overwrite l P = l := if_pos h

theorem overwrite_eq_right {l P : List ε} (h : ¬ P <+: l) : overwrite l P = P := if_neg h

/-- Two prefixes of one list taken over, in any order, are the longer one taken over. -/
theorem overwrite_take_take (l M : List ε) (a b : Nat) :
    overwrite (overwrite l (M.take a)) (M.take b) = overwrite l (M.take (max a b)) := by
  have hmono : ∀ {i j}, i ≤ j → M.take i <+: M.take j := List.take_prefix_take_left
  rcases Nat.le_total b a with hle | hle
  · -- The second one is there already.
    rw [Nat.max_eq_left hle]
    exact overwrite_eq_left ((hmono hle).trans (prefix_overwrite _ _))
  · rw [Nat.max_eq_right hle]
    by_cases ha : M.take a <+: l
    · rw [overwrite_eq_left ha]
    · have hb : ¬ M.take b <+: l := fun hb => ha ((hmono hle).trans hb)
      rw [overwrite_eq_right ha, overwrite_eq_right hb]
      rcases overwrite_cases (M.take a) (M.take b) with h | h
      · -- The first one was as long as the list allows.
        have hback : M.take b <+: M.take a := h ▸ prefix_overwrite (M.take a) (M.take b)
        rw [h]
        exact (hmono hle).eq_of_length_le hback.length_le
      · exact h

/-- An element up to which the log is the same as the source of `P` stays. -/
theorem getElem?_overwrite {l P M : List ε} {k : Nat} {e : ε} (hk : l[k]? = some e)
    (hsame : l.take (k + 1) = M.take (k + 1)) (hP : P <+: M) : (overwrite l P)[k]? = some e := by
  have hM : l.take (k + 1) <+: M := by
    rw [hsame]
    exact List.take_prefix _ _
  have hkeep := keep_overwrite (List.take_prefix (k + 1) l) hM hP
  have htaken : (l.take (k + 1))[k]? = some e := by
    rw [List.getElem?_take_of_lt (Nat.lt_succ_self k), hk]
  obtain ⟨hlt, heq⟩ := List.getElem?_eq_some_iff.mp htaken
  rw [List.prefix_iff_getElem?.mp hkeep k hlt, heq]

/-- The term of the last entry, 0 for the empty log. -/
def lastTerm [Termed ε] (l : List ε) : Nat := (l.getLast?.map termOf).getD 0

/-- The voter's check: the candidate's log `lc` is at least as up to date as `lv`. -/
def UpToDate [Termed ε] (lc lv : List ε) : Prop :=
  lastTerm lv < lastTerm lc ∨ (lastTerm lc = lastTerm lv ∧ lv.length ≤ lc.length)

end Lists

/-- The state: the nodes' terms and logs, and the past. -/
structure State (ν ε : Type) where
  term : ν → Nat
  log : ν → List ε
  /-- The log a node had when it stood for a term. -/
  cand : ν → Nat → Option (List ε)
  /-- Whom a node voted for in a term. -/
  vote : ν → Nat → Option ν
  /-- The log a node had when it voted in a term. -/
  voteLog : ν → Nat → List ε
  /-- Who won a term. -/
  leader : Nat → Option ν
  /-- The nodes that had voted for the leader of a term when it won. -/
  voters : Nat → Set ν
  /-- The leader's log when it won. -/
  base : Nat → List ε
  /-- The leader's log, as far as it has grown in its term. -/
  llog : Nat → List ε
  /-- `acked t v k`: in term `t` node `v` held the first `k` entries of the leader's log. -/
  acked : Nat → ν → Nat → Prop

namespace State

variable {ν ε : Type}

/-- Every node in term 0 with an empty log. -/
def init : State ν ε where
  term _ := 0
  log _ := []
  cand _ _ := none
  vote _ _ := none
  voteLog _ _ := []
  leader _ := none
  voters _ := ∅
  base _ := []
  llog _ := []
  acked _ _ _ := False

variable [DecidableEq ν]

/-- Set the value at one node and one term. -/
def set₂ {β : Type} (f : ν → Nat → β) (v : ν) (t : Nat) (x : β) : ν → Nat → β :=
  fun v' t' => if v' = v ∧ t' = t then x else f v' t'

/-- A node moves to a newer term. -/
def advance (s : State ν ε) (v : ν) (t : Nat) : State ν ε :=
  { s with term := Function.update s.term v t }

/-- A node stands for a newer term and votes for itself. -/
def stand (s : State ν ε) (c : ν) (t : Nat) : State ν ε :=
  { s with
    term := Function.update s.term c t
    cand := set₂ s.cand c t (some (s.log c))
    vote := set₂ s.vote c t (some c)
    voteLog := set₂ s.voteLog c t (s.log c) }

/-- A node votes in its term. -/
def grant (s : State ν ε) (v c : ν) : State ν ε :=
  { s with
    vote := set₂ s.vote v (s.term v) (some c)
    voteLog := set₂ s.voteLog v (s.term v) (s.log v) }

/-- A node wins its term. -/
def win (s : State ν ε) (c : ν) : State ν ε :=
  { s with
    leader := Function.update s.leader (s.term c) (some c)
    voters := Function.update s.voters (s.term c) {v | s.vote v (s.term c) = some c}
    base := Function.update s.base (s.term c) (s.log c)
    llog := Function.update s.llog (s.term c) (s.log c) }

/-- The leader appends an entry. -/
def append (s : State ν ε) (c : ν) (e : ε) : State ν ε :=
  { s with
    log := Function.update s.log c (s.log c ++ [e])
    llog := Function.update s.llog (s.term c) (s.log c ++ [e]) }

/-- A node takes over the first `k` entries of the leader of its term. -/
noncomputable def accept (s : State ν ε) (v : ν) (k : Nat) : State ν ε :=
  { s with log := Function.update s.log v (overwrite (s.log v) ((s.llog (s.term v)).take k)) }

/-- A node acknowledges everything its log shares with the leader of its term. -/
def ack (s : State ν ε) (v : ν) : State ν ε :=
  { s with acked := fun t v' k => s.acked t v' k ∨
      (t = s.term v ∧ v' = v ∧ k ≤ (s.llog t).length ∧ (s.llog t).take k <+: s.log v) }

end State

variable {ν ε : Type} [Termed ε]

/-! ### What the past and the other nodes can rely on -/

/-- Across a step of node `i` the past stays, leaders' logs grow by entries of their own
term, a new leader can only be `i`, and the other nodes do not change. -/
structure Grows (i : ν) (s s' : State ν ε) : Prop where
  leader : ∀ t w, s.leader t = some w → s'.leader t = some w
  fresh : ∀ t w, s'.leader t = some w → s.leader t = some w ∨ w = i
  past : ∀ t, s.leader t ≠ none → s'.base t = s.base t ∧ s'.voters t = s.voters t
  llog : ∀ t, s.leader t ≠ none →
    ∃ es, s'.llog t = s.llog t ++ es ∧ ∀ e ∈ es, termOf e = t
  cand : ∀ c t lc, s.cand c t = some lc → s'.cand c t = some lc
  vote : ∀ v t c, s.vote v t = some c → s'.vote v t = some c
  acked : ∀ t v k, s.acked t v k → s'.acked t v k
  others : ∀ v, v ≠ i → s'.term v = s.term v ∧ s'.log v = s.log v ∧
    ∀ t, s'.vote v t = s.vote v t ∧ s'.voteLog v t = s.voteLog v t ∧ s'.cand v t = s.cand v t

theorem Grows.refl (i : ν) (s : State ν ε) : Grows i s s where
  leader _ _ h := h
  fresh _ _ h := Or.inl h
  past _ _ := ⟨rfl, rfl⟩
  llog _ _ := ⟨[], (List.append_nil _).symm, by simp⟩
  cand _ _ _ h := h
  vote _ _ _ h := h
  acked _ _ _ h := h
  others _ _ := ⟨rfl, rfl, fun _ => ⟨rfl, rfl, rfl⟩⟩

/-- Led terms stay led. -/
theorem Grows.led {i : ν} {s s' : State ν ε} (h : Grows i s s') {t : Nat}
    (ht : s.leader t ≠ none) : s'.leader t ≠ none := by
  obtain ⟨w, hw⟩ := Option.ne_none_iff_exists'.mp ht
  rw [h.leader t w hw]
  exact Option.some_ne_none w

theorem Grows.trans {i : ν} {s s' s'' : State ν ε} (h : Grows i s s') (h' : Grows i s' s'') :
    Grows i s s'' where
  leader t w hw := h'.leader t w (h.leader t w hw)
  fresh t w hw := by
    rcases h'.fresh t w hw with hw' | hi
    · exact h.fresh t w hw'
    · exact Or.inr hi
  past t ht := by
    rw [(h'.past t (h.led ht)).1, (h'.past t (h.led ht)).2]
    exact h.past t ht
  llog t ht := by
    obtain ⟨es, he, het⟩ := h.llog t ht
    obtain ⟨es', he', het'⟩ := h'.llog t (h.led ht)
    refine ⟨es ++ es', by rw [he', he, List.append_assoc], fun e hmem => ?_⟩
    rcases List.mem_append.mp hmem with hmem | hmem
    · exact het e hmem
    · exact het' e hmem
  cand c t lc hc := h'.cand c t lc (h.cand c t lc hc)
  vote v t c hv := h'.vote v t c (h.vote v t c hv)
  acked t v k hk := h'.acked t v k (h.acked t v k hk)
  others v hv := by
    obtain ⟨h1, h2, h3⟩ := h.others v hv
    obtain ⟨h1', h2', h3'⟩ := h'.others v hv
    exact ⟨h1'.trans h1, h2'.trans h2, fun t => ⟨(h3' t).1.trans (h3 t).1,
      (h3' t).2.1.trans (h3 t).2.1, (h3' t).2.2.trans (h3 t).2.2⟩⟩

/-! ### The steps of a node -/

variable [DecidableEq ν]

/-- One step of node `i`. -/
inductive Step (i : ν) (s : State ν ε) : State ν ε → Prop where
  | advance (t : Nat) : s.term i < t → Step i s (s.advance i t)
  | stand (t : Nat) : s.term i < t → Step i s (s.stand i t)
  | grant (c : ν) (lc : List ε) : s.cand c (s.term i) = some lc → UpToDate lc (s.log i) →
      s.vote i (s.term i) = none → Step i s (s.grant i c)
  | win : s.cand i (s.term i) ≠ none → s.leader (s.term i) = none → Step i s (s.win i)
  | append (e : ε) : s.leader (s.term i) = some i → termOf e = s.term i →
      Step i s (s.append i e)
  | accept (k : Nat) : s.leader (s.term i) ≠ none → s.leader (s.term i) ≠ some i →
      Step i s (s.accept i k)
  | ack : s.leader (s.term i) ≠ none → Step i s (s.ack i)

/-- Any number of steps of node `i`. -/
abbrev Steps (i : ν) : State ν ε → State ν ε → Prop := Relation.ReflTransGen (Step i)

/-! ### What a node does at once -/

/-- Node `i` is in term `t`, where it was or to which it moved. Nothing else changed. -/
structure Reached (i : ν) (t : Nat) (s s' : State ν ε) : Prop where
  steps : Steps i s s'
  term : s'.term i = t
  log : s'.log = s.log
  cand : s'.cand = s.cand
  vote : s'.vote = s.vote
  leader : s'.leader = s.leader
  voters : s'.voters = s.voters
  llog : s'.llog = s.llog

theorem Reached.refl (i : ν) (s : State ν ε) : Reached i (s.term i) s s :=
  ⟨.refl, rfl, rfl, rfl, rfl, rfl, rfl, rfl⟩

theorem Reached.advance {i : ν} {t : Nat} {s : State ν ε} (h : s.term i < t) :
    Reached i t s (s.advance i t) :=
  ⟨.single (.advance t h), by simp [State.advance], rfl, rfl, rfl, rfl, rfl, rfl⟩

/-- Node `i` took over the prefix `P` of the leader's log and acknowledged what its log now
shares with it. -/
structure Adopted (i : ν) (P : List ε) (s s' : State ν ε) : Prop where
  steps : Steps i s s'
  term : s'.term i = s.term i
  log : s'.log i = overwrite (s.log i) P
  cand : s'.cand = s.cand
  vote : s'.vote = s.vote
  leader : s'.leader = s.leader
  voters : s'.voters = s.voters
  llog : s'.llog = s.llog
  acked : ∀ k ≤ (s.llog (s.term i)).length, (s.llog (s.term i)).take k <+: s'.log i →
    s'.acked (s.term i) i k

/-- A node adopts any prefix of the log of a leader other than itself. -/
theorem Adopted.of_led {i w : ν} {s : State ν ε} (hled : s.leader (s.term i) = some w)
    (hw : w ≠ i) {P : List ε} (hP : P <+: s.llog (s.term i)) :
    Adopted i P s ((s.accept i P.length).ack i) := by
  have hsome : s.leader (s.term i) ≠ none := by
    rw [hled]
    exact Option.some_ne_none w
  have hother : s.leader (s.term i) ≠ some i := by
    rw [hled]
    intro h
    exact hw (Option.some.inj h)
  have haccept : Step i s (s.accept i P.length) := .accept P.length hsome hother
  have hack : Step i (s.accept i P.length) ((s.accept i P.length).ack i) := .ack hsome
  exact {
    steps := (Relation.ReflTransGen.single haccept).tail hack
    term := rfl
    log := by
      simp only [State.ack, State.accept, Function.update_self]
      rw [← List.prefix_iff_eq_take.mp hP]
    cand := rfl
    vote := rfl
    leader := rfl
    voters := rfl
    llog := rfl
    acked := fun k hk hpre => Or.inr ⟨rfl, rfl, hk, hpre⟩ }

end RaftEbpf.Lib.Replication
