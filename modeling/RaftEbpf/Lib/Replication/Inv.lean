import RaftEbpf.Lib.Replication.State

/-!
# `RaftEbpf.Lib.Replication.Inv`: the invariant of replicated logs

A list of entries is `Anchored` when each of its prefixes that ends in an entry of term `t`
is a prefix of what the leader of `t` has in its log. `Inv` says that every log is anchored
and how terms, candidacies, votes and wins relate. `Step.inv` has one case for each step,
and `Steps.inv` is the induction over a run.

* `Anchored.matching`: two anchored logs with entries of one index and one term agree up to
  that index.
* `Anchored.grows`: a log stays anchored while the leaders' logs grow.
-/

set_option autoImplicit false

namespace RaftEbpf.Lib.Replication

variable {ν ε : Type} [Termed ε]

/-- Each prefix that ends in an entry of term `t` is a prefix of the leader's log of `t`. -/
def Anchored (s : State ν ε) (l : List ε) : Prop :=
  ∀ p e, p ++ [e] <+: l → s.leader (termOf e) ≠ none ∧ p ++ [e] <+: s.llog (termOf e)

theorem anchored_nil (s : State ν ε) : Anchored s [] := by
  intro p e h
  simp at h

/-- A prefix of an anchored log is anchored. -/
theorem Anchored.shorten {s : State ν ε} {l l' : List ε} (h : Anchored s l) (hl : l' <+: l) :
    Anchored s l' :=
  fun p e hp => h p e (hp.trans hl)

/-- A log stays anchored while led terms stay led and their logs grow. -/
theorem Anchored.mono {s s' : State ν ε} {l : List ε} (h : Anchored s l)
    (hs : ∀ t, s.leader t ≠ none → s'.leader t ≠ none ∧ s.llog t <+: s'.llog t) :
    Anchored s' l := by
  intro p e hp
  obtain ⟨hlead, hpre⟩ := h p e hp
  exact ⟨(hs _ hlead).1, hpre.trans (hs _ hlead).2⟩

/-- A log stays anchored across the steps of any node. -/
theorem Anchored.grows {s s' : State ν ε} {i : ν} {l : List ε} (h : Anchored s l)
    (hg : Grows i s s') : Anchored s' l := by
  refine h.mono fun t ht => ⟨hg.led ht, ?_⟩
  obtain ⟨es, hes, -⟩ := hg.llog t ht
  exact ⟨es, hes.symm⟩

/-- An anchored log goes on being anchored when it takes over a prefix of another one. -/
theorem Anchored.overwrite {s : State ν ε} {l P : List ε} (h : Anchored s l)
    (hP : Anchored s P) : Anchored s (overwrite l P) := by
  rcases overwrite_cases l P with h' | h'
  · rw [h']; exact h
  · rw [h']; exact hP

/-- Log matching: entries of one index and one term have the same logs up to them. -/
theorem Anchored.matching {s : State ν ε} {l l' p p' : List ε} {e e' : ε}
    (h : Anchored s l) (h' : Anchored s l') (hp : p ++ [e] <+: l) (hp' : p' ++ [e'] <+: l')
    (hlen : p.length = p'.length) (hterm : termOf e = termOf e') : p = p' ∧ e = e' := by
  have h1 := (h p e hp).2
  have h2 := (h' p' e' hp').2
  rw [← hterm] at h2
  have heq : p ++ [e] = p' ++ [e'] := by
    have hle : (p ++ [e]).length = (p' ++ [e']).length := by simp [hlen]
    exact (List.prefix_of_prefix_length_le h1 h2 hle.le).eq_of_length hle
  obtain ⟨hpp, hee⟩ := List.append_inj heq hlen
  exact ⟨hpp, List.singleton_inj.mp hee⟩

/-- How terms, logs, candidacies, votes and wins relate in every reachable state. -/
structure Inv (s : State ν ε) : Prop where
  anchored : ∀ v, Anchored s (s.log v)
  llogAnchored : ∀ t, Anchored s (s.llog t)
  logTerm : ∀ v, ∀ e ∈ s.log v, termOf e ≤ s.term v
  llogTerm : ∀ t, ∀ e ∈ s.llog t, termOf e ≤ t
  unled : ∀ t, s.leader t = none → s.llog t = []
  basePrefix : ∀ t, s.leader t ≠ none → s.base t <+: s.llog t
  /-- Within its term the leader's log is what it has grown to. -/
  leads : ∀ t w, s.leader t = some w → s.term w = t → s.log w = s.llog t
  won : ∀ t w, s.leader t = some w → s.cand w t = some (s.base t) ∧
    ∀ v ∈ s.voters t, s.vote v t = some w
  stood : ∀ c t lc, s.cand c t = some lc → 0 < t ∧ t ≤ s.term c ∧ s.vote c t = some c ∧
    ∀ e ∈ lc, termOf e < t
  /-- A candidate's log does not change while its term has no leader. -/
  waits : ∀ c t lc, s.cand c t = some lc → s.term c = t → s.leader t = none → s.log c = lc
  voted : ∀ v t c, s.vote v t = some c → t ≤ s.term v ∧ Anchored s (s.voteLog v t) ∧
    ∃ lc, s.cand c t = some lc ∧ UpToDate lc (s.voteLog v t)

namespace Inv

/-- A leader has reached its term. -/
theorem reached {s : State ν ε} (h : Inv s) {t : Nat} {w : ν} (hw : s.leader t = some w) :
    0 < t ∧ t ≤ s.term w := by
  obtain ⟨h0, h1, -⟩ := h.stood w t _ (h.won t w hw).1
  exact ⟨h0, h1⟩

/-- The entries a leader starts from are of older terms. -/
theorem baseTerm {s : State ν ε} (h : Inv s) {t : Nat} (ht : s.leader t ≠ none) :
    ∀ e ∈ s.base t, termOf e < t := by
  obtain ⟨w, hw⟩ := Option.ne_none_iff_exists'.mp ht
  exact (h.stood w t _ (h.won t w hw).1).2.2.2

theorem init : Inv (State.init : State ν ε) where
  anchored _ := anchored_nil _
  llogAnchored _ := anchored_nil _
  logTerm _ e he := by simp [State.init] at he
  llogTerm _ e he := by simp [State.init] at he
  unled _ _ := rfl
  basePrefix _ _ := List.prefix_refl _
  leads _ _ h := by simp [State.init] at h
  won _ _ h := by simp [State.init] at h
  stood _ _ _ h := by simp [State.init] at h
  waits _ _ _ h := by simp [State.init] at h
  voted _ _ _ h := by simp [State.init] at h

variable [DecidableEq ν]

theorem advance {s : State ν ε} (h : Inv s) {i : ν} {t : Nat} (ht : s.term i < t) :
    Inv (s.advance i t) := by
  have hle : ∀ v, s.term v ≤ (s.advance i t).term v := by
    intro v
    by_cases hv : v = i
    · subst hv; simp [State.advance]; omega
    · simp [State.advance, hv]
  -- A term that the node had reached is not the one it moves to.
  have hback : ∀ v u, u ≤ s.term v → (s.advance i t).term v = u → s.term v = u := by
    intro v u hu
    by_cases hv : v = i
    · subst hv; simp [State.advance]; omega
    · simp [State.advance, hv]
  exact {
    anchored := h.anchored
    llogAnchored := h.llogAnchored
    logTerm := fun v e he => (h.logTerm v e he).trans (hle v)
    llogTerm := h.llogTerm
    unled := h.unled
    basePrefix := h.basePrefix
    leads := fun u w hw hterm => h.leads u w hw (hback w u (h.reached hw).2 hterm)
    won := h.won
    stood := fun c u lc hc => by
      obtain ⟨h0, h1, h2, h3⟩ := h.stood c u lc hc
      exact ⟨h0, h1.trans (hle c), h2, h3⟩
    waits := fun c u lc hc hterm => h.waits c u lc hc (hback c u (h.stood c u lc hc).2.1 hterm)
    voted := fun v u c hv => by
      obtain ⟨h1, h2, h3⟩ := h.voted v u c hv
      exact ⟨h1.trans (hle v), h2, h3⟩ }

theorem stand {s : State ν ε} (h : Inv s) {i : ν} {t : Nat} (ht : s.term i < t) :
    Inv (s.stand i t) := by
  -- All but the new candidacy and the vote for itself is as after `advance`.
  have ha := h.advance ht
  have hvote : ∀ v u c, s.vote v u = some c → (s.stand i t).vote v u = some c := by
    intro v u c hv
    simp only [State.stand, State.set₂]
    split_ifs with hvu
    · obtain ⟨rfl, rfl⟩ := hvu
      have := (h.voted v u c hv).1
      omega
    · exact hv
  have hcand : ∀ c u lc, s.cand c u = some lc → (s.stand i t).cand c u = some lc := by
    intro c u lc hc
    simp only [State.stand, State.set₂]
    split_ifs with hcu
    · obtain ⟨rfl, rfl⟩ := hcu
      have := (h.stood c u lc hc).2.1
      omega
    · exact hc
  exact {
    anchored := ha.anchored
    llogAnchored := ha.llogAnchored
    logTerm := ha.logTerm
    llogTerm := ha.llogTerm
    unled := ha.unled
    basePrefix := ha.basePrefix
    leads := ha.leads
    won := fun u w hw =>
      ⟨hcand w u _ (h.won u w hw).1, fun v hv => hvote v u w ((h.won u w hw).2 v hv)⟩
    stood := fun c u lc hc => by
      simp only [State.stand, State.set₂] at hc
      split_ifs at hc with hcu
      · obtain ⟨rfl, rfl⟩ := hcu
        obtain rfl := Option.some.inj hc
        refine ⟨by omega, by simp [State.stand], by simp [State.stand, State.set₂], ?_⟩
        intro e he
        exact (h.logTerm c e he).trans_lt ht
      · obtain ⟨h0, h1, h2, h3⟩ := ha.stood c u lc hc
        exact ⟨h0, h1, hvote c u c h2, h3⟩
    waits := fun c u lc hc hterm hnone => by
      simp only [State.stand, State.set₂] at hc
      split_ifs at hc with hcu
      · obtain ⟨rfl, rfl⟩ := hcu
        exact Option.some.inj hc
      · exact ha.waits c u lc hc hterm hnone
    voted := fun v u c hv => by
      by_cases hvu : v = i ∧ u = t
      · obtain ⟨rfl, rfl⟩ := hvu
        simp only [State.stand, State.set₂, and_self, if_true] at hv
        obtain rfl := Option.some.inj hv
        refine ⟨by simp [State.stand], ?_, s.log v, by simp [State.stand, State.set₂], ?_⟩
        · simp only [State.stand, State.set₂, and_self, if_true]
          exact h.anchored v
        · simp only [State.stand, State.set₂, and_self, if_true]
          exact Or.inr ⟨rfl, le_rfl⟩
      · simp only [State.stand, State.set₂, if_neg hvu] at hv ⊢
        obtain ⟨h1, h2, lc, h3, h4⟩ := ha.voted v u c hv
        exact ⟨h1, h2, lc, hcand c u lc h3, h4⟩ }

theorem grant {s : State ν ε} (h : Inv s) {i c : ν} {lc : List ε}
    (hc : s.cand c (s.term i) = some lc) (hup : UpToDate lc (s.log i))
    (hnone : s.vote i (s.term i) = none) : Inv (s.grant i c) := by
  have hvote : ∀ v u w, s.vote v u = some w → (s.grant i c).vote v u = some w := by
    intro v u w hv
    simp only [State.grant, State.set₂]
    split_ifs with hvu
    · obtain ⟨rfl, rfl⟩ := hvu
      rw [hnone] at hv
      cases hv
    · exact hv
  exact {
    anchored := h.anchored
    llogAnchored := h.llogAnchored
    logTerm := h.logTerm
    llogTerm := h.llogTerm
    unled := h.unled
    basePrefix := h.basePrefix
    leads := h.leads
    won := fun u w hw =>
      ⟨(h.won u w hw).1, fun v hv => hvote v u w ((h.won u w hw).2 v hv)⟩
    stood := fun d u ld hd => by
      obtain ⟨h0, h1, h2, h3⟩ := h.stood d u ld hd
      exact ⟨h0, h1, hvote d u d h2, h3⟩
    waits := h.waits
    voted := fun v u w hv => by
      by_cases hvu : v = i ∧ u = s.term i
      · obtain ⟨rfl, rfl⟩ := hvu
        simp only [State.grant, State.set₂, and_self, if_true] at hv ⊢
        obtain rfl := Option.some.inj hv
        exact ⟨le_rfl, h.anchored v, lc, hc, hup⟩
      · simp only [State.grant, State.set₂, if_neg hvu] at hv ⊢
        exact h.voted v u w hv }

omit [DecidableEq ν] in
theorem win {s : State ν ε} (h : Inv s) {i : ν} (hc : s.cand i (s.term i) ≠ none)
    (hnone : s.leader (s.term i) = none) : Inv (s.win i) := by
  obtain ⟨lc, hlc⟩ := Option.ne_none_iff_exists'.mp hc
  have hlog : s.log i = lc := h.waits i _ lc hlc rfl hnone
  have hmono : ∀ u, s.leader u ≠ none →
      (s.win i).leader u ≠ none ∧ s.llog u <+: (s.win i).llog u := by
    intro u hu
    have hne : u ≠ s.term i := fun he => hu (he ▸ hnone)
    simp [State.win, hne, hu]
  exact {
    anchored := fun v => (h.anchored v).mono hmono
    llogAnchored := fun u => by
      by_cases hu : u = s.term i
      · subst hu
        simp only [State.win, Function.update_self]
        exact (h.anchored i).mono hmono
      · simp only [State.win, Function.update_of_ne hu]
        exact (h.llogAnchored u).mono hmono
    logTerm := h.logTerm
    llogTerm := fun u => by
      by_cases hu : u = s.term i
      · subst hu
        simp only [State.win, Function.update_self]
        exact h.logTerm i
      · simp only [State.win, Function.update_of_ne hu]
        exact h.llogTerm u
    unled := fun u hu => by
      by_cases hu' : u = s.term i
      · simp [State.win, hu'] at hu
      · simp only [State.win, Function.update_of_ne hu'] at hu ⊢
        exact h.unled u hu
    basePrefix := fun u hu => by
      by_cases hu' : u = s.term i
      · simp [State.win, hu']
      · simp only [State.win, Function.update_of_ne hu'] at hu ⊢
        exact h.basePrefix u hu
    leads := fun u w hw hterm => by
      by_cases hu : u = s.term i
      · simp only [State.win, hu, Function.update_self, Option.some.injEq] at hw ⊢
        rw [hw]
      · simp only [State.win, Function.update_of_ne hu] at hw ⊢
        exact h.leads u w hw hterm
    won := fun u w hw => by
      by_cases hu : u = s.term i
      · simp only [State.win, hu, Function.update_self, Option.some.injEq] at hw ⊢
        subst hw
        exact ⟨hlog ▸ hlc, fun v hv => hv⟩
      · simp only [State.win, Function.update_of_ne hu] at hw ⊢
        exact h.won u w hw
    stood := h.stood
    waits := fun d u ld hd hterm hu => by
      by_cases hu' : u = s.term i
      · simp [State.win, hu'] at hu
      · simp only [State.win, Function.update_of_ne hu'] at hu
        exact h.waits d u ld hd hterm hu
    voted := fun v u c hv => by
      obtain ⟨h1, h2, h3⟩ := h.voted v u c hv
      exact ⟨h1, h2.mono hmono, h3⟩ }

theorem append {s : State ν ε} (h : Inv s) {i : ν} {e : ε}
    (hl : s.leader (s.term i) = some i) (he : termOf e = s.term i) :
    Inv (s.append i e) := by
  have hlog : s.log i = s.llog (s.term i) := h.leads _ i hl rfl
  have hmono : ∀ u, s.leader u ≠ none →
      (s.append i e).leader u ≠ none ∧ s.llog u <+: (s.append i e).llog u := by
    intro u hu
    refine ⟨hu, ?_⟩
    by_cases hu' : u = s.term i
    · subst hu'
      simp [State.append, hlog]
    · simp [State.append, hu']
  -- The new log: its last prefix is the leader's own new log.
  have hnew : Anchored (s.append i e) (s.log i ++ [e]) := by
    intro p e' hp
    rcases List.prefix_concat_iff.mp hp with hp | hp
    · obtain rfl : e' = e := List.singleton_inj.mp (List.append_inj' hp rfl).2
      rw [hp, he]
      simp [State.append, hl]
    · exact ((h.anchored i).mono hmono) p e' hp
  exact {
    anchored := fun v => by
      by_cases hv : v = i
      · subst hv
        simp only [State.append, Function.update_self]
        exact hnew
      · simp only [State.append, Function.update_of_ne hv]
        exact (h.anchored v).mono hmono
    llogAnchored := fun u => by
      by_cases hu : u = s.term i
      · subst hu
        simp only [State.append, Function.update_self]
        exact hnew
      · simp only [State.append, Function.update_of_ne hu]
        exact (h.llogAnchored u).mono hmono
    logTerm := fun v d hd => by
      by_cases hv : v = i
      · subst hv
        simp only [State.append, Function.update_self, List.mem_append, List.mem_singleton] at hd
        rcases hd with hd | rfl
        · exact h.logTerm v d hd
        · exact he.le
      · simp only [State.append, Function.update_of_ne hv] at hd
        exact h.logTerm v d hd
    llogTerm := fun u d hd => by
      by_cases hu : u = s.term i
      · subst hu
        simp only [State.append, Function.update_self, List.mem_append, List.mem_singleton] at hd
        rcases hd with hd | rfl
        · exact h.logTerm i d hd
        · exact he.le
      · simp only [State.append, Function.update_of_ne hu] at hd
        exact h.llogTerm u d hd
    unled := fun u hu => by
      have hne : u ≠ s.term i := by
        rintro rfl
        simp [State.append, hl] at hu
      simp only [State.append, Function.update_of_ne hne]
      exact h.unled u hu
    basePrefix := fun u hu => (h.basePrefix u hu).trans (hmono u hu).2
    leads := fun u w hw hterm => by
      by_cases hu : u = s.term i
      · subst hu
        obtain rfl : i = w := Option.some.inj (hl.symm.trans hw)
        simp [State.append]
      · have hne : w ≠ i := fun hwi => hu (by rw [← hterm, hwi]; rfl)
        simp only [State.append, Function.update_of_ne hu, Function.update_of_ne hne]
        exact h.leads u w hw hterm
    won := h.won
    stood := h.stood
    waits := fun c u lc hc hterm hu => by
      have hne : c ≠ i := by
        rintro rfl
        have hterm' : s.term c = u := hterm
        rw [← hterm'] at hu
        simp [State.append, hl] at hu
      simp only [State.append, Function.update_of_ne hne]
      exact h.waits c u lc hc hterm hu
    voted := fun v u c hv => by
      obtain ⟨h1, h2, h3⟩ := h.voted v u c hv
      exact ⟨h1, h2.mono hmono, h3⟩ }

theorem accept {s : State ν ε} (h : Inv s) {i : ν} (k : Nat)
    (hled : s.leader (s.term i) ≠ none) (hi : s.leader (s.term i) ≠ some i) :
    Inv (s.accept i k) where
  anchored v := by
    by_cases hv : v = i
    · subst hv
      simp only [State.accept, Function.update_self]
      exact (h.anchored v).overwrite ((h.llogAnchored _).shorten (List.take_prefix k _))
    · simp only [State.accept, Function.update_of_ne hv]
      exact h.anchored v
  llogAnchored := h.llogAnchored
  logTerm v e he := by
    by_cases hv : v = i
    · subst hv
      simp only [State.accept, Function.update_self] at he
      rcases overwrite_cases (s.log v) ((s.llog (s.term v)).take k) with h' | h'
      · exact h.logTerm v e (h' ▸ he)
      · exact h.llogTerm _ e (List.mem_of_mem_take (h' ▸ he))
    · simp only [State.accept, Function.update_of_ne hv] at he
      exact h.logTerm v e he
  llogTerm := h.llogTerm
  unled := h.unled
  basePrefix := h.basePrefix
  leads u w hw hterm := by
    have hne : w ≠ i := by
      rintro rfl
      have hterm' : s.term w = u := hterm
      rw [← hterm'] at hw
      exact hi hw
    simp only [State.accept, Function.update_of_ne hne]
    exact h.leads u w hw hterm
  won := h.won
  stood := h.stood
  waits c u lc hc hterm hu := by
    have hne : c ≠ i := by
      rintro rfl
      have hterm' : s.term c = u := hterm
      rw [← hterm'] at hu
      exact hled hu
    simp only [State.accept, Function.update_of_ne hne]
    exact h.waits c u lc hc hterm hu
  voted := h.voted

omit [DecidableEq ν] in
theorem ack {s : State ν ε} (h : Inv s) (i : ν) : Inv (s.ack i) :=
  ⟨h.anchored, h.llogAnchored, h.logTerm, h.llogTerm, h.unled, h.basePrefix, h.leads, h.won,
    h.stood, h.waits, h.voted⟩

end Inv

/-- Every step keeps the invariant. -/
theorem Step.inv [DecidableEq ν] {i : ν} {s s' : State ν ε} (hstep : Step i s s')
    (h : Inv s) : Inv s' := by
  cases hstep with
  | advance t ht => exact h.advance ht
  | stand t ht => exact h.stand ht
  | grant c lc hc hup hnone => exact h.grant hc hup hnone
  | win hc hnone => exact h.win hc hnone
  | append e hl he => exact h.append hl he
  | accept k hled hi => exact h.accept k hled hi
  | ack _ => exact h.ack i

/-- Every run of a node keeps the invariant. -/
theorem Steps.inv [DecidableEq ν] {i : ν} {s s' : State ν ε} (hsteps : Steps i s s')
    (h : Inv s) : Inv s' := by
  induction hsteps with
  | refl => exact h
  | tail _ hstep ih => exact hstep.inv ih

/-! ### Growth -/

/-- Across a step of node `i` the past stays and the other nodes do not change. -/
theorem Step.grows [DecidableEq ν] {i : ν} {s s' : State ν ε} (hstep : Step i s s')
    (h : Inv s) : Grows i s s' := by
  cases hstep with
  | advance t ht =>
      exact { Grows.refl i s with
        others := fun v hv => ⟨by simp [State.advance, hv], rfl, fun _ => ⟨rfl, rfl, rfl⟩⟩ }
  | stand t ht =>
      have hvote : s.vote i t = none := by
        by_contra hne
        obtain ⟨c, hc⟩ := Option.ne_none_iff_exists'.mp hne
        have := (h.voted i t c hc).1
        omega
      have hcand : s.cand i t = none := by
        by_contra hne
        obtain ⟨lc, hlc⟩ := Option.ne_none_iff_exists'.mp hne
        have := (h.stood i t lc hlc).2.1
        omega
      exact { Grows.refl i s with
        cand := fun c u lc hc => by
          have hne : ¬ (c = i ∧ u = t) := by
            rintro ⟨rfl, rfl⟩
            rw [hcand] at hc
            cases hc
          simp only [State.stand, State.set₂, if_neg hne]
          exact hc
        vote := fun v u c hv => by
          have hne : ¬ (v = i ∧ u = t) := by
            rintro ⟨rfl, rfl⟩
            rw [hvote] at hv
            cases hv
          simp only [State.stand, State.set₂, if_neg hne]
          exact hv
        others := fun v hv => by simp [State.stand, State.set₂, hv] }
  | grant c lc hc hup hnone =>
      exact { Grows.refl i s with
        vote := fun v u w hv => by
          have hne : ¬ (v = i ∧ u = s.term i) := by
            rintro ⟨rfl, rfl⟩
            rw [hnone] at hv
            cases hv
          simp only [State.grant, State.set₂, if_neg hne]
          exact hv
        others := fun v hv => by simp [State.grant, State.set₂, hv] }
  | win hc hnone =>
      have hne : ∀ u, s.leader u ≠ none → u ≠ s.term i := fun u hu he => hu (he ▸ hnone)
      exact { Grows.refl i s with
        leader := fun u w hw => by
          have hu := hne u (hw ▸ Option.some_ne_none w)
          simp only [State.win, Function.update_of_ne hu]
          exact hw
        fresh := fun u w hw => by
          by_cases hu : u = s.term i
          · right
            simpa [State.win, hu] using hw.symm
          · left
            simpa [State.win, hu] using hw
        past := fun u hu => by simp [State.win, hne u hu]
        llog := fun u hu => ⟨[], by simp [State.win, hne u hu], by simp⟩ }
  | append e hl he =>
      have hlog : s.log i = s.llog (s.term i) := h.leads _ i hl rfl
      exact { Grows.refl i s with
        llog := fun u _ => by
          by_cases hu : u = s.term i
          · subst hu
            exact ⟨[e], by simp [State.append, hlog], by simpa using he⟩
          · exact ⟨[], by simp [State.append, hu], by simp⟩
        others := fun v hv => by simp [State.append, hv] }
  | accept k hled hi =>
      exact { Grows.refl i s with others := fun v hv => by simp [State.accept, hv] }
  | ack _ => exact { Grows.refl i s with acked := fun _ _ _ hk => Or.inl hk }

/-- Across a run of node `i` the past stays and the other nodes do not change. -/
theorem Steps.grows [DecidableEq ν] {i : ν} {s s' : State ν ε} (hsteps : Steps i s s')
    (h : Inv s) : Grows i s s' := by
  induction hsteps with
  | refl => exact Grows.refl i s
  | tail hsteps hstep ih => exact ih.trans (hstep.grows (Steps.inv hsteps h))

end RaftEbpf.Lib.Replication
