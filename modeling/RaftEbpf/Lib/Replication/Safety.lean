import RaftEbpf.Lib.Quorum
import RaftEbpf.Lib.Replication.Inv

/-!
# `RaftEbpf.Lib.Replication.Safety`: what a majority acknowledged is never lost

A prefix `P` of the leader's log of term `t` is `Committed` when it ends in an entry of
term `t` and a majority acknowledged at least that much in term `t`.

* `leader_complete`: where every leader was elected by a majority, each later leader
  starts from a log with the prefix `P`.
* `Committed.agree`: of two committed prefixes one is a prefix of the other.
* `Steps.committedAt`: what a node knows to be committed stays in its log.

`AckInv` carries the argument. It says of every acknowledged prefix: if all leaders
elected since then started with it, it is still in the node's log, and it was in the log
the node voted with.
-/

set_option autoImplicit false

namespace RaftEbpf.Lib.Replication

variable {ν ε : Type} [Termed ε]

/-- Each leader of a term after `t` and up to `u` started with the prefix `P`. -/
def Carried (s : State ν ε) (t u : Nat) (P : List ε) : Prop :=
  ∀ t', t < t' → t' ≤ u → s.leader t' ≠ none → P <+: s.base t'

/-- New leaders make `Carried` stronger. -/
theorem Carried.back {i : ν} {s s' : State ν ε} (hg : Grows i s s') {t u : Nat}
    {P : List ε} (h : Carried s' t u P) : Carried s t u P := by
  intro t' h1 h2 hled
  rw [← (hg.past t' hled).1]
  exact h t' h1 h2 (hg.led hled)

/-- What acknowledged prefixes promise about their node's log. -/
structure AckInv (s : State ν ε) : Prop where
  bound : ∀ t v k, s.acked t v k →
    k ≤ (s.llog t).length ∧ s.leader t ≠ none ∧ t ≤ s.term v
  down : ∀ t v k k', s.acked t v k → k' ≤ k → s.acked t v k'
  held : ∀ t v k, s.acked t v k → Carried s t (s.term v) ((s.llog t).take k) →
    (s.llog t).take k <+: s.log v
  voted : ∀ t v k t' c, s.acked t v k → t < t' → s.vote v t' = some c →
    (s.leader t' = none ∨ v ∈ s.voters t') → Carried s t (t' - 1) ((s.llog t).take k) →
    (s.llog t).take k <+: s.voteLog v t'

namespace AckInv

omit [Termed ε] in
theorem init : AckInv (State.init : State ν ε) :=
  ⟨fun _ _ _ h => h.elim, fun _ _ _ _ h => h.elim, fun _ _ _ h => h.elim,
    fun _ _ _ _ _ h => h.elim⟩

/-- The argument behind every step that acknowledges nothing: the log of the node keeps
the prefixes it shares with the leader of its term, and a new vote is cast with its log
as it stands. -/
theorem of_grows {i : ν} {s s' : State ν ε} (hinv : Inv s) (h : AckInv s)
    (hg : Grows i s s') (hacked : s'.acked = s.acked) (hterm : s.term i ≤ s'.term i)
    (hlog : ∀ P, P <+: s.log i →
      (s.leader (s.term i) ≠ none → P <+: s.llog (s.term i)) → P <+: s'.log i)
    (hvote : ∀ t c, s'.vote i t = some c →
      (s.vote i t = some c ∧ s'.voteLog i t = s.voteLog i t) ∨
      (s.term i ≤ t ∧ s.vote i t = none ∧ s'.voteLog i t = s.log i)) : AckInv s' := by
  have hle : ∀ v, s.term v ≤ s'.term v := by
    intro v
    by_cases hv : v = i
    · rw [hv]; exact hterm
    · exact (hg.others v hv).1.ge
  -- An acknowledged prefix does not change while the leader's log grows.
  have htake : ∀ t v k, s.acked t v k → (s'.llog t).take k = (s.llog t).take k := by
    intro t v k hk
    obtain ⟨hlen, hled, -⟩ := h.bound t v k hk
    obtain ⟨es, hes, -⟩ := hg.llog t hled
    rw [hes, List.take_append_of_le_length hlen]
  refine ⟨?_, ?_, ?_, ?_⟩
  · intro t v k hk
    rw [hacked] at hk
    obtain ⟨hlen, hled, ht⟩ := h.bound t v k hk
    obtain ⟨es, hes, -⟩ := hg.llog t hled
    refine ⟨?_, hg.led hled, ht.trans (hle v)⟩
    rw [hes, List.length_append]
    omega
  · rw [hacked]
    exact h.down
  · intro t v k hk hcar
    rw [hacked] at hk
    rw [htake t v k hk] at hcar ⊢
    have hcar' : Carried s t (s.term v) ((s.llog t).take k) :=
      fun t' h1 h2 => hcar.back hg t' h1 (h2.trans (hle v))
    have hheld := h.held t v k hk hcar'
    by_cases hv : v = i
    · subst hv
      refine hlog _ hheld fun hled => ?_
      -- The leader of the node's term has the prefix: it is its own, or it started with it.
      rcases (h.bound t v k hk).2.2.lt_or_eq with hlt | heq
      · exact (hcar' _ hlt le_rfl hled).trans (hinv.basePrefix _ hled)
      · rw [← heq]
        exact List.take_prefix _ _
    · rw [(hg.others v hv).2.1]
      exact hheld
  · intro t v k t' c hk ht hv hfresh hcar
    rw [hacked] at hk
    rw [htake t v k hk] at hcar ⊢
    have hcar' : Carried s t (t' - 1) ((s.llog t).take k) := hcar.back hg
    -- A vote that counted, or may still count, did so before.
    have hfresh' : s.leader t' = none ∨ v ∈ s.voters t' := by
      by_cases hled : s.leader t' = none
      · exact Or.inl hled
      · rcases hfresh with hf | hf
        · exact absurd hf (hg.led hled)
        · exact Or.inr ((hg.past t' hled).2 ▸ hf)
    have hold : s.vote v t' = some c → s'.voteLog v t' = s.voteLog v t' →
        (s.llog t).take k <+: s'.voteLog v t' := by
      intro hvs hl
      rw [hl]
      exact h.voted t v k t' c hk ht hvs hfresh' hcar'
    by_cases hvi : v = i
    · subst hvi
      rcases hvote t' c hv with ⟨hvs, hl⟩ | ⟨hle', hnone, hl⟩
      · exact hold hvs hl
      · rw [hl]
        refine h.held t v k hk fun u h1 h2 hled => hcar' u h1 ?_ hled
        -- The term of a new vote has no leader yet.
        have hne : u ≠ t' := by
          rintro rfl
          rcases hfresh' with hf | hf
          · exact hled hf
          · obtain ⟨w, hw⟩ := Option.ne_none_iff_exists'.mp hled
            rw [(hinv.won u w hw).2 v hf] at hnone
            cases hnone
        omega
    · obtain ⟨-, -, hrest⟩ := hg.others v hvi
      exact hold ((hrest t').1 ▸ hv) (hrest t').2.1

end AckInv

/-- Every step keeps the invariant. -/
theorem Step.ackInv [DecidableEq ν] {i : ν} {s s' : State ν ε} (hstep : Step i s s')
    (hinv : Inv s) (h : AckInv s) : AckInv s' := by
  have hg := hstep.grows hinv
  cases hstep with
  | advance t ht =>
      refine AckInv.of_grows hinv h hg rfl ?_ (fun P hP _ => hP) (fun u c hc => Or.inl ⟨hc, rfl⟩)
      simpa [State.advance] using ht.le
  | stand t ht =>
      refine AckInv.of_grows hinv h hg rfl ?_ (fun P hP _ => hP) (fun u c hc => ?_)
      · simpa [State.stand] using ht.le
      · by_cases hu : u = t
        · subst hu
          refine Or.inr ⟨ht.le, ?_, by simp [State.stand, State.set₂]⟩
          by_contra hne
          obtain ⟨d, hd⟩ := Option.ne_none_iff_exists'.mp hne
          have := (hinv.voted i u d hd).1
          omega
        · left
          simpa [State.stand, State.set₂, hu] using hc
  | grant d lc hc hup hnone =>
      refine AckInv.of_grows hinv h hg rfl le_rfl (fun P hP _ => hP) (fun u c hc => ?_)
      by_cases hu : u = s.term i
      · subst hu
        exact Or.inr ⟨le_rfl, hnone, by simp [State.grant, State.set₂]⟩
      · left
        simpa [State.grant, State.set₂, hu] using hc
  | win hc hnone =>
      exact AckInv.of_grows hinv h hg rfl le_rfl (fun P hP _ => hP)
        (fun u c hc => Or.inl ⟨hc, rfl⟩)
  | append e hl he =>
      refine AckInv.of_grows hinv h hg rfl le_rfl (fun P hP _ => ?_)
        (fun u c hc => Or.inl ⟨hc, rfl⟩)
      simp only [State.append, Function.update_self]
      exact hP.trans (List.prefix_append _ _)
  | accept k hled hi =>
      refine AckInv.of_grows hinv h hg rfl le_rfl (fun P hP hM => ?_)
        (fun u c hc => Or.inl ⟨hc, rfl⟩)
      simp only [State.accept, Function.update_self]
      exact keep_overwrite hP (hM hled) (List.take_prefix _ _)
  | ack hled =>
      refine ⟨?_, ?_, ?_, ?_⟩
      · rintro t v k (hk | ⟨rfl, rfl, hlen, -⟩)
        · exact h.bound t v k hk
        · exact ⟨hlen, hled, le_rfl⟩
      · rintro t v k k' (hk | ⟨rfl, rfl, hlen, hpre⟩) hle
        · exact Or.inl (h.down t v k k' hk hle)
        · exact Or.inr ⟨rfl, rfl, hle.trans hlen, (List.take_prefix_take_left hle).trans hpre⟩
      · rintro t v k (hk | ⟨rfl, rfl, -, hpre⟩) hcar
        · exact h.held t v k hk hcar
        · exact hpre
      · rintro t v k t' c (hk | ⟨rfl, rfl, -, -⟩) ht hv hfresh hcar
        · exact h.voted t v k t' c hk ht hv hfresh hcar
        · have := (hinv.voted v t' c hv).1
          omega

/-- Every run of a node keeps the invariant. -/
theorem Steps.ackInv [DecidableEq ν] {i : ν} {s s' : State ν ε} (hsteps : Steps i s s')
    (hinv : Inv s) (h : AckInv s) : AckInv s' := by
  induction hsteps with
  | refl => exact h
  | tail hsteps hstep ih => exact hstep.ackInv (Steps.inv hsteps hinv) ih

/-! ### Committed prefixes -/

section Committed
variable (members : List ν)

/-- Every leader was elected by a majority. -/
def Quorate (s : State ν ε) : Prop := ∀ t, s.leader t ≠ none → Majority members (s.voters t)

/-- A prefix of the leader's log that ends in its own term and that a majority
acknowledged in that term. -/
structure Committed (s : State ν ε) (t : Nat) (P : List ε) : Prop where
  led : s.leader t ≠ none
  pre : P <+: s.llog t
  last : ∃ p e, P = p ++ [e] ∧ termOf e = t
  acked : Majority members {v | s.acked t v P.length}

/-- The first `c` entries of the node's log are committed, in a term it has reached. -/
def CommittedAt (s : State ν ε) (v : ν) (c : Nat) : Prop :=
  c = 0 ∨ ∃ t P, Committed members s t P ∧ t ≤ s.term v ∧ c ≤ P.length ∧ P.take c <+: s.log v

end Committed

variable {members : List ν}

/-- Elections in the past stay elections by a majority. -/
theorem Quorate.back {i : ν} {s s' : State ν ε} (hg : Grows i s s')
    (h : Quorate members s') : Quorate members s := by
  intro t ht
  rw [← (hg.past t ht).2]
  exact h t (hg.led ht)

/-- What is committed stays committed. -/
theorem Committed.grows {i : ν} {s s' : State ν ε} (hg : Grows i s s') {t : Nat}
    {P : List ε} (h : Committed members s t P) : Committed members s' t P where
  led := hg.led h.led
  pre := by
    obtain ⟨es, hes, -⟩ := hg.llog t h.led
    exact h.pre.trans ⟨es, hes.symm⟩
  last := h.last
  acked := h.acked.mono fun v hv => hg.acked t v P.length hv

/-- The last entry of a nonempty log carries its last term. -/
theorem exists_last {l : List ε} (h : l ≠ []) : ∃ p e, l = p ++ [e] ∧ termOf e = lastTerm l := by
  refine ⟨l.dropLast, l.getLast h, (List.dropLast_append_getLast h).symm, ?_⟩
  rw [lastTerm, List.getLast?_eq_some_getLast h]
  rfl

/-- The voter's check carries a committed prefix from the voter's log to the candidate's.

The candidate's log ends in a term `u`. Where `u` is newer than the voter's last term, the
leader of `u` has the prefix. Where it is the same term, both logs are prefixes of the
log of the leader of `u`, and the candidate's is the longer one. -/
theorem upToDate_carries {s : State ν ε} (hinv : Inv s) {t u : Nat} {P lc lv : List ε}
    (hP : P <+: s.llog t) (hlast : ∃ p e, P = p ++ [e] ∧ termOf e = t)
    (hlc : Anchored s lc) (hlv : Anchored s lv) (hup : UpToDate lc lv) (hpre : P <+: lv)
    (hterm : ∀ e ∈ lc, termOf e ≤ u) (hcar : Carried s t u P) : P <+: lc := by
  obtain ⟨p, e, rfl, he⟩ := hlast
  have hlv0 : lv ≠ [] := by
    rintro rfl
    simp at hpre
  obtain ⟨pv, ev, rfl, hev⟩ := exists_last hlv0
  obtain ⟨-, hvpre⟩ := hlv pv ev (List.prefix_refl _)
  have hlc0 : lc ≠ [] := by
    rintro rfl
    rcases hup with hlt | ⟨-, hlen⟩
    · simp [lastTerm] at hlt
    · simp at hlen
  obtain ⟨pc, ec, rfl, hec⟩ := exists_last hlc0
  obtain ⟨hcled, hcpre⟩ := hlc pc ec (List.prefix_refl _)
  -- The voter's last term is at least `t`, since its log holds an entry of term `t`.
  have htv : t ≤ termOf ev := by
    rw [← he]
    exact hinv.llogTerm _ e ((hpre.trans hvpre).subset (by simp))
  rcases hup with hlt | ⟨heq, hlen⟩
  · have hlt' : t < termOf ec := by
      rw [hec]
      omega
    have hbase := hcar (termOf ec) hlt' (hterm ec (by simp)) hcled
    have hPc : p ++ [e] <+: s.llog (termOf ec) := hbase.trans (hinv.basePrefix _ hcled)
    rcases List.prefix_or_prefix_of_prefix hPc hcpre with h | h
    · exact h
    · -- Otherwise the candidate's last entry would be one of the committed prefix.
      have hle : termOf ec ≤ t := hinv.llogTerm t ec (hP.subset (h.subset (by simp)))
      omega
  · rw [← hev, ← hec] at heq
    rw [heq] at hcpre
    exact hpre.trans (List.prefix_of_prefix_length_le hvpre hcpre hlen)

/-- Leader completeness. Strong induction on the later leader's term: the majority that
acknowledged and the majority that elected share a node, its log at the vote had the
prefix by the induction hypothesis, and the voter's check carries it over. -/
theorem leader_complete {s : State ν ε} (hinv : Inv s) (hack : AckInv s)
    (hq : Quorate members s) {t : Nat} {P : List ε} (hc : Committed members s t P) :
    ∀ u, t < u → s.leader u ≠ none → P <+: s.base u := by
  intro u
  induction u using Nat.strong_induction_on with
  | _ u ih =>
      intro htu hled
      obtain ⟨w, hw⟩ := Option.ne_none_iff_exists'.mp hled
      obtain ⟨hcand, hvoters⟩ := hinv.won u w hw
      obtain ⟨v, hv, hak⟩ := (hq u hled).inter hc.acked
      have hvote := hvoters v hv
      obtain ⟨-, hanch, lc, hlc, hup⟩ := hinv.voted v u w hvote
      obtain rfl : s.base u = lc := Option.some.inj (hcand.symm.trans hlc)
      have hcar : Carried s t (u - 1) P := fun t' h1 h2 => ih t' (by omega) h1
      have hPtake : (s.llog t).take P.length = P := (List.prefix_iff_eq_take.mp hc.pre).symm
      have hpre : P <+: s.voteLog v u := by
        have h := hack.voted t v P.length u w hak htu hvote (Or.inr hv)
        rw [hPtake] at h
        exact h hcar
      refine upToDate_carries hinv hc.pre hc.last ?_ hanch hup hpre (u := u - 1) ?_ hcar
      · exact (hinv.llogAnchored u).shorten (hinv.basePrefix u hled)
      · intro e he
        have := hinv.baseTerm hled e he
        omega

/-- Of two committed prefixes one is a prefix of the other. -/
theorem Committed.agree {s : State ν ε} (hinv : Inv s) (hack : AckInv s)
    (hq : Quorate members s) {t t' : Nat} {P P' : List ε} (h : Committed members s t P)
    (h' : Committed members s t' P') : P <+: P' ∨ P' <+: P := by
  rcases lt_trichotomy t t' with hlt | rfl | hlt
  · have hbase := leader_complete hinv hack hq h t' hlt h'.led
    exact List.prefix_or_prefix_of_prefix (hbase.trans (hinv.basePrefix t' h'.led)) h'.pre
  · exact List.prefix_or_prefix_of_prefix h.pre h'.pre
  · have hbase := leader_complete hinv hack hq h' t hlt h.led
    exact List.prefix_or_prefix_of_prefix h.pre (hbase.trans (hinv.basePrefix t h.led))

/-- A committed prefix is in the log of every leader of its term or a later one. -/
theorem Committed.prefix_llog {s : State ν ε} (hinv : Inv s) (hack : AckInv s)
    (hq : Quorate members s) {t u : Nat} {P : List ε} (h : Committed members s t P)
    (htu : t ≤ u) (hled : s.leader u ≠ none) : P <+: s.llog u := by
  rcases htu.lt_or_eq with hlt | rfl
  · exact (leader_complete hinv hack hq h u hlt hled).trans (hinv.basePrefix u hled)
  · exact h.pre

/-- What any node knows to be committed stays in its log, across every step. -/
theorem Step.committedAt [DecidableEq ν] {i : ν} {s s' : State ν ε} (hstep : Step i s s')
    (hinv : Inv s) (hack : AckInv s) (hq : Quorate members s) {v : ν} {c : Nat}
    (h : CommittedAt members s v c) : CommittedAt members s' v c := by
  have hg := hstep.grows hinv
  rcases h with h0 | ⟨t, P, hc, ht, hlen, hpre⟩
  · exact Or.inl h0
  · refine Or.inr ⟨t, P, hc.grows hg, ?_, hlen, ?_⟩
    · refine ht.trans ?_
      by_cases hv : v = i
      · subst hv
        cases hstep with
        | advance u hu => simpa [State.advance] using hu.le
        | stand u hu => simpa [State.stand] using hu.le
        | _ => exact le_rfl
      · exact (hg.others v hv).1.ge
    · by_cases hv : v = i
      · subst hv
        cases hstep with
        | append e hl he =>
            simp only [State.append, Function.update_self]
            exact hpre.trans (List.prefix_append _ _)
        | accept k hled hi =>
            simp only [State.accept, Function.update_self]
            have hllog := hc.prefix_llog hinv hack hq ht hled
            exact keep_overwrite hpre ((List.take_prefix c P).trans hllog) (List.take_prefix k _)
        | _ => exact hpre
      · rw [(hg.others v hv).2.1]
        exact hpre

/-- What any node knows to be committed stays in its log, across a run of node `i`. -/
theorem Steps.committedAt [DecidableEq ν] {i : ν} {s s' : State ν ε} (hsteps : Steps i s s')
    (hinv : Inv s) (hack : AckInv s) (hq : Quorate members s') {v : ν} {c : Nat}
    (h : CommittedAt members s v c) : CommittedAt members s' v c := by
  induction hsteps with
  | refl => exact h
  | tail hsteps hstep ih =>
      have hinv' := Steps.inv hsteps hinv
      have hq' := hq.back (hstep.grows hinv')
      exact hstep.committedAt hinv' (Steps.ackInv hsteps hinv hack) hq' (ih hq')

end RaftEbpf.Lib.Replication
