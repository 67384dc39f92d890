import RaftEbpf.Proofs.LogMatching

/-!
# `RaftEbpf.Proofs.MatchIndex`: when `match_index` is sound

A follower answers a request with the last index of its whole log, and the leader takes
that for what the follower shares with it.

* `not_matchSound`: a follower with an entry left over from an older leader acknowledges an
  empty heartbeat of a leader whose log is empty.
* `matchSound_of_ackSound`: where each success that a leader records answers a request of
  its own term and the leader has the follower's last entry, `match_index` is sound.
-/

set_option autoImplicit false

namespace RaftEbpf

open RaftEbpf.Lib.Replication

/-- What a leader's `match_index` promises about a peer that is not past the leader's
term: the leader has the entries up to it, and the peer has the same ones. -/
def MatchSound (m : Membership) (c : Cluster) : Prop :=
  ∀ l ∈ m.ids, ∀ p ∈ m.ids, ∀ term k, c.Leads l term → (c.nodes p).log.currentTerm ≤ term →
    (c.nodes l).matchIndex.lookup p = some k →
    k ≤ (c.nodes l).log.lastIndex ∧
      ∀ i, 1 ≤ i → i ≤ k → ∃ e, (c.nodes l).log.get i = some e ∧ (c.nodes p).log.get i = some e

/-- Two logs that hold a common prefix read the same entries there. -/
theorem exists_get_of_prefix {log log' : RaftLog} {l l' : List LogEntry} (h : log.Holds l)
    (h' : log'.Holds l') {k : Nat} (hk : k ≤ l.length) (hpre : l.take k <+: l') {i : Nat}
    (hi : 1 ≤ i) (hik : i ≤ k) : ∃ e, log.get i = some e ∧ log'.get i = some e := by
  have hlt : i - 1 < (l.take k).length := by
    rw [List.length_take]
    omega
  refine ⟨(l.take k)[i - 1], ?_, ?_⟩
  · rw [h.get, if_neg (by omega), List.getElem_take]
    exact List.getElem?_eq_getElem _
  · rw [h'.get, if_neg (by omega)]
    exact List.prefix_iff_getElem?.mp hpre (i - 1) hlt

/-- Where acknowledgements are tracked, match indexes are sound. The peer acknowledged in
the leader's term, so it has reached that term and, not being past it, is still in it. -/
theorem Sim.matchSound {m : Membership} {f : Tracks} {tr : List Cluster} {c : Cluster} {s : Past}
    (h : Sim m f tr c s) (ha : f.acks) : MatchSound m c := by
  intro l hl p hp term k hlead hterm hk
  obtain ⟨hrole, hlt⟩ := hlead
  have hnl := h.nodes l hl
  have hnp := h.nodes p hp
  rcases hnl.matched ha hrole p k hk with rfl | hacked
  · exact ⟨Nat.zero_le _, fun i hi hik => by omega⟩
  · obtain ⟨hlen, -, hreached⟩ := h.ackInv.bound _ _ _ hacked
    have hllog := hnl.leads_log h.inv hrole
    rw [← hllog] at hlen
    have hpt : s.term p = s.term l := by
      rw [← hnp.term] at hreached ⊢
      rw [← hnl.term] at hreached ⊢
      omega
    -- No leader came after: the peer's term is the leader's.
    have hheld := h.ackInv.held _ _ _ hacked (fun u h1 h2 _ => by omega)
    rw [← hllog] at hheld
    refine ⟨?_, fun i hi hik => exists_get_of_prefix hnl.log hnp.log hlen hheld hi hik⟩
    rw [hnl.log.lastIndex]
    exact hlen

/-- In every run whose steps are `AckSound` and without two leaders of one term,
`match_index` is sound. -/
theorem matchSound_of_ackSound {m : Membership} {tr : List Cluster}
    (hrun : m.Run (fun c a => c.Short a ∧ c.AckSound a) tr) (hone : m.OneLeaderPerTerm tr) :
    ∀ c ∈ tr, MatchSound m c := by
  intro c hc
  obtain ⟨rest, hrest, hsub⟩ := hrun.suffix hc
  have hsound : Tracks.Sound m ⟨False, True, False⟩ (fun c a => c.Short a ∧ c.AckSound a) :=
    ⟨fun _ _ h => h.1, False.elim, fun _ _ _ h => h.2, False.elim, False.elim, False.elim⟩
  obtain ⟨c', rest', s, heq, hsim⟩ := run_simulated hsound hrest (Or.inr (hone.of_subset hsub))
  obtain ⟨rfl, rfl⟩ := List.cons.inj heq
  exact hsim.matchSound trivial

/-- Three nodes: the leader A proposes, and B acknowledges the new entry. -/
theorem matchSound_of_ackSound_three : MatchSound .three (Membership.three.final
    (fun c a => c.Short a ∧ c.AckSound a)
    [.startElection "A", .deliver 0, .deliver 1, .propose "A" .noop, .deliver 4, .deliver 4]) :=
  matchSound_of_ackSound (Lib.run_final (by decide +kernel)) (by decide +kernel) _
    List.mem_cons_self

/-- A leads term 1 and has an entry of its own. B leads term 2 with an empty log, and A
answers its empty heartbeat with last index 1. -/
def unsoundAck : List Action :=
  [.startElection "A", .deliver 0, .deliver 1, .propose "A" .noop, .startElection "B",
    .startElection "B", .deliver 7, .deliver 8, .deliver 9, .deliver 9]

/-- A leader's `match_index` can exceed its own log, with no envelope duplicated, no restart
and one leader per term. -/
theorem not_matchSound : ¬ ∀ (m : Membership) (tr : List Cluster),
    m.Run (fun _ a => a.isLossy = true) tr → m.OneLeaderPerTerm tr →
    ∀ c ∈ tr, MatchSound m c := by
  intro h
  have hrun : Membership.three.Run (fun _ a => a.isLossy = true)
      (Membership.three.trace (fun _ a => a.isLossy = true) unsoundAck) :=
    Lib.run_trace (by decide +kernel)
  obtain ⟨c, hc, hlead, hterm, hmatch, hlast⟩ : ∃ c ∈ Membership.three.trace
      (fun _ a => a.isLossy = true) unsoundAck, c.Leads "B" 2 ∧
        (c.nodes "A").log.currentTerm ≤ 2 ∧ (c.nodes "B").matchIndex.lookup "A" = some 1 ∧
        (c.nodes "B").log.lastIndex = 0 := by
    decide +kernel
  have hsound := h _ _ hrun (by decide +kernel) c hc "B" (by decide) "A" (by decide) 2 1 hlead
    hterm hmatch
  omega

end RaftEbpf
