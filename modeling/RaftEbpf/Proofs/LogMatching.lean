import RaftEbpf.Proofs.ClusterRun

/-!
# `RaftEbpf.Proofs.LogMatching`: one leader per term implies log matching

* `logMatching_of_oneLeaderPerTerm`: in every run without two leaders of one term, each
  state has `LogMatching`, also where envelopes are duplicated and nodes restart.
-/

set_option autoImplicit false

namespace RaftEbpf

open RaftEbpf.Lib.Replication

/-- Entries of one index and one term are the same entry, in two logs and in a log and a
request in flight. Two logs that share such an entry agree up to it. -/
structure LogMatching (m : Membership) (c : Cluster) : Prop where
  logs : ∀ a ∈ m.ids, ∀ b ∈ m.ids, ∀ i e e', (c.nodes a).log.get i = some e →
    (c.nodes b).log.get i = some e' → e.term = e'.term →
    e.command = e'.command ∧ ∀ j, 1 ≤ j → j ≤ i → (c.nodes a).log.get j = (c.nodes b).log.get j
  inFlight : ∀ a ∈ m.ids, ∀ p ∈ c.network, ∀ req, p.envelope.message = .appendEntries req →
    ∀ e' ∈ req.entries.toVec, ∀ e, (c.nodes a).log.get e'.index = some e →
      e.term = e'.term → e.command = e'.command

section
variable {m : Membership} {f : Tracks} {tr : List Cluster} {c : Cluster} {s : Past}

/-- Two lists whose logs match at an index read the same up to it. -/
theorem get_eq_of_take {log log' : RaftLog} {l l' : List LogEntry} (h : log.Holds l)
    (h' : log'.Holds l') {k : Nat} (htake : l.take k = l'.take k) {j : Nat} (hj : j ≤ k) :
    log.get j = log'.get j := by
  rw [h.get, h'.get]
  split
  · rfl
  · rw [← List.getElem?_take_of_lt (show j - 1 < k by omega), htake,
      List.getElem?_take_of_lt (by omega)]

/-- The relation to the protocol carries log matching. -/
theorem Sim.logMatching (h : Sim m f tr c s) : LogMatching m c where
  logs a ha b hb i e e' he he' hterm := by
    have hna := (h.nodes a ha).log
    have hnb := (h.nodes b hb).log
    rw [hna.get] at he
    rw [hnb.get] at he'
    split at he
    · cases he
    · rename_i hi
      rw [if_neg hi] at he'
      have htake := take_eq_take (h.inv.anchored a) (h.inv.anchored b) he he' hterm
      rw [Nat.sub_add_cancel (Nat.pos_iff_ne_zero.mpr hi)] at htake
      have heq : e = e' := by
        have hi' : i - 1 < i := by omega
        rw [← List.getElem?_take_of_lt hi', htake, List.getElem?_take_of_lt hi', he'] at he
        exact (Option.some.inj he).symm
      exact ⟨by rw [heq], fun j _ hj => get_eq_of_take hna hnb htake hj⟩
  inFlight a ha p hp req hreq e' he' e he hterm := by
    obtain ⟨O, hO, -, hpre, hes, -⟩ := (h.packets p hp).append req hreq
    have hna := (h.nodes a ha).log
    -- The entry sits in the sender's list at its own index.
    rw [hes] at he'
    obtain ⟨j, hj⟩ := List.mem_iff_getElem?.mp he'
    have hjO : O[req.prevLogIndex + j]? = some e' := by
      rw [← List.getElem?_drop]
      have hlt := (List.getElem?_eq_some_iff.mp hj).1
      rw [List.length_take] at hlt
      rwa [List.getElem?_take_of_lt (by omega)] at hj
    rw [hO.numbered _ _ hjO, hna.get_succ] at he
    have hOanch : Anchored s O := (h.inv.llogAnchored _).shorten hpre
    have htake := take_eq_take (h.inv.anchored a) hOanch he hjO hterm
    have hlt : req.prevLogIndex + j < req.prevLogIndex + j + 1 := Nat.lt_succ_self _
    rw [← List.getElem?_take_of_lt hlt, htake, List.getElem?_take_of_lt hlt, hjO] at he
    rw [Option.some.inj he]

end

/-- The relation without its conditional parts rests on short counters only. -/
theorem sound_of_short {m : Membership} {ok : Cluster → Action → Prop}
    (h : ∀ c a, ok c a → c.Short a) : Tracks.Sound m ⟨False, False, False⟩ ok :=
  ⟨h, False.elim, False.elim, False.elim, False.elim, False.elim⟩

/-- In every run of short counters without two leaders of one term, logs match. -/
theorem logMatching_of_oneLeaderPerTerm {m : Membership} {tr : List Cluster}
    (hrun : m.Run Cluster.Short tr) (hone : m.OneLeaderPerTerm tr) :
    ∀ c ∈ tr, LogMatching m c := by
  intro c hc
  obtain ⟨rest, hrest, hsub⟩ := hrun.suffix hc
  obtain ⟨c', rest', s, heq, hsim⟩ :=
    run_simulated (sound_of_short fun _ _ h => h) hrest (Or.inr (hone.of_subset hsub))
  obtain ⟨rfl, rfl⟩ := List.cons.inj heq
  exact hsim.logMatching

/-- Three nodes: the leader A replicates an entry to B, B restarts, and a duplicate of the
request arrives after that. -/
theorem logMatching_of_oneLeaderPerTerm_three : LogMatching .three (Membership.three.final
    Cluster.Short [.startElection "A", .deliver 0, .deliver 1, .propose "A" .noop, .duplicate 4,
      .deliver 4, .restart "B", .deliver 4]) :=
  logMatching_of_oneLeaderPerTerm (Lib.run_final (by decide +kernel)) (by decide +kernel) _
    List.mem_cons_self

end RaftEbpf
