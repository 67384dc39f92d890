import Mathlib.Data.Finset.Card
import RaftEbpf.Proofs.NodeRun

/-!
# `RaftEbpf.Proofs.Tally`: when a candidate becomes leader

`start_election` puts the node itself on `votes_received`, and `handle_request_vote_response`
adds one more for self: the threshold is `votes.len() + 1`. A candidate with the grants of
`g` other nodes passes at `g + 2`, where a majority of `N` members asks for `g + 1`.

* `leadsWithMajority_iff`: the two agree exactly in clusters of at most three members, and
  where fewer than `N / 2 - 1` nodes grant their vote.
* `not_leadsWithMajority`: one of four members is leader with two votes.
-/

set_option autoImplicit false

namespace RaftEbpf.RaftNode

/-- The state after these responses, each from its sender, one after the other. -/
def handleAll (n : RaftNode) (rs : List (String × RequestVoteResponse)) : RaftNode :=
  rs.foldl (fun n r => ((handleRequestVoteResponse r.1 r.2).run [] n).state) n

/-- The nodes that granted their vote. -/
def granters (rs : List (String × RequestVoteResponse)) : Finset String :=
  ((rs.filter fun r => r.2.voteGranted).map Prod.fst).toFinset

/-- The votes of these nodes and the own one are `floor(N / 2) + 1`. -/
def Elects (n : RaftNode) (rs : List (String × RequestVoteResponse)) : Prop :=
  majority n.peers ≤ (granters rs).card + 1

/-- Of the responses that a candidate gets, it becomes leader exactly at the one with which
the votes reach a majority of the members. -/
def LeadsWithMajority (n : RaftNode) (rs : List (String × RequestVoteResponse)) : Prop :=
  ∀ before r rest, rs = before ++ r :: rest → (n.handleAll before).role = .candidate →
    ((n.handleAll (before ++ [r])).role = .leader ↔
      n.Elects (before ++ [r]) ∧ ¬ n.Elects before)

theorem handleAll_append (n : RaftNode) (rs : List (String × RequestVoteResponse))
    (r : String × RequestVoteResponse) : n.handleAll (rs ++ [r])
      = ((handleRequestVoteResponse r.1 r.2).run [] (n.handleAll rs)).state := by
  rw [handleAll, List.foldl_append]
  rfl

/-- A grant adds its sender, and a refusal nobody. -/
theorem granters_append (rs : List (String × RequestVoteResponse))
    (r : String × RequestVoteResponse) : granters (rs ++ [r])
      = if r.2.voteGranted then insert r.1 (granters rs) else granters rs := by
  unfold granters
  by_cases hr : r.2.voteGranted
  · ext v
    simp [hr]
  · simp [hr]

/-- One more response grants at most one more vote. -/
theorem card_granters_append (rs : List (String × RequestVoteResponse))
    (r : String × RequestVoteResponse) : (granters rs).card ≤ (granters (rs ++ [r])).card ∧
      (granters (rs ++ [r])).card ≤ (granters rs).card + 1 := by
  rw [granters_append]
  split
  · exact ⟨Finset.card_le_card (Finset.subset_insert _ _), Finset.card_insert_le _ _⟩
  · exact ⟨le_rfl, Nat.le_succ _⟩

section Candidate
variable {n : RaftNode} {rs : List (String × RequestVoteResponse)}

/-- What the code has seen: no grant, or too few for its threshold. -/
def Below (n : RaftNode) (rs : List (String × RequestVoteResponse)) : Prop :=
  granters rs = ∅ ∨ (granters rs).card + 2 < majority n.peers

/-- The list of votes of a candidate that has handled these responses. -/
structure Tally (n : RaftNode) (rs : List (String × RequestVoteResponse)) (votes : List String) :
    Prop where
  nodup : votes.Nodup
  mem_iff : ∀ v, v ∈ votes ↔ v = n.nodeId ∨ v ∈ granters rs

/-- No other node has the own id. -/
theorem notMem_granters (hother : ∀ r ∈ rs, r.1 ≠ n.nodeId) : n.nodeId ∉ granters rs := by
  intro hmem
  simp only [granters, List.mem_toFinset, List.mem_map, List.mem_filter] at hmem
  obtain ⟨r, ⟨hr, -⟩, heq⟩ := hmem
  exact hother r hr heq

/-- The node and the granters are on the list. -/
theorem Tally.length {votes : List String} (h : Tally n rs votes)
    (hother : ∀ r ∈ rs, r.1 ≠ n.nodeId) : votes.length = (granters rs).card + 1 := by
  have hset : votes.toFinset = insert n.nodeId (granters rs) := by
    ext v
    rw [List.mem_toFinset, h.mem_iff, Finset.mem_insert]
  rw [← List.toFinset_card_of_nodup h.nodup, hset,
    Finset.card_insert_of_notMem (notMem_granters hother)]

/-- A grant is counted once. -/
theorem Tally.count {votes : List String} (h : Tally n rs votes)
    {r : String × RequestVoteResponse} (hr : r.2.voteGranted = true) :
    Tally n (rs ++ [r]) (if r.1 ∈ votes then votes else votes ++ [r.1]) := by
  have hgranters : granters (rs ++ [r]) = insert r.1 (granters rs) := by
    rw [granters_append, if_pos hr]
  split
  · rename_i hold
    refine ⟨h.nodup, fun v => ?_⟩
    rw [hgranters, Finset.mem_insert, h.mem_iff]
    have hown := (h.mem_iff r.1).mp hold
    constructor
    · rintro (hv | hv)
      · exact Or.inl hv
      · exact Or.inr (Or.inr hv)
    · rintro (hv | rfl | hv)
      · exact Or.inl hv
      · exact hown
      · exact Or.inr hv
  · rename_i hnew
    refine ⟨?_, fun v => ?_⟩
    · rw [← List.concat_eq_append]
      exact h.nodup.concat hnew
    · rw [hgranters, Finset.mem_insert, List.mem_append, h.mem_iff, List.mem_singleton, or_assoc,
        or_comm (a := v ∈ granters rs)]

theorem counted_eq (votes : List String) (sender : String) :
    counted { candidateOf n with votesReceived := votes } sender
      = { candidateOf n with
          votesReceived := if sender ∈ votes then votes else votes ++ [sender] } := by
  unfold counted
  split <;> rfl

/-- After responses of its term a node is still a candidate, below the threshold of the code,
or it is leader and the threshold is passed. -/
theorem handled (hterm : ∀ r ∈ rs, r.2.term = addOne n.log.currentTerm)
    (hother : ∀ r ∈ rs, r.1 ≠ n.nodeId) :
    (∃ votes, (candidateOf n).handleAll rs = { candidateOf n with votesReceived := votes } ∧
        Tally n rs votes ∧ n.Below rs) ∨
      (((candidateOf n).handleAll rs).role = .leader ∧ ¬ n.Below rs) := by
  induction rs using List.reverseRecOn with
  | nil =>
      exact Or.inl ⟨[n.nodeId], rfl, ⟨List.nodup_singleton _, by simp [granters]⟩, Or.inl rfl⟩
  | append_singleton rs r ih =>
      have hmem : r ∈ rs ++ [r] := List.mem_append_right _ (List.mem_singleton_self r)
      have hlast : ¬ r.2.term > (candidateOf n).log.currentTerm := by
        rw [hterm r hmem]
        exact lt_irrefl _
      have hrun := handleAll_append (candidateOf n) rs r
      rcases ih (fun r' hr' => hterm r' (List.mem_append_left _ hr'))
          (fun r' hr' => hother r' (List.mem_append_left _ hr')) with
        ⟨votes, hstate, htally, hbelow⟩ | ⟨hleader, hpast⟩
      · rw [hstate, run_handleRequestVoteResponse, if_neg (by simp [candidateOf]), if_neg hlast]
          at hrun
        by_cases hgrant : r.2.voteGranted = true
        · obtain ⟨votes', htally', hcounted⟩ : ∃ votes', Tally n (rs ++ [r]) votes' ∧
              counted { candidateOf n with votesReceived := votes } r.1
                = { candidateOf n with votesReceived := votes' } :=
            ⟨_, htally.count hgrant, counted_eq votes r.1⟩
          have hlength := htally'.length hother
          have hne : granters (rs ++ [r]) ≠ ∅ := by
            rw [granters_append, if_pos hgrant]
            exact Finset.insert_ne_empty _ _
          rw [if_pos hgrant, hcounted] at hrun
          split at hrun
          · rename_i hreach
            have hreach' : majority n.peers ≤ (granters (rs ++ [r])).card + 1 + 1 := by
              rw [← hlength]
              exact hreach
            exact Or.inr ⟨by rw [hrun]; rfl, fun hbelow => hbelow.elim hne (by omega)⟩
          · rename_i hreach
            have hreach' : ¬ majority n.peers ≤ (granters (rs ++ [r])).card + 1 + 1 := by
              rw [← hlength]
              exact hreach
            exact Or.inl ⟨_, hrun, htally', Or.inr (by omega)⟩
        · -- A refusal changes nothing.
          rw [if_neg hgrant] at hrun
          have hsame : granters (rs ++ [r]) = granters rs := by
            rw [granters_append, if_neg hgrant]
          refine Or.inl ⟨votes, hrun, ⟨htally.nodup, ?_⟩, ?_⟩
          · rw [hsame]
            exact htally.mem_iff
          · rw [Below, hsame]
            exact hbelow
      · -- A leader ignores the response, and there are as many grants or more.
        rw [run_handleRequestVoteResponse, if_pos (by rw [hleader]; simp)] at hrun
        refine Or.inr ⟨by rw [hrun]; exact hleader, fun hbelow => hpast ?_⟩
        have hcard := (card_granters_append rs r).1
        rcases hbelow with hnone | hfew
        · rw [hnone, Finset.card_empty, Nat.le_zero, Finset.card_eq_zero] at hcard
          exact Or.inl hcard
        · exact Or.inr (by omega)

/-- The role after responses of its term. -/
theorem role_handleAll (hterm : ∀ r ∈ rs, r.2.term = addOne n.log.currentTerm)
    (hother : ∀ r ∈ rs, r.1 ≠ n.nodeId) :
    (((candidateOf n).handleAll rs).role = .candidate ↔ n.Below rs) ∧
      (((candidateOf n).handleAll rs).role = .leader ↔ ¬ n.Below rs) := by
  rcases handled hterm hother with ⟨votes, hstate, -, hbelow⟩ | ⟨hleader, hpast⟩
  · rw [hstate]
    simp [candidateOf, hbelow]
  · rw [hleader]
    simp [hpast]

/-- The role before and after one of the responses. -/
theorem role_split {before rest : List (String × RequestVoteResponse)}
    {r : String × RequestVoteResponse} (hrs : rs = before ++ r :: rest)
    (hterm : ∀ r ∈ rs, r.2.term = addOne n.log.currentTerm) (hother : ∀ r ∈ rs, r.1 ≠ n.nodeId) :
    (((candidateOf n).handleAll before).role = .candidate ↔ n.Below before) ∧
      (((candidateOf n).handleAll (before ++ [r])).role = .leader ↔ ¬ n.Below (before ++ [r])) := by
  have happend : rs = (before ++ [r]) ++ rest := by
    rw [hrs]
    simp
  have hsub : ∀ r' ∈ before ++ [r], r' ∈ rs := by
    intro r' hr'
    rw [happend]
    exact List.mem_append_left _ hr'
  have hsub' : ∀ r' ∈ before, r' ∈ rs := fun r' hr' => hsub r' (List.mem_append_left _ hr')
  exact ⟨(role_handleAll (fun r' hr' => hterm r' (hsub' r' hr'))
      fun r' hr' => hother r' (hsub' r' hr')).1,
    (role_handleAll (fun r' hr' => hterm r' (hsub r' hr')) fun r' hr' =>
      hother r' (hsub r' hr')).2⟩

end Candidate

/-- A property that gets lost on the way along a list gets lost at one element. -/
theorem exists_crossing {α : Type} {P : List α → Prop} {l : List α} (hnil : P []) (h : ¬ P l) :
    ∃ before a rest, l = before ++ a :: rest ∧ P before ∧ ¬ P (before ++ [a]) := by
  induction l using List.reverseRecOn with
  | nil => exact absurd hnil h
  | append_singleton l a ih =>
      by_cases hl : P l
      · exact ⟨l, a, [], rfl, hl, h⟩
      · obtain ⟨before, b, rest, rfl, hbefore, hafter⟩ := ih hl
        exact ⟨before, b, rest ++ [a], by simp, hbefore, hafter⟩

theorem below_iff (n : RaftNode) (rs : List (String × RequestVoteResponse)) :
    n.Below rs ↔ (granters rs).card = 0 ∨ (granters rs).card + 2 < majority n.peers := by
  rw [Below, Finset.card_eq_zero]

/-- A candidate becomes leader exactly with the votes of a majority if the cluster has at most
three members, or the nodes that grant their vote are fewer than `N / 2 - 1`. -/
theorem leadsWithMajority_iff (n : RaftNode) (hpeers : n.peers.keys ≠ [])
    (rs : List (String × RequestVoteResponse))
    (hterm : ∀ r ∈ rs, r.2.term = addOne n.log.currentTerm) (hother : ∀ r ∈ rs, r.1 ≠ n.nodeId) :
    LeadsWithMajority (startElection.run [] n).state rs ↔
      n.peers.keys.length + 1 ≤ 3 ∨ (granters rs).card + 1 < (n.peers.keys.length + 1) / 2 := by
  have hone : 1 ≤ n.peers.keys.length := List.length_pos_iff.mpr hpeers
  have hcandidate : (startElection.run [] n).state = candidateOf n := by
    rw [run_startElection, if_neg hpeers]
  have hmajority : majority n.peers = (n.peers.keys.length + 1) / 2 + 1 := rfl
  have helects : ∀ rs', (candidateOf n).Elects rs' ↔
      majority n.peers ≤ (granters rs').card + 1 := fun _ => Iff.rfl
  rw [hcandidate]
  constructor
  · intro hleads
    by_contra hcond
    have hpast : ¬ n.Below rs := by
      rw [below_iff]
      omega
    obtain ⟨before, r, rest, hrs, hbelow, hafter⟩ := exists_crossing (Or.inl rfl) hpast
    obtain ⟨hcand, hlead⟩ := role_split hrs hterm hother
    have hmaj := ((hleads before r rest hrs (hcand.mpr hbelow)).mp (hlead.mpr hafter)).1
    have hcard := card_granters_append before r
    rw [helects] at hmaj
    rw [below_iff] at hbelow
    omega
  · intro hcond before r rest hrs hcand
    obtain ⟨hcand', hlead⟩ := role_split hrs hterm hother
    have hbelow := hcand'.mp hcand
    have hcard := card_granters_append before r
    have htotal : (granters (before ++ [r])).card ≤ (granters rs).card := by
      have happend : rs = (before ++ [r]) ++ rest := by rw [hrs]; simp
      refine Finset.card_le_card fun v hv => ?_
      rw [happend]
      simp only [granters, List.mem_toFinset, List.mem_map, List.mem_filter] at hv ⊢
      obtain ⟨r', ⟨hr', hgrant⟩, rfl⟩ := hv
      exact ⟨r', ⟨List.mem_append_left _ hr', hgrant⟩, rfl⟩
    rw [hlead, helects, helects, below_iff]
    rw [below_iff] at hbelow
    omega

/-- The grant of one node, in term 1. -/
def grant (sender : String) : String × RequestVoteResponse :=
  (sender, ⟨1, true, .pushStr 64 sender⟩)

/-- A node with two peers, and one with three. -/
def ofThree : RaftNode := .withLog "A" (peerMap [("B", "b"), ("C", "c")]) (.unloaded .empty)

def ofFour : RaftNode :=
  .withLog "A" (peerMap [("B", "b"), ("C", "c"), ("D", "d")]) (.unloaded .empty)

theorem leadsWithMajority_iff_three :
    LeadsWithMajority (startElection.run [] ofThree).state [grant "C", grant "B"] :=
  (leadsWithMajority_iff ofThree (by decide) _ (by decide) (by decide)).mpr (Or.inl (by decide))

/-- One of four members becomes leader with the first grant. -/
theorem not_leadsWithMajority : ¬ ∀ (n : RaftNode) (rs : List (String × RequestVoteResponse)),
    n.peers.keys ≠ [] → (∀ r ∈ rs, r.2.term = addOne n.log.currentTerm) →
      (∀ r ∈ rs, r.1 ≠ n.nodeId) → LeadsWithMajority (startElection.run [] n).state rs := by
  intro h
  have hleads := h ofFour [grant "B"] (by decide) (by decide) (by decide) [] (grant "B") [] rfl
  have hmaj := ((hleads (by decide +kernel)).mp (by decide +kernel)).1
  revert hmaj
  unfold Elects
  decide +kernel

end RaftEbpf.RaftNode
