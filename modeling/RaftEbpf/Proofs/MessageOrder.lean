import RaftEbpf.Lib.Ranking
import RaftEbpf.StateMachine

/-!
# `RaftEbpf.Proofs.MessageOrder`: the history over the order of the map

`get_messages` sorts what an iteration over the map gave it. Keys are strings, and several of them
are one number ("_msg:5", "_msg:05", "_msg:+5"). Their messages come out in the order of the
iteration, and the limit may cut between them.
-/

set_option autoImplicit false

namespace RaftEbpf.StateMachine

open RaftEbpf.Lib (HashMap above top exists_shown getElem?_top_cons length_top top_eq_of_perm)

variable {V : Type}

/-- The messages with their timestamps, in the order of the map. -/
def messagesOf (fromSlice : List UInt8 → Option V) (data : HashMap String (List UInt8)) :
    List (Nat × V) :=
  data.entries.filterMap fun e => message fromSlice e.1 e.2

theorem getMessages_eq_top (fromSlice : List UInt8 → Option V) (sm : StateMachine) (limit : Nat) :
    sm.getMessages fromSlice limit = top limit (messagesOf fromSlice sm.data) := rfl

/-- The history depends on the contents of the map only, and holds the newest messages. -/
structure ShowsHistory (fromSlice : List UInt8 → Option V) (sm : StateMachine) (limit : Nat) :
    Prop where
  sameForAllOrders : ∀ data : HashMap String (List UInt8), data.entries.Perm sm.data.entries →
    ({ sm with data } : StateMachine).getMessages fromSlice limit =
      sm.getMessages fromSlice limit
  length : (sm.getMessages fromSlice limit).length = min limit (messagesOf fromSlice sm.data).length
  newest : ∃ shown omitted : List (Nat × V), sm.getMessages fromSlice limit = shown.map Prod.snd ∧
    (shown ++ omitted).Perm (messagesOf fromSlice sm.data) ∧
      shown.Pairwise (fun a b => b.1 ≤ a.1) ∧ ∀ b ∈ omitted, ∀ a ∈ shown, b.1 ≤ a.1

/-- Another order of the map, with the message of this entry in front. -/
theorem exists_front {fromSlice : List UInt8 → Option V} {data : HashMap String (List UInt8)}
    {a : Nat × V} (ha : a ∈ messagesOf fromSlice data) :
    ∃ data' : HashMap String (List UInt8), data'.entries.Perm data.entries ∧
      ∃ rest, messagesOf fromSlice data' = a :: rest := by
  obtain ⟨e, he, hmessage⟩ := List.mem_filterMap.mp ha
  obtain ⟨before, behind, hsplit⟩ := List.append_of_mem he
  have hperm : (e :: (before ++ behind)).Perm data.entries := by
    rw [hsplit]
    exact List.perm_middle.symm
  refine ⟨⟨e :: (before ++ behind), (List.perm_nodupKeys hperm).mpr data.nodupKeys⟩, hperm, ?_⟩
  exact ⟨_, List.filterMap_cons_some hmessage⟩

/-- Where the order plays no part, two messages at one place have the same value. The place behind
all newer messages shows the one that the map has first. -/
theorem ShowsHistory.value_eq {fromSlice : List UInt8 → Option V} {sm : StateMachine} {limit : Nat}
    (h : ShowsHistory fromSlice sm limit) {a b : Nat × V}
    (ha : a ∈ messagesOf fromSlice sm.data) (hb : b ∈ messagesOf fromSlice sm.data)
    (hkey : a.1 = b.1) (habove : above a.1 (messagesOf fromSlice sm.data) < limit) :
    a.2 = b.2 := by
  have hplace : ∀ c ∈ messagesOf fromSlice sm.data, c.1 = a.1 →
      (sm.getMessages fromSlice limit)[above a.1 (messagesOf fromSlice sm.data)]? = some c.2 := by
    intro c hc hkey
    obtain ⟨data, hperm, rest, hmessages⟩ := exists_front hc
    have hsame : above c.1 (c :: rest) = above a.1 (messagesOf fromSlice sm.data) := by
      rw [← hmessages, hkey]
      exact (hperm.filterMap _).countP_eq _
    have hfront := getElem?_top_cons c rest (n := limit) (by rw [hsame]; exact habove)
    rw [hsame, ← hmessages] at hfront
    rw [← h.sameForAllOrders data hperm]
    exact hfront
  exact Option.some.inj ((hplace a ha rfl).symm.trans (hplace b hb hkey.symm))

/-- For every map and limit: the history depends on the contents only if and only if any two
messages with one timestamp, with fewer than `limit` newer ones, have the same value. Its length,
its order and that nothing newer is left out hold in any case. -/
theorem showsHistory_iff (fromSlice : List UInt8 → Option V) (sm : StateMachine) (limit : Nat) :
    ShowsHistory fromSlice sm limit ↔
      ∀ a ∈ messagesOf fromSlice sm.data, ∀ b ∈ messagesOf fromSlice sm.data, a.1 = b.1 →
        above a.1 (messagesOf fromSlice sm.data) < limit → a.2 = b.2 := by
  constructor
  · exact fun h a ha b hb hkey habove => h.value_eq ha hb hkey habove
  · intro h
    constructor
    · intro data hperm
      exact (top_eq_of_perm (hperm.symm.filterMap _) h).symm
    · exact length_top limit _
    · exact exists_shown limit _

/-- The numbers 1 and 2, as JSON text. -/
def oneOrTwo (bytes : List UInt8) : Option Nat :=
  if bytes = [49] then some 1 else if bytes = [50] then some 2 else none

/-- Two keys that are the number 5. -/
def twoKeys : StateMachine :=
  ⟨((∅ : HashMap String (List UInt8)).insert "_msg:5" [49]).insert "_msg:05" [50], 2⟩

/-- The newest message is 1 or 2, whichever key the map has first. -/
theorem not_showsHistory :
    ¬ ∀ (fromSlice : List UInt8 → Option Nat) (sm : StateMachine) (limit : Nat),
      ShowsHistory fromSlice sm limit := by
  intro h
  have hmessages : messagesOf oneOrTwo twoKeys.data = [(5, 2), (5, 1)] := by decide +kernel
  have hsame := (h oneOrTwo twoKeys 1).value_eq (a := (5, 2)) (b := (5, 1)) ?_ ?_ rfl ?_
  · cases hsame
  · rw [hmessages]
    exact List.mem_cons_self
  · rw [hmessages]
    exact List.mem_cons_of_mem _ List.mem_cons_self
  · rw [hmessages]
    decide

end RaftEbpf.StateMachine
