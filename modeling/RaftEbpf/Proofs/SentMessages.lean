import Mathlib.Data.List.Induction
import RaftEbpf.Ipc
import RaftEbpf.Proofs.MessageOrder
import RaftEbpf.Proofs.NodeRun
import RaftEbpf.Proofs.ReadBack
import RaftEbpf.Wire

/-!
# `RaftEbpf.Proofs.SentMessages`: what becomes of acknowledged messages

A Send stores its message under the millisecond of its arrival, cut at 1024 bytes. A second one in
the same millisecond takes the place of the first, and a message that was cut does not parse.

`serde_json` is a parameter: the values sent are read back from their text, and no text that is cut
short is one.
-/

set_option autoImplicit false

namespace RaftEbpf

open RaftEbpf.Lib (HashMap Prog Utf8.bytes Utf8.encode)

namespace StateMachine

/-! ### The keys of messages -/

theorem toList_key (t : Nat) : (s!"_msg:{t}").toList = "_msg:".toList ++ Nat.toDigits 10 t := by
  show (toString "_msg:" ++ toString t).toList = _
  rw [String.toList_append]
  show "_msg:".toList ++ t.repr.toList = _
  rw [Nat.toList_repr]

/-- Digits without a sign are read as they are. -/
theorem parseU128_of_digits {cs : List Char} (hne : cs ≠ [])
    (hdigits : ∀ c ∈ cs, c.isDigit = true) (hlt : Nat.ofDigitChars 10 cs 0 < 2 ^ 128) :
    parseU128 cs = some (Nat.ofDigitChars 10 cs 0) := by
  have hvalue : cs.foldl (fun n d => n * 10 + (d.toNat - '0'.toNat)) 0 =
      Nat.ofDigitChars 10 cs 0 := by
    rw [Nat.ofDigitChars_eq_foldl]
    simp only [Nat.mul_comm]
  unfold parseU128
  split
  · -- A plus sign is no digit.
    have hplus : '+'.isDigit = true := hdigits '+' List.mem_cons_self
    revert hplus
    exact nofun
  · simp only [hvalue]
    exact if_pos ⟨hne, List.all_eq_true.mpr hdigits, hlt⟩

/-- The key of a message, and the number in it. -/
theorem message_key {V : Type} (fromSlice : List UInt8 → Option V) {t : Nat} (ht : t < 2 ^ 128)
    (value : List UInt8) :
    message fromSlice s!"_msg:{t}" value = (fromSlice value).map (t, ·) := by
  have hdigits : ∀ c ∈ Nat.toDigits 10 t, c.isDigit = true :=
    fun c hc => Nat.isDigit_of_mem_toDigits (by decide) (Nat.le_refl 10) hc
  have hparse := parseU128_of_digits Nat.toDigits_ne_nil hdigits
    (by rw [Nat.ofDigitChars_ten_toDigits]; exact ht)
  have hdrop : ("_msg:".toList ++ Nat.toDigits 10 t).drop 5 = Nat.toDigits 10 t :=
    List.drop_left' rfl
  rw [message, toList_key, hdrop, hparse, Nat.ofDigitChars_ten_toDigits]
  rw [guard, if_pos (List.prefix_append _ _)]
  cases fromSlice value with
  | none => rfl
  | some v => rfl

theorem length_encode_le (cs : List Char) : (Utf8.encode cs).length ≤ 4 * cs.length := by
  induction cs with
  | nil => exact Nat.le_refl 0
  | cons c cs ih =>
      rw [Utf8.encode, List.flatMap_cons, List.length_append, List.length_cons,
        String.length_utf8EncodeChar]
      have hc := c.utf8Size_le_four
      rw [Utf8.encode] at ih
      omega

theorem utf8ByteSize_key_le {t : Nat} (ht : t ≤ u64Max) : (s!"_msg:{t}").utf8ByteSize ≤ 256 := by
  have hlen : (Nat.toDigits 10 t).length ≤ 20 := by
    rw [Nat.length_toDigits_le_iff (by decide) (by decide)]
    exact Nat.lt_of_le_of_lt ht (by decide)
  have hle := length_encode_le ((s!"_msg:{t}").toList)
  rw [← Lib.Utf8.length_bytes, Utf8.bytes]
  rw [toList_key, List.length_append] at hle
  rw [toList_key]
  have hfive : "_msg:".toList.length = 5 := rfl
  omega

/-! ### One message more -/

section Apply
variable {V : Type} {fromSlice : List UInt8 → Option V}

/-- A message that takes no other's place. -/
theorem perm_messagesOf_insert {data : HashMap String (List UInt8)} {key : String}
    (hfree : (data.lookup key).bind (message fromSlice key) = none) (value : List UInt8) :
    (messagesOf fromSlice (data.insert key value)).Perm
      ((message fromSlice key value).toList ++ messagesOf fromSlice data) := by
  have hperm := HashMap.perm_filterMap_insert (message fromSlice) data key value
  rw [hfree] at hperm
  exact hperm.symm

variable (fromSlice) in
/-- An insertion adds at most one message, and one only if it takes no other's place. -/
theorem length_messagesOf_insert (data : HashMap String (List UInt8)) (key : String)
    (value : List UInt8) :
    (messagesOf fromSlice (data.insert key value)).length ≤
        (messagesOf fromSlice data).length + 1 ∧
      ((messagesOf fromSlice (data.insert key value)).length =
          (messagesOf fromSlice data).length + 1 →
        (message fromSlice key value).isSome ∧
          (data.lookup key).bind (message fromSlice key) = none) := by
  have hlength := (HashMap.perm_filterMap_insert (message fromSlice) data key value).length_eq
  rw [List.length_append, List.length_append] at hlength
  rw [messagesOf, messagesOf]
  cases hnew : message fromSlice key value with
  | none =>
      rw [hnew] at hlength
      simp only [Option.toList_none, List.length_nil] at hlength
      constructor
      · omega
      · intro h
        omega
  | some new =>
      rw [hnew] at hlength
      cases hold : (data.lookup key).bind (message fromSlice key) with
      | none =>
          rw [hold] at hlength
          simp only [Option.toList_none, Option.toList_some, List.length_nil,
            List.length_singleton] at hlength
          constructor
          · omega
          · exact fun _ => ⟨rfl, rfl⟩
      | some old =>
          rw [hold] at hlength
          simp only [Option.toList_some, List.length_singleton] at hlength
          constructor
          · omega
          · intro h
            omega

end Apply

end StateMachine

namespace Ipc

open RaftNode StateMachine

/-- A Send request, with the clock and the end of the wait that it meets. -/
structure Sending where
  text : String
  tx : Sender
  timestamp : Nat
  /-- `json!` panics above. -/
  inRange : timestamp ≤ u64Max
  received : Received

namespace Sending

/-- The value that a Send stores. -/
def value (nodeId : String) (s : Sending) : Json :=
  .obj [("from", .str nodeId), ("message", .str s.text), ("timestamp", .num s.timestamp)]

/-- The Send is reported as successful. -/
def Acknowledged (s : Sending) : Prop := (sendResponse s.received).success = true

instance (s : Sending) : Decidable s.Acknowledged := inferInstanceAs (Decidable (_ = true))

variable (toBytes : Json → List UInt8) (fromSlice : List UInt8 → Option Json)

/-- The Send at this node. -/
def handle (n : RaftNode) (s : Sending) : Prog.Result RaftNode Output WriteResult IpcResponse :=
  (processRequest ⟨s.timestamp, s.received, toBytes, fromSlice⟩ s.tx (.send s.text)).run [] n

/-- The command of the Send. -/
def command (nodeId : String) (s : Sending) : Command :=
  sentCommand ⟨s.timestamp, s.received, toBytes, fromSlice⟩ nodeId s.text

end Sending

/-- The entry that an output appends. -/
def appendedEntry : Output → Option LogEntry
  | .appended _ entry => some entry
  | _ => none

section
variable (toBytes : Json → List UInt8) (fromSlice : List UInt8 → Option Json)

/-- The Sends that are handled with success, one after another, and the entries they append. -/
def acknowledged (n : RaftNode) : List Sending → List (Sending × List LogEntry)
  | [] => []
  | s :: rest =>
      let r := s.handle toBytes fromSlice n
      if r.value.any (·.success) then
        (s, r.out.filterMap appendedEntry) :: acknowledged r.state rest
      else acknowledged r.state rest

/-- Once the entries of the successful Sends are applied, the history has the value of each of them
and nothing else. -/
def NothingLost (n : RaftNode) (sm : StateMachine) (sends : List Sending) : Prop :=
  let acks := acknowledged toBytes fromSlice n sends
  ∀ limit, acks.length ≤ limit →
    (((acks.flatMap Prod.snd).foldl StateMachine.apply sm).getMessages fromSlice limit).Perm
      (acks.map fun a => a.1.value n.nodeId)

end

/-- The successful Sends with the indices of their entries, which count on from `last_index`. -/
def numbered (last : Nat) : List Sending → List (Nat × Sending)
  | [] => []
  | s :: rest =>
      if s.Acknowledged then (addOne last, s) :: numbered (addOne last) rest
      else numbered (addOne last) rest

/-- No two successful Sends in one millisecond, none with more than 1024 bytes of JSON, and indices
that ascend from what the machine has applied. -/
structure Distinct (toBytes : Json → List UInt8) (nodeId : String) (lastApplied : Nat)
    (acks : List (Nat × Sending)) : Prop where
  timestamps : (acks.map fun a => a.2.timestamp).Nodup
  fits : ∀ a ∈ acks, (toBytes (a.2.value nodeId)).length ≤ 1024
  indices : (lastApplied :: acks.map Prod.fst).Pairwise (· < ·)

/-! ### The Sends at a Leader -/

section Handle
variable {toBytes : Json → List UInt8} {fromSlice : List UInt8 → Option Json}

variable (toBytes fromSlice) in
/-- A Leader appends one entry, and stays Leader of its term. -/
theorem handle_leader {n : RaftNode} (hrole : n.role = .leader) (s : Sending) :
    let r := s.handle toBytes fromSlice n
    r.value = some (sendResponse s.received) ∧ r.state.role = .leader ∧
      r.state.nodeId = n.nodeId ∧ r.state.log.currentTerm = n.log.currentTerm ∧
      r.state.log.lastIndex = addOne n.log.lastIndex ∧
      r.out.filterMap appendedEntry =
        [⟨addOne n.log.lastIndex, n.log.currentTerm, s.command toBytes fromSlice n.nodeId⟩] := by
  have hheartbeats : ∀ n' : RaftNode, (heartbeats n').filterMap appendedEntry = [] := by
    intro n'
    rw [List.filterMap_eq_nil_iff]
    intro o ho
    obtain ⟨env, rfl⟩ := exists_send_of_mem_heartbeats ho
    rfl
  have hpropose := run_propose [] n (s.command toBytes fromSlice n.nodeId) s.tx
  rw [if_pos hrole] at hpropose
  have hrun : s.handle toBytes fromSlice n =
      ((propose (s.command toBytes fromSlice n.nodeId) s.tx).run [] n).andThen fun _ cs n' =>
        (pure (sendResponse s.received) : NodeProg IpcResponse).run cs n' := by
    rw [← Prog.run_bind]
    rfl
  rw [hrun, hpropose]
  refine ⟨rfl, hrole, rfl, rfl, rfl, ?_⟩
  simp only [Prog.Result.andThen_some, Prog.run_pure, List.append_nil, List.filterMap_cons,
    appendedEntry, hheartbeats]
  rfl

/-- The successful Sends at a Leader: one entry each, at the indices that `numbered` gives. -/
theorem acknowledged_eq {n : RaftNode} (hrole : n.role = .leader) (sends : List Sending) :
    acknowledged toBytes fromSlice n sends = (numbered n.log.lastIndex sends).map fun a =>
      (a.2, [⟨a.1, n.log.currentTerm, a.2.command toBytes fromSlice n.nodeId⟩]) := by
  induction sends generalizing n with
  | nil => rfl
  | cons s rest ih =>
      obtain ⟨hvalue, hrole', hid, hterm, hlast, hentries⟩ :=
        handle_leader toBytes fromSlice hrole s
      have hrest := ih hrole'
      rw [hid, hterm, hlast] at hrest
      rw [acknowledged, numbered]
      simp only [hvalue, Option.any_some, hentries, hrest]
      by_cases hack : (sendResponse s.received).success = true
      · have hack' : s.Acknowledged := hack
        rw [if_pos hack, if_pos hack', List.map_cons]
      · have hack' : ¬ s.Acknowledged := hack
        rw [if_neg hack, if_neg hack']

end Handle

/-! ### The store -/

section Store
variable {toBytes : Json → List UInt8} {fromSlice : List UInt8 → Option Json} {nodeId : String}
  {term : Nat} {sm : StateMachine}

/-- The value of the Send is read back from its text, and not from a part of it. -/
structure Legible (toBytes : Json → List UInt8) (fromSlice : List UInt8 → Option Json)
    (nodeId : String) (s : Sending) : Prop where
  read : fromSlice (toBytes (s.value nodeId)) = some (s.value nodeId)
  cut : ∀ k, k < (toBytes (s.value nodeId)).length →
    fromSlice ((toBytes (s.value nodeId)).take k) = none

/-- The entry of a successful Send. -/
def entryOf (toBytes : Json → List UInt8) (fromSlice : List UInt8 → Option Json) (nodeId : String)
    (term : Nat) (a : Nat × Sending) : LogEntry :=
  ⟨a.1, term, a.2.command toBytes fromSlice nodeId⟩

/-- The machine after these entries. -/
def stored (toBytes : Json → List UInt8) (fromSlice : List UInt8 → Option Json) (nodeId : String)
    (term : Nat) (sm : StateMachine) (acks : List (Nat × Sending)) : StateMachine :=
  (acks.map (entryOf toBytes fromSlice nodeId term)).foldl StateMachine.apply sm

theorem stored_append (acks : List (Nat × Sending)) (a : Nat × Sending) :
    stored toBytes fromSlice nodeId term sm (acks ++ [a]) =
      (stored toBytes fromSlice nodeId term sm acks).apply
        (entryOf toBytes fromSlice nodeId term a) := by
  rw [stored, List.map_append, List.foldl_append]
  rfl

/-- What an entry stores. -/
theorem apply_entryOf (sm : StateMachine) (a : Nat × Sending) :
    sm.apply (entryOf toBytes fromSlice nodeId term a) =
      if a.1 ≤ sm.lastApplied then sm
      else ⟨sm.data.insert s!"_msg:{a.2.timestamp}" ((toBytes (a.2.value nodeId)).take 1024),
        a.1⟩ := by
  rw [StateMachine.apply]
  show (if a.1 ≤ sm.lastApplied then sm else ⟨sm.data.insert
    (HeaplessString.pushStr 256 s!"_msg:{a.2.timestamp}").asStr _, a.1⟩) = _
  rw [HeaplessString.asStr_pushStr (utf8ByteSize_key_le a.2.inRange)]
  rfl

/-- A stored message is one if its text was not cut. -/
theorem message_stored {s : Sending} (h : Legible toBytes fromSlice nodeId s) :
    message fromSlice s!"_msg:{s.timestamp}" ((toBytes (s.value nodeId)).take 1024) =
      if (toBytes (s.value nodeId)).length ≤ 1024 then some (s.timestamp, s.value nodeId)
      else none := by
  rw [message_key fromSlice (Nat.lt_of_le_of_lt s.inRange (by decide))]
  split
  · rename_i hfits
    rw [List.take_of_length_le hfits, h.read, Option.map_some]
  · rename_i hlong
    rw [h.cut 1024 (by omega), Option.map_none]

variable (toBytes fromSlice nodeId term) in
/-- The machine stands at the greatest index it had or was given. -/
theorem lastApplied_stored (sm : StateMachine) (acks : List (Nat × Sending)) :
    (stored toBytes fromSlice nodeId term sm acks).lastApplied ∈
        sm.lastApplied :: acks.map Prod.fst ∧
      ∀ i ∈ sm.lastApplied :: acks.map Prod.fst,
        i ≤ (stored toBytes fromSlice nodeId term sm acks).lastApplied := by
  induction acks using List.reverseRecOn with
  | nil =>
      refine ⟨List.mem_cons_self, fun i hi => ?_⟩
      obtain rfl := List.mem_singleton.mp hi
      exact Nat.le_refl _
  | append_singleton acks a ih =>
      obtain ⟨hmem, hle⟩ := ih
      rw [stored_append, apply_entryOf, List.map_append, ← List.cons_append]
      split
      · rename_i hbelow
        refine ⟨List.mem_append_left _ hmem, fun i hi => ?_⟩
        rcases List.mem_append.mp hi with hi | hi
        · exact hle i hi
        · obtain rfl := List.mem_singleton.mp hi
          exact hbelow
      · rename_i habove
        refine ⟨List.mem_append_right _ List.mem_cons_self, fun i hi => ?_⟩
        show i ≤ a.1
        rcases List.mem_append.mp hi with hi | hi
        · have hi := hle i hi
          omega
        · obtain rfl := List.mem_singleton.mp hi
          exact Nat.le_refl _

variable (fromSlice term) in
/-- One Send more. -/
theorem distinct_append_iff {acks : List (Nat × Sending)} {a : Nat × Sending} :
    Distinct toBytes nodeId sm.lastApplied (acks ++ [a]) ↔
      Distinct toBytes nodeId sm.lastApplied acks ∧
        a.2.timestamp ∉ acks.map (fun b => b.2.timestamp) ∧
        (toBytes (a.2.value nodeId)).length ≤ 1024 ∧
        (stored toBytes fromSlice nodeId term sm acks).lastApplied < a.1 := by
  obtain ⟨hmem, hle⟩ := lastApplied_stored toBytes fromSlice nodeId term sm acks
  have hindices : (sm.lastApplied :: (acks ++ [a]).map Prod.fst).Pairwise (· < ·) ↔
      (sm.lastApplied :: acks.map Prod.fst).Pairwise (· < ·) ∧
        (stored toBytes fromSlice nodeId term sm acks).lastApplied < a.1 := by
    rw [List.map_append, ← List.cons_append, List.pairwise_append]
    constructor
    · rintro ⟨hpairs, -, hlast⟩
      exact ⟨hpairs, hlast _ hmem _ List.mem_cons_self⟩
    · rintro ⟨hpairs, hlast⟩
      refine ⟨hpairs, List.pairwise_singleton _ _, fun i hi j hj => ?_⟩
      obtain rfl := List.mem_singleton.mp hj
      exact Nat.lt_of_le_of_lt (hle i hi) hlast
  constructor
  · rintro ⟨hnodup, hfits, hpairs⟩
    rw [List.map_append, List.nodup_append] at hnodup
    obtain ⟨hbefore, hlast⟩ := hindices.mp hpairs
    refine ⟨⟨hnodup.1, fun b hb => hfits b (List.mem_append_left _ hb), hbefore⟩, fun hmem => ?_,
      hfits a (List.mem_append_right _ List.mem_cons_self), hlast⟩
    exact hnodup.2.2 _ hmem _ List.mem_cons_self rfl
  · rintro ⟨⟨hnodup, hfits, hpairs⟩, hnew, hfit, hlast⟩
    refine ⟨?_, fun b hb => ?_, hindices.mpr ⟨hpairs, hlast⟩⟩
    · rw [List.map_append, List.nodup_append]
      refine ⟨hnodup, List.nodup_singleton _, fun t ht t' ht' heq => ?_⟩
      rw [heq, List.mem_singleton.mp ht'] at ht
      exact hnew ht
    · rcases List.mem_append.mp hb with hb | hb
      · exact hfits b hb
      · obtain rfl := List.mem_singleton.mp hb
        exact hfit

variable {acks : List (Nat × Sending)}

variable (term) in
/-- The messages of distinct Sends are all there, each under its key. Induction on the Sends. -/
theorem perm_messagesOf_stored (hclean : messagesOf fromSlice sm.data = [])
    (hlegible : ∀ a ∈ acks, Legible toBytes fromSlice nodeId a.2)
    (h : Distinct toBytes nodeId sm.lastApplied acks) :
    (messagesOf fromSlice (stored toBytes fromSlice nodeId term sm acks).data).Perm
        (acks.map fun a => (a.2.timestamp, a.2.value nodeId)) ∧
      ∀ a ∈ acks, (stored toBytes fromSlice nodeId term sm acks).data.lookup
        s!"_msg:{a.2.timestamp}" = some ((toBytes (a.2.value nodeId)).take 1024) := by
  induction acks using List.reverseRecOn with
  | nil => exact ⟨.of_eq hclean, fun a ha => absurd ha List.not_mem_nil⟩
  | append_singleton acks a ih =>
      obtain ⟨hbefore, hnew, hfits, hlast⟩ := (distinct_append_iff fromSlice term).mp h
      obtain ⟨hperm, hlookup⟩ := ih (fun b hb => hlegible b (List.mem_append_left _ hb)) hbefore
      have hmessage := message_stored (hlegible a (List.mem_append_right _ List.mem_cons_self))
      rw [if_pos hfits] at hmessage
      rw [stored_append, apply_entryOf, if_neg (Nat.not_le_of_lt hlast)]
      constructor
      · -- A message under this key would have this timestamp.
        have hfree : ((stored toBytes fromSlice nodeId term sm acks).data.lookup
            s!"_msg:{a.2.timestamp}").bind
              (message fromSlice s!"_msg:{a.2.timestamp}") = none := by
          rw [Option.bind_eq_none_iff]
          intro value hvalue
          rw [message_key fromSlice (Nat.lt_of_le_of_lt a.2.inRange (by decide)),
            Option.map_eq_none_iff]
          by_contra hread
          obtain ⟨v, hv⟩ := Option.ne_none_iff_exists'.mp hread
          refine hnew ?_
          have hmem : (a.2.timestamp, v) ∈
              messagesOf fromSlice (stored toBytes fromSlice nodeId term sm acks).data := by
            refine List.mem_filterMap.mpr ⟨_, AList.mem_lookup_iff.mp hvalue, ?_⟩
            rw [message_key fromSlice (Nat.lt_of_le_of_lt a.2.inRange (by decide)), hv,
              Option.map_some]
          obtain ⟨b, hb, heq⟩ := List.mem_map.mp (hperm.subset hmem)
          exact List.mem_map.mpr ⟨b, hb, congrArg Prod.fst heq⟩
        refine (perm_messagesOf_insert hfree _).trans ?_
        rw [hmessage, List.map_append]
        exact (hperm.cons _).trans (List.perm_append_singleton _ _).symm
      · intro b hb
        rcases List.mem_append.mp hb with hb | hb
        · have hother : s!"_msg:{b.2.timestamp}" ≠ s!"_msg:{a.2.timestamp}" := by
            intro heq
            have hdigits := congrArg String.toList heq
            rw [toList_key, toList_key] at hdigits
            have hsame := congrArg (Nat.ofDigitChars 10 · 0) (List.append_cancel_left hdigits)
            simp only [Nat.ofDigitChars_ten_toDigits] at hsame
            exact hnew (List.mem_map.mpr ⟨b, hb, hsame⟩)
          exact (AList.lookup_insert_ne hother).trans (hlookup b hb)
        · obtain rfl := List.mem_singleton.mp hb
          exact AList.lookup_insert _

variable (term) in
/-- There are no more messages than Sends, and as many only if the Sends are distinct. -/
theorem length_messagesOf_stored (hclean : messagesOf fromSlice sm.data = [])
    (hlegible : ∀ a ∈ acks, Legible toBytes fromSlice nodeId a.2) :
    (messagesOf fromSlice (stored toBytes fromSlice nodeId term sm acks).data).length ≤
        acks.length ∧
      ((messagesOf fromSlice (stored toBytes fromSlice nodeId term sm acks).data).length =
        acks.length → Distinct toBytes nodeId sm.lastApplied acks) := by
  induction acks using List.reverseRecOn with
  | nil =>
      refine ⟨Nat.le_of_eq (congrArg List.length hclean), fun _ => ⟨List.nodup_nil, ?_, ?_⟩⟩
      · exact fun a ha => absurd ha List.not_mem_nil
      · exact List.pairwise_singleton _ _
  | append_singleton acks a ih =>
      have hbefore : ∀ b ∈ acks, Legible toBytes fromSlice nodeId b.2 :=
        fun b hb => hlegible b (List.mem_append_left _ hb)
      obtain ⟨hle, hdistinct⟩ := ih hbefore
      rw [stored_append, apply_entryOf, List.length_append, List.length_singleton]
      split
      · constructor
        · exact Nat.le_succ_of_le hle
        · intro heq
          omega
      · rename_i habove
        obtain ⟨hmost, hgrows⟩ := length_messagesOf_insert fromSlice
          (stored toBytes fromSlice nodeId term sm acks).data s!"_msg:{a.2.timestamp}"
          ((toBytes (a.2.value nodeId)).take 1024)
        constructor
        · exact Nat.le_trans hmost (Nat.succ_le_succ hle)
        · intro heq
          have heq : (messagesOf fromSlice
            ((stored toBytes fromSlice nodeId term sm acks).data.insert
              s!"_msg:{a.2.timestamp}" ((toBytes (a.2.value nodeId)).take 1024))).length =
                acks.length + 1 := heq
          -- Every Send before this one added a message, and so did this one.
          have hall : Distinct toBytes nodeId sm.lastApplied acks := hdistinct (by omega)
          obtain ⟨hsome, hfree⟩ := hgrows (by omega)
          have hmessage := message_stored (hlegible a (List.mem_append_right _ List.mem_cons_self))
          rw [hmessage] at hsome
          refine (distinct_append_iff fromSlice term).mpr
            ⟨hall, fun hmem => ?_, ?_, Nat.lt_of_not_le habove⟩
          · obtain ⟨b, hb, hsame⟩ := List.mem_map.mp hmem
            have hlookup := (perm_messagesOf_stored term hclean hbefore hall).2 b hb
            have hthere := message_stored (hbefore b hb)
            rw [if_pos (hall.fits b hb)] at hthere
            have hsame : b.2.timestamp = a.2.timestamp := hsame
            rw [← hsame, hlookup, Option.bind_some, hthere] at hfree
            cases hfree
          · by_contra hlong
            rw [if_neg hlong] at hsome
            cases hsome

end Store

section Leader
variable {toBytes : Json → List UInt8} {fromSlice : List UInt8 → Option Json} {n : RaftNode}
  {sm : StateMachine} {sends : List Sending}

theorem mem_of_mem_numbered {sends : List Sending} {last : Nat} {a : Nat × Sending}
    (h : a ∈ numbered last sends) : a.2 ∈ sends := by
  induction sends generalizing last with
  | nil => exact absurd h List.not_mem_nil
  | cons s rest ih =>
      rw [numbered] at h
      split at h
      · rcases List.mem_cons.mp h with rfl | h
        · exact List.mem_cons_self
        · exact List.mem_cons_of_mem _ (ih h)
      · exact List.mem_cons_of_mem _ (ih h)

/-- At a Leader: the machine with the entries of the successful Sends shows as many values as there
are such Sends, and theirs. -/
theorem nothingLost_iff_stored (hrole : n.role = .leader) :
    NothingLost toBytes fromSlice n sm sends ↔
      ∀ limit, (numbered n.log.lastIndex sends).length ≤ limit →
        (Lib.top limit (messagesOf fromSlice (stored toBytes fromSlice n.nodeId n.log.currentTerm sm
          (numbered n.log.lastIndex sends)).data)).Perm
            ((numbered n.log.lastIndex sends).map fun a => a.2.value n.nodeId) := by
  have hentries : ((acknowledged toBytes fromSlice n sends).flatMap Prod.snd).foldl
      StateMachine.apply sm =
        stored toBytes fromSlice n.nodeId n.log.currentTerm sm
          (numbered n.log.lastIndex sends) := by
    rw [acknowledged_eq hrole, List.flatMap_map, stored]
    exact congrArg (List.foldl StateMachine.apply sm) (List.flatMap_pure_eq_map _ _)
  have hvalues : (acknowledged toBytes fromSlice n sends).map (fun a => a.1.value n.nodeId) =
      (numbered n.log.lastIndex sends).map fun a => a.2.value n.nodeId := by
    rw [acknowledged_eq hrole, List.map_map]
    rfl
  have hlength : (acknowledged toBytes fromSlice n sends).length =
      (numbered n.log.lastIndex sends).length := by
    rw [acknowledged_eq hrole, List.length_map]
  rw [NothingLost]
  simp only [hentries, hvalues, hlength, getMessages_eq_top]

/-- A limit that cuts nothing off shows how many messages there are. -/
theorem distinct_of_nothingLost (hrole : n.role = .leader)
    (hclean : messagesOf fromSlice sm.data = [])
    (hlegible : ∀ s ∈ sends, Legible toBytes fromSlice n.nodeId s)
    (h : NothingLost toBytes fromSlice n sm sends) :
    Distinct toBytes n.nodeId sm.lastApplied (numbered n.log.lastIndex sends) := by
  obtain ⟨hle, hdistinct⟩ := length_messagesOf_stored n.log.currentTerm hclean
    fun a (ha : a ∈ numbered n.log.lastIndex sends) => hlegible a.2 (mem_of_mem_numbered ha)
  have hcount := ((nothingLost_iff_stored hrole).mp h _ (Nat.le_refl _)).length_eq
  rw [Lib.length_top, List.length_map, Nat.min_eq_right hle] at hcount
  exact hdistinct hcount

end Leader

/-! ### Two Sends -/

/-- The text of the value of a Send. -/
def jsonText : Json → List UInt8
  | .obj [("from", .str sender), ("message", .str text), ("timestamp", .num t)] =>
      Wire.obj [("from", Wire.str sender), ("message", Wire.str text), ("timestamp", Wire.num t)]
  | _ => []

/-- Reads these two values and nothing else. -/
def readTwo (v w : Json) (bytes : List UInt8) : Option Json :=
  if bytes = jsonText v then some v else if bytes = jsonText w then some w else none

/-- Texts of one length are no parts of each other. -/
theorem legible_readTwo (nodeId : String) (s s' : Sending)
    (hlength : (jsonText (s.value nodeId)).length = (jsonText (s'.value nodeId)).length)
    (hne : jsonText (s'.value nodeId) ≠ jsonText (s.value nodeId)) :
    ∀ r ∈ [s, s'], Legible jsonText (readTwo (s.value nodeId) (s'.value nodeId)) nodeId r := by
  have hshort : ∀ (bytes : List UInt8) (k : Nat), k < (jsonText (s.value nodeId)).length →
      readTwo (s.value nodeId) (s'.value nodeId) (bytes.take k) = none := by
    intro bytes k hk
    have hlt : (bytes.take k).length < (jsonText (s.value nodeId)).length :=
      Nat.lt_of_le_of_lt (List.length_take_le k bytes) hk
    rw [readTwo, if_neg, if_neg]
    · intro heq
      rw [heq] at hlt
      omega
    · intro heq
      rw [heq] at hlt
      omega
  intro r hr
  rcases List.mem_cons.mp hr with rfl | hr
  · exact ⟨if_pos rfl, fun k hk => hshort _ k hk⟩
  · obtain rfl := List.mem_singleton.mp hr
    refine ⟨?_, fun k hk => hshort _ k (by omega)⟩
    rw [readTwo, if_neg hne, if_pos rfl]

/-- A Send in millisecond 5, which commits at index 1. -/
def sentFirst : Sending := ⟨"a", 0, 5, by decide, .result (.success 1)⟩

/-- One in the same millisecond, which commits at index 2. -/
def sentTogether : Sending := ⟨"b", 1, 5, by decide, .result (.success 2)⟩

/-- The same one millisecond later. -/
def sentLater : Sending := ⟨"b", 1, 6, by decide, .result (.success 2)⟩

end Ipc

end RaftEbpf
