import RaftEbpf.Interleaving
import RaftEbpf.Ipc
import RaftEbpf.Proofs.NodeRun
import RaftEbpf.Proofs.Reload

/-!
# `RaftEbpf.Proofs.ReadBack`: what a client stores and reads

The key of a proposal goes into 256 bytes and its value into 1024. A longer key is dropped whole
and a longer value is cut, and the client is told of neither.

* `readsBack_iff`: a proposal reported as a success is read back, and no other key changes,
  exactly where key and value fit.
* `not_readsBack`: the value of a key of 257 bytes is stored under the empty key.
-/

set_option autoImplicit false

namespace RaftEbpf.Ipc

open RaftEbpf.Lib (HashMap Prog)
open RaftEbpf.Lib.Utf8 (bytes fromLossy replacement fromLossy_bytes fromLossy_take_eq_iff
  length_bytes)
open RaftNode

/-- The data of the response to `Get { key }`. -/
def answer (env : Surroundings) (n : RaftNode) (key : String) : Option Json :=
  ((processRequest env 0 (.get key)).run [] n).value.bind (·.data)

/-- The data of a response that this is the value of the key. -/
def found (key : String) (value : Option String) : Json :=
  .obj [("key", .str key), ("value", .ofOption value)]

/-- If the response to `Propose { key, value }` is a success, then at every node that has applied
the log up to the new entry, and now the entry, as appended or as loaded from disk: `Get { key }`
finds the value, and `Get` finds the same as before for every other key. -/
def ReadsBack (n : RaftNode) (env : Surroundings) (tx : Sender) (key : String)
    (value : Option String) : Prop :=
  let r := (processRequest env tx (.propose key value)).run [] n
  ∀ response, r.value = some response → response.success = true →
    ∀ entry, .appended tx entry ∈ r.out →
      ∀ e, e = entry ∨ e = RaftLog.diskEntryToLogEntry (RaftLog.entryToDisk entry) →
        ∀ m : RaftNode, m.stateMachine.lastApplied ≤ n.log.lastIndex →
          let m' := { m with stateMachine := m.stateMachine.apply e }
          answer env m' key = some (found key value) ∧
            ∀ k, k ≠ key → answer env m' k = answer env m k

/-- The node is Leader, and the client is told of a success. -/
def Reported (n : RaftNode) (env : Surroundings) : Prop :=
  n.role = .leader ∧ ∃ index, env.received = .result (.success index)

/-- The key fits, and the value fits, or what is cut off it is the end of a replacement character
at its end. -/
def Fits (key : String) (value : Option String) : Prop :=
  key.utf8ByteSize ≤ 256 ∧ ∀ v ∈ value, v.utf8ByteSize ≤ 1024 ∨
    ∃ p, v = p ++ String.singleton replacement ∧ p.utf8ByteSize < 1024

/-! ### One entry -/

/-- The text that a state machine has under a key. -/
def text (sm : StateMachine) (key : String) : Option String := (sm.get key).map fromLossy

theorem answer_eq (env : Surroundings) (n : RaftNode) (key : String) :
    answer env n key = some (found key (text n.stateMachine key)) := rfl

theorem found_inj {key : String} {value value' : Option String} :
    found key value = found key value' ↔ value = value' := by
  refine ⟨fun h => ?_, fun h => h ▸ rfl⟩
  have hvalue : Json.ofOption value = Json.ofOption value' := by
    simpa [found] using h
  cases value with
  | none =>
      cases value' with
      | none => rfl
      | some v' => cases hvalue
  | some v =>
      cases value' with
      | none => cases hvalue
      | some v' => exact congrArg some (Json.str.inj hvalue)

/-- The key that a proposed command writes. -/
def writtenKey (key : String) : String := (HeaplessString.pushStr 256 key).asStr

/-- The text that a proposed command leaves under its key. -/
def writtenText (value : Option String) : Option String :=
  value.map fun v => fromLossy ((bytes v).take 1024)

section Entry
variable {sm : StateMachine} {index term : Nat} {key : String} {value : Option String}

/-- An entry that is new to the state machine changes what is under the key it writes. -/
theorem text_apply (hnew : sm.lastApplied < index) (k : String) :
    text (sm.apply ⟨index, term, proposedCommand key value⟩) k =
      if k = writtenKey key then writtenText value else text sm k := by
  have hle : ¬ index ≤ sm.lastApplied := Nat.not_le.mpr hnew
  cases value with
  | some v =>
      simp only [text, StateMachine.get, StateMachine.apply, if_neg hle, proposedCommand]
      split
      · rename_i hk
        subst hk
        rw [writtenKey, AList.lookup_insert]
        rfl
      · rename_i hk
        rw [writtenKey] at hk
        rw [AList.lookup_insert_ne hk]
  | none =>
      simp only [text, StateMachine.get, StateMachine.apply, if_neg hle, proposedCommand]
      split
      · rename_i hk
        subst hk
        rw [writtenKey, AList.lookup_erase]
        rfl
      · rename_i hk
        rw [writtenKey] at hk
        rw [AList.lookup_erase_ne hk]

/-- Any other entry changes nothing. -/
theorem text_apply_old (hold : index ≤ sm.lastApplied) (k : String) :
    text (sm.apply ⟨index, term, proposedCommand key value⟩) k = text sm k := by
  rw [StateMachine.apply, if_pos hold]

end Entry

/-- A state machine that has something else than the value under the key. -/
def otherwise (key : String) (value : Option String) (lastApplied : Nat) : StateMachine where
  data := if value = none then (∅ : HashMap String (List UInt8)).insert key [] else ∅
  lastApplied := lastApplied

theorem text_otherwise (key : String) (value : Option String) (lastApplied : Nat) :
    text (otherwise key value lastApplied) key ≠ value := by
  cases value with
  | none =>
      show ((AList.lookup key ((∅ : HashMap String (List UInt8)).insert key [])).map fromLossy) ≠
        none
      rw [AList.lookup_insert]
      nofun
  | some v => simp [text, otherwise, StateMachine.get]

/-- The text left under the key is the value where the value fits. -/
theorem writtenText_eq_iff (value : Option String) : writtenText value = value ↔
    ∀ v ∈ value, v.utf8ByteSize ≤ 1024 ∨
      ∃ p, v = p ++ String.singleton replacement ∧ p.utf8ByteSize < 1024 := by
  cases value with
  | none => simp [writtenText]
  | some v => simp [writtenText, fromLossy_take_eq_iff]

/-- The entry of a proposal is read back by every machine that has applied the log below it,
exactly where the index does not wrap, and key and value fit. -/
theorem text_apply_iff (lastIndex term : Nat) (key : String) (value : Option String) :
    (∀ sm : StateMachine, sm.lastApplied ≤ lastIndex →
      let sm' := sm.apply ⟨addOne lastIndex, term, proposedCommand key value⟩
      text sm' key = value ∧ ∀ k, k ≠ key → text sm' k = text sm k) ↔
    lastIndex < u64Max ∧ Fits key value := by
  constructor
  · intro h
    have hshort : lastIndex < u64Max := by
      -- At the end the index wraps, and the entry counts as applied.
      by_contra hmax
      have hold : addOne lastIndex ≤ (otherwise key value lastIndex).lastApplied := by
        show addOne lastIndex ≤ lastIndex
        unfold u64Max at hmax
        unfold addOne
        omega
      have hread := (h (otherwise key value lastIndex) (Nat.le_refl _)).1
      rw [text_apply_old hold] at hread
      exact text_otherwise key value lastIndex hread
    have hnew : (otherwise key value 0).lastApplied < addOne lastIndex := by
      rw [addOne_of_lt hshort]
      exact Nat.succ_pos _
    have hread := (h (otherwise key value 0) (Nat.zero_le _)).1
    rw [text_apply hnew] at hread
    by_cases hkey : key.utf8ByteSize ≤ 256
    · have hwritten : writtenKey key = key := HeaplessString.asStr_pushStr hkey
      rw [if_pos hwritten.symm] at hread
      exact ⟨hshort, hkey, (writtenText_eq_iff value).mp hread⟩
    · have hwritten : key ≠ writtenKey key := by
        intro heq
        have hlost : writtenKey key = "" := by
          rw [writtenKey, HeaplessString.pushStr, dif_neg hkey]
        rw [hlost] at heq
        rw [heq] at hkey
        exact hkey (Nat.zero_le _)
      rw [if_neg hwritten] at hread
      exact absurd hread (text_otherwise key value 0)
  · rintro ⟨hshort, hkey, hvalue⟩ sm hsm
    have hnew : sm.lastApplied < addOne lastIndex := by
      rw [addOne_of_lt hshort]
      exact Nat.lt_succ_of_le hsm
    have hwritten : writtenKey key = key := HeaplessString.asStr_pushStr hkey
    refine ⟨?_, fun k hk => ?_⟩
    · rw [text_apply hnew, if_pos hwritten.symm]
      exact (writtenText_eq_iff value).mpr hvalue
    · rw [text_apply hnew, hwritten, if_neg hk]

/-! ### The request -/

/-- A proposal appends one entry at a Leader, and none elsewhere. -/
theorem appended_processRequest {n : RaftNode} {env : Surroundings} {tx : Sender} {key : String}
    {value : Option String} {entry : LogEntry} :
    .appended tx entry ∈ ((processRequest env tx (.propose key value)).run [] n).out ↔
      n.role = .leader ∧ entry = ⟨addOne n.log.lastIndex, n.log.currentTerm,
        proposedCommand key value⟩ := by
  simp only [processRequest, Prog.run_bind, run_propose]
  split
  · rename_i hrole
    simp only [Prog.Result.andThen_some, Prog.run_pure, List.append_nil, List.mem_cons]
    constructor
    · rintro (heq | hmem)
      · exact ⟨hrole, (Output.appended.inj heq).2⟩
      · obtain ⟨env', henv'⟩ := exists_send_of_mem_heartbeats hmem
        cases henv'
    · rintro ⟨-, rfl⟩
      exact Or.inl rfl
  · rename_i hrole
    simp [hrole]

/-- The response is the one to what the channel had. -/
theorem value_processRequest (n : RaftNode) (env : Surroundings) (tx : Sender) (key : String)
    (value : Option String) : ((processRequest env tx (.propose key value)).run [] n).value =
      some (proposeResponse env.received) := by
  simp only [processRequest, Prog.run_bind, run_propose]
  split <;> rfl

theorem success_proposeResponse (received : Received) : (proposeResponse received).success = true ↔
    ∃ index, received = .result (.success index) := by
  cases received with
  | result r => cases r <;> simp [proposeResponse]
  | closed => simp [proposeResponse]
  | elapsed => simp [proposeResponse]

/-- A proposal is read back where a reported entry is, by every machine below it. -/
theorem readsBack_iff_text (n : RaftNode) (env : Surroundings) (tx : Sender) (key : String)
    (value : Option String) : ReadsBack n env tx key value ↔
      (Reported n env → ∀ sm : StateMachine, sm.lastApplied ≤ n.log.lastIndex →
        let sm' := sm.apply ⟨addOne n.log.lastIndex, n.log.currentTerm, proposedCommand key value⟩
        text sm' key = value ∧ ∀ k, k ≠ key → text sm' k = text sm k) := by
  simp only [ReadsBack, value_processRequest, Option.some.injEq, forall_eq',
    appended_processRequest,
    success_proposeResponse, RaftLog.diskEntryToLogEntry_entryToDisk, or_self, forall_eq, answer_eq,
    found_inj]
  constructor
  · rintro h ⟨hrole, hreceived⟩ sm hsm
    exact h hreceived _ ⟨hrole, rfl⟩ { n with stateMachine := sm } hsm
  · rintro h hreceived entry ⟨hrole, rfl⟩ m hm
    exact h ⟨hrole, hreceived⟩ m.stateMachine hm

/-- For every node state, request and outcome: the proposal is read back if and only if it is not
reported as a success, or the index does not wrap, and key and value fit. -/
theorem readsBack_iff (n : RaftNode) (env : Surroundings) (tx : Sender) (key : String)
    (value : Option String) : ReadsBack n env tx key value ↔
      (Reported n env → n.log.lastIndex < u64Max ∧ Fits key value) := by
  rw [readsBack_iff_text, text_apply_iff]

/-- The Leader of a cluster of three. -/
def electedNode : RaftNode :=
  ((handleRequestVoteResponse "B" ⟨1, true, .pushStr 64 "B"⟩).run []
    (startElection.run [] bootedNode).state).state

/-- A key of 257 bytes. -/
def longKey : String := String.ofList (List.replicate 257 'k')

/-- A success is reported for a key of 257 bytes, and its value is not found under it. -/
theorem not_readsBack : ¬ ∀ (n : RaftNode) (env : Surroundings) (tx : Sender) (key : String)
    (value : Option String), ReadsBack n env tx key value := by
  intro h
  have hrole : electedNode.role = .leader := by decide +kernel
  have hread := (readsBack_iff_text electedNode
    ⟨0, .result (.success 1), fun _ => [], fun _ => none⟩ 0 longKey (some "v")).mp (h _ _ _ _ _) ⟨hrole, 1, rfl⟩
  obtain ⟨-, hkey, -⟩ := (text_apply_iff _ _ _ _).mp hread
  revert hkey
  decide +kernel

end RaftEbpf.Ipc
