import Mathlib.Data.Nat.Digits.Defs
import Mathlib.Tactic.IntervalCases
import RaftEbpf.Proofs.Recovery

/-!
# `RaftEbpf.Proofs.JsonText`: an encoding that meets the assumptions

`Serde` leaves the encodings of `serde_json` open, and the results about the files assume
five properties of them. `jsonSerde` is an encoding that has all five (`lawful_jsonSerde`,
`rejectsTorn_jsonSerde`). On strings of letters and digits it writes the bytes that
`serde_json` writes: a compact object for a line of `log.jsonl`, a pretty-printed one for
`state.json`. Any other byte of a string is escaped, so that braces and line breaks only
stand where an object begins and ends.

With it the theorems of `RaftEbpf.Proofs.Reload` and `RaftEbpf.Proofs.Recovery` speak about
concrete files, and `not_recovers` is a crash that no later start survives.
-/

set_option autoImplicit false

namespace RaftEbpf.JsonText

open RaftEbpf.Lib (Bytes Format)
open RaftEbpf.Lib.Journal

/-- The bytes of an ASCII text. -/
def ascii (s : String) : Bytes := s.toList.map fun c => UInt8.ofNat c.toNat

/-- Strip a fixed text. -/
def expect : Bytes → Bytes → Option Bytes
  | [], t => some t
  | _ :: _, [] => none
  | b :: lit, c :: t => if b = c then expect lit t else none

theorem expect_append (lit t : Bytes) : expect lit (lit ++ t) = some t := by
  induction lit with
  | nil => rfl
  | cons b lit ih => rw [List.cons_append, expect, if_pos rfl, ih]

/-- A byte that no part of an object holds: a brace or a line break. -/
def Inner (t : Bytes) : Prop := ∀ b ∈ t, b ≠ 123 ∧ b ≠ 125 ∧ b ≠ 10 ∧ b ≠ 13

instance (t : Bytes) : Decidable (Inner t) := List.decidableBAll _ t

theorem Inner.append {t t' : Bytes} (h : Inner t) (h' : Inner t') : Inner (t ++ t') :=
  fun b hb => (List.mem_append.mp hb).elim (h b) (h' b)

/-- What holds of the 256 bytes. -/
theorem forall_byte (P : UInt8 → Prop) (h : ∀ x : Fin 256, P (UInt8.ofNat x)) (b : UInt8) :
    P b := by
  have hb := h b.toFin
  simpa using hb

/-! ### Numbers -/

/-- The decimal digits of a number. -/
def decimal (n : Nat) : Bytes :=
  if n = 0 then [48] else (Nat.digits 10 n).reverse.map fun d => UInt8.ofNat (48 + d)

def isDigit (b : UInt8) : Bool := 48 ≤ b && b ≤ 57

/-- Read digits behind those that make `cur`. -/
def readNumber (cur : Nat) : Bytes → Nat × Bytes
  | [] => (cur, [])
  | b :: t => if isDigit b then readNumber (cur * 10 + (b.toNat - 48)) t else (cur, b :: t)

/-- A digit as a byte. -/
theorem digit_byte {d : Nat} (hd : d < 10) :
    isDigit (UInt8.ofNat (48 + d)) = true ∧ (UInt8.ofNat (48 + d)).toNat - 48 = d := by
  interval_cases d <;> decide

theorem readNumber_digits {ds : List Nat} (hds : ∀ d ∈ ds, d < 10) (cur : Nat) (t : Bytes) :
    readNumber cur (ds.map (fun d => UInt8.ofNat (48 + d)) ++ t)
      = readNumber (ds.foldl (fun cur d => cur * 10 + d) cur) t := by
  induction ds generalizing cur with
  | nil => rfl
  | cons d ds ih =>
      obtain ⟨hdigit, hval⟩ := digit_byte (hds d List.mem_cons_self)
      rw [List.map_cons, List.cons_append, readNumber, if_pos hdigit, hval,
        ih fun d' hd' => hds d' (List.mem_cons_of_mem _ hd')]
      rfl

/-- A number reads back in front of a byte that is no digit. -/
theorem readNumber_decimal (n : Nat) {b : UInt8} (hb : isDigit b = false) (t : Bytes) :
    readNumber 0 (decimal n ++ b :: t) = (n, b :: t) := by
  have hstop : ∀ cur, readNumber cur (b :: t) = (cur, b :: t) := by
    intro cur
    rw [readNumber, hb]
    rfl
  by_cases hn : n = 0
  · subst hn
    show readNumber 0 ([0].map (fun d => UInt8.ofNat (48 + d)) ++ b :: t) = _
    rw [readNumber_digits (by simp), hstop]
    rfl
  · have hds : ∀ d ∈ (Nat.digits 10 n).reverse, d < 10 := fun d hd =>
      Nat.digits_lt_base (by decide) (List.mem_reverse.mp hd)
    have hfold : (Nat.digits 10 n).foldr (fun d cur => cur * 10 + d) 0 = n := by
      have h := Nat.ofDigits_digits 10 n
      rw [Nat.ofDigits_eq_foldr] at h
      simpa [Nat.mul_comm, Nat.add_comm] using h
    rw [decimal, if_neg hn, readNumber_digits hds, hstop, List.foldl_reverse, hfold]

/-- The bytes of a number are digits. -/
theorem exists_digit_of_mem_decimal {n : Nat} {b : UInt8} (hb : b ∈ decimal n) :
    ∃ d < 10, b = UInt8.ofNat (48 + d) := by
  unfold decimal at hb
  split at hb
  · exact ⟨0, by decide, List.mem_singleton.mp hb⟩
  · obtain ⟨d, hd, rfl⟩ := List.mem_map.mp hb
    exact ⟨d, Nat.digits_lt_base (by decide) (List.mem_reverse.mp hd), rfl⟩

theorem inner_decimal (n : Nat) : Inner (decimal n) := by
  intro b hb
  obtain ⟨d, hd, rfl⟩ := exists_digit_of_mem_decimal hb
  interval_cases d <;> decide

/-- The first byte of a number is a digit. -/
theorem decimal_ne_nil (n : Nat) : decimal n ≠ [] := by
  unfold decimal
  split
  · simp
  · rename_i hn
    simpa [Nat.digits_ne_nil_iff_ne_zero] using hn

/-! ### Strings -/

/-- Letters and digits stand for themselves. -/
def plain (b : UInt8) : Bool := isDigit b || (65 ≤ b && b ≤ 90) || (97 ≤ b && b ≤ 122)

/-- Any other byte is a backslash and two letters. -/
def escape (b : UInt8) : Bytes := if plain b then [b] else [92, 65 + b / 16, 65 + b % 16]

/-- A string in quotes. -/
def quoted (s : String) : Bytes := 34 :: (s.toByteArray.data.toList.flatMap escape ++ [34])

example : quoted "n_1" = ascii "\"n\\FP1\"" := by decide +kernel

/-- Read up to the closing quote. -/
def readChars : Bytes → Bytes × Bytes
  | [] => ([], [])
  | b :: t =>
      if b = 34 then ([], t)
      else if b = 92 then
        match t with
        | hi :: lo :: t' =>
            let r := readChars t'
            (((hi - 65) * 16 + (lo - 65)) :: r.1, r.2)
        | _ => ([], [])
      else
        let r := readChars t
        (b :: r.1, r.2)

/-- Read a string in quotes. -/
def readString : Bytes → Option (String × Bytes)
  | [] => none
  | b :: t =>
      if b = 34 then
        (String.fromUTF8? ⟨(readChars t).1.toArray⟩).map fun s => (s, (readChars t).2)
      else none

theorem plain_ne : ∀ b : UInt8, plain b = true → b ≠ 34 ∧ b ≠ 92 :=
  forall_byte _ (by decide +kernel)

theorem unescape : ∀ b : UInt8, (65 + b / 16 - 65) * 16 + (65 + b % 16 - 65) = b :=
  forall_byte _ (by decide +kernel)

/-- The closing quote ends the string. -/
theorem readChars_quote (t : Bytes) : readChars (34 :: t) = ([], t) := by
  rcases t with _ | ⟨hi, _ | ⟨lo, t⟩⟩ <;> simp [readChars]

theorem readChars_plain {b : UInt8} (h34 : b ≠ 34) (h92 : b ≠ 92) (t : Bytes) :
    readChars (b :: t) = (b :: (readChars t).1, (readChars t).2) := by
  rcases t with _ | ⟨hi, _ | ⟨lo, t⟩⟩ <;> simp [readChars, h34, h92]

theorem readChars_escaped (hi lo : UInt8) (t : Bytes) :
    readChars (92 :: hi :: lo :: t)
      = (((hi - 65) * 16 + (lo - 65)) :: (readChars t).1, (readChars t).2) := by
  simp [readChars]

theorem readChars_escape (bytes t : Bytes) :
    readChars (bytes.flatMap escape ++ 34 :: t) = (bytes, t) := by
  induction bytes with
  | nil => exact readChars_quote t
  | cons b bytes ih =>
      rw [List.flatMap_cons, List.append_assoc, escape]
      split
      · rename_i hb
        obtain ⟨h1, h2⟩ := plain_ne b hb
        rw [List.singleton_append, readChars_plain h1 h2, ih]
      · rw [List.cons_append, List.cons_append, List.singleton_append, readChars_escaped, ih,
          unescape]

/-- A string reads back. -/
theorem readString_quoted (s : String) (t : Bytes) :
    readString (quoted s ++ t) = some (s, t) := by
  have hbytes : (⟨s.toByteArray.data.toList.toArray⟩ : ByteArray) = s.toByteArray := by simp
  have hutf : String.fromUTF8? s.toByteArray = some s := by
    rw [String.fromUTF8?, dif_pos s.isValidUTF8]
    rfl
  rw [quoted, List.cons_append, List.append_assoc, List.singleton_append, readString, if_pos rfl,
    readChars_escape, hbytes, hutf]
  rfl

theorem inner_escape : ∀ b : UInt8, Inner (escape b) := forall_byte _ (by decide +kernel)

theorem inner_quoted (s : String) : Inner (quoted s) := by
  intro b hb
  rcases List.mem_cons.mp hb with rfl | hb
  · decide
  · rcases List.mem_append.mp hb with hb | hb
    · obtain ⟨c, -, hc⟩ := List.mem_flatMap.mp hb
      exact inner_escape c b hc
    · obtain rfl := List.mem_singleton.mp hb
      decide

/-! ### Values that may be absent, and arrays -/

/-- `null`, or the value. -/
def optional {α : Type} (write : α → Bytes) : Option α → Bytes
  | none => ascii "null"
  | some a => write a

/-- Read `null` or a value. -/
def readOptional {α : Type} (read : Bytes → Option (α × Bytes)) (t : Bytes) :
    Option (Option α × Bytes) :=
  match expect (ascii "null") t with
  | some t' => some (none, t')
  | none => (read t).map fun r => (some r.1, r.2)

/-- The elements behind the first one, with the closing bracket. -/
def more : List UInt8 → Bytes
  | [] => [93]
  | b :: bs => 44 :: (decimal b.toNat ++ more bs)

/-- An array of bytes. -/
def array : List UInt8 → Bytes
  | [] => [91, 93]
  | b :: bs => 91 :: (decimal b.toNat ++ more bs)

/-- Read the elements behind the first one, at most `fuel` of them. -/
def readMore : (fuel : Nat) → Bytes → Option (List UInt8 × Bytes)
  | 0, _ => none
  | _ + 1, [] => none
  | fuel + 1, b :: t =>
      if b = 93 then some ([], t)
      else
        let r := readNumber 0 t
        (readMore fuel r.2).map fun r' => (UInt8.ofNat r.1 :: r'.1, r'.2)

/-- Read an array. -/
def readArray : Bytes → Option (List UInt8 × Bytes)
  | b :: c :: t =>
      if b = 91 then
        if c = 93 then some ([], t)
        else
          let r := readNumber 0 (c :: t)
          (readMore r.2.length r.2).map fun r' => (UInt8.ofNat r.1 :: r'.1, r'.2)
      else none
  | _ => none

/-- Behind an element stands no digit, so its number reads back. -/
theorem readNumber_more (n : Nat) (bs : List UInt8) (t : Bytes) :
    readNumber 0 (decimal n ++ (more bs ++ t)) = (n, more bs ++ t) := by
  cases bs with
  | nil => exact readNumber_decimal n (by decide) t
  | cons b bs => exact readNumber_decimal n (by decide) _

theorem readMore_more (bs : List UInt8) {fuel : Nat} (hfuel : bs.length < fuel) (t : Bytes) :
    readMore fuel (more bs ++ t) = some (bs, t) := by
  induction bs generalizing fuel with
  | nil =>
      obtain ⟨fuel, rfl⟩ : ∃ f, fuel = f + 1 := ⟨fuel - 1, by omega⟩
      rfl
  | cons b bs ih =>
      obtain ⟨fuel, rfl⟩ : ∃ f, fuel = f + 1 := ⟨fuel - 1, by omega⟩
      rw [List.length_cons] at hfuel
      rw [more, List.cons_append, List.append_assoc, readMore, if_neg (by decide)]
      simp only [readNumber_more, ih (by omega : bs.length < fuel), Option.map_some,
        UInt8.ofNat_toNat]

theorem length_more (bs : List UInt8) : bs.length < (more bs).length := by
  induction bs with
  | nil => decide
  | cons b bs ih =>
      rw [more, List.length_cons, List.length_cons, List.length_append]
      omega

/-- The first byte of a number is not the closing bracket. -/
theorem exists_decimal_eq_cons (b : UInt8) : ∃ c r, c ≠ 93 ∧ decimal b.toNat = c :: r := by
  cases hb : decimal b.toNat with
  | nil => exact absurd hb (decimal_ne_nil _)
  | cons c r =>
      have hmem : c ∈ decimal b.toNat := by
        rw [hb]
        exact List.mem_cons_self
      obtain ⟨d, hd, rfl⟩ := exists_digit_of_mem_decimal hmem
      refine ⟨_, r, ?_, rfl⟩
      interval_cases d <;> decide

/-- An array reads back. -/
theorem readArray_array (bs : List UInt8) (t : Bytes) :
    readArray (array bs ++ t) = some (bs, t) := by
  cases bs with
  | nil => rfl
  | cons b bs =>
      have hnumber := readNumber_more b.toNat bs t
      have hfuel : bs.length < (more bs ++ t).length := (length_more bs).trans_le (by simp)
      have hmore := readMore_more bs hfuel t
      obtain ⟨c, r, hc, hd⟩ := exists_decimal_eq_cons b
      rw [array, List.cons_append, List.append_assoc]
      rw [hd, List.cons_append] at hnumber ⊢
      rw [readArray, if_pos rfl, if_neg hc]
      simp only [hnumber, hmore, Option.map_some, UInt8.ofNat_toNat]

theorem inner_more (bs : List UInt8) : Inner (more bs) := by
  induction bs with
  | nil => decide
  | cons b bs ih =>
      have hcomma : Inner [44] := by decide
      exact hcomma.append ((inner_decimal _).append ih)

theorem inner_array (bs : List UInt8) : Inner (array bs) := by
  cases bs with
  | nil => decide
  | cons b bs =>
      have hopen : Inner [91] := by decide
      exact hopen.append ((inner_decimal _).append (inner_more bs))

/-- An absent or a present value reads back, where no value begins as `null` does. -/
theorem readOptional_optional {α : Type} {write : α → Bytes}
    {read : Bytes → Option (α × Bytes)} (hread : ∀ a t, read (write a ++ t) = some (a, t))
    (hnull : ∀ a t, expect (ascii "null") (write a ++ t) = none) (v : Option α) (t : Bytes) :
    readOptional read (optional write v ++ t) = some (v, t) := by
  cases v with
  | none =>
      show readOptional read (ascii "null" ++ t) = _
      rw [readOptional, expect_append]
  | some a =>
      show readOptional read (write a ++ t) = _
      rw [readOptional, hnull, hread]
      rfl

/-- No string and no array begins as `null` does. -/
theorem expect_null_quoted (s : String) (t : Bytes) :
    expect (ascii "null") (quoted s ++ t) = none := by
  have hnull : ascii "null" = 110 :: (ascii "null").tail := by decide
  rw [hnull, quoted, List.cons_append, expect, if_neg (by decide)]

theorem expect_null_array (bs : List UInt8) (t : Bytes) :
    expect (ascii "null") (array bs ++ t) = none := by
  have hnull : ascii "null" = 110 :: (ascii "null").tail := by decide
  cases bs with
  | nil => rfl
  | cons b bs => rw [hnull, array, List.cons_append, expect, if_neg (by decide)]

theorem inner_optional {α : Type} {write : α → Bytes} (h : ∀ a, Inner (write a)) (v : Option α) :
    Inner (optional write v) := by
  cases v with
  | none => exact (by decide : Inner (ascii "null"))
  | some a => exact h a

/-! ### The two objects -/

/-- What stands between the braces of a line. -/
def lineFields (d : DiskLogEntry) : Bytes :=
  ascii "\"index\":" ++ decimal d.index ++ (ascii ",\"term\":" ++ decimal d.term ++
    (ascii ",\"command_type\":" ++ quoted d.commandType ++
      (ascii ",\"key\":" ++ optional quoted d.key ++
        (ascii ",\"value\":" ++ optional array d.value))))

/-- A line of `log.jsonl`. -/
def encodeLine (d : DiskLogEntry) : Bytes := 123 :: (lineFields d ++ [125])

/-- Read the fields of a line in their order. -/
def parseLine (t : Bytes) : Option DiskLogEntry := do
  let t ← expect [123] t
  let t ← expect (ascii "\"index\":") t
  let (index, t) := readNumber 0 t
  let t ← expect (ascii ",\"term\":") t
  let (term, t) := readNumber 0 t
  let t ← expect (ascii ",\"command_type\":") t
  let (commandType, t) ← readString t
  let t ← expect (ascii ",\"key\":") t
  let (key, t) ← readOptional readString t
  let t ← expect (ascii ",\"value\":") t
  let (value, _) ← readOptional readArray t
  return ⟨index, term, commandType, key, value⟩

/-- A text parses only where it is the one that is written. -/
def decodeLine (t : Bytes) : Option DiskLogEntry :=
  (parseLine t).filter fun d => decide (encodeLine d = t)

theorem parseLine_encodeLine (d : DiskLogEntry) : parseLine (encodeLine d) = some d := by
  have hkey := readOptional_optional readString_quoted expect_null_quoted d.key
  have hvalue := readOptional_optional readArray_array expect_null_array d.value
  have hopen : ∀ t, expect [123] (123 :: t) = some t := fun t => expect_append [123] t
  have hnum : ∀ (n : Nat) (b : UInt8) (t t' : Bytes), isDigit b = false →
      readNumber 0 (decimal n ++ (b :: t ++ t')) = (n, b :: t ++ t') :=
    fun n b t t' hb => readNumber_decimal n hb (t ++ t')
  have hterm : ascii ",\"term\":" = 44 :: (ascii ",\"term\":").tail := by decide
  have htype : ascii ",\"command_type\":" = 44 :: (ascii ",\"command_type\":").tail := by decide
  have hindex : ∀ t, readNumber 0 (decimal d.index ++ (ascii ",\"term\":" ++ t))
      = (d.index, ascii ",\"term\":" ++ t) := by
    intro t
    rw [hterm]
    exact hnum _ _ _ _ (by decide)
  have hterm' : ∀ t, readNumber 0 (decimal d.term ++ (ascii ",\"command_type\":" ++ t))
      = (d.term, ascii ",\"command_type\":" ++ t) := by
    intro t
    rw [htype]
    exact hnum _ _ _ _ (by decide)
  simp only [parseLine, encodeLine, lineFields, List.append_assoc, hopen, expect_append, hindex,
    hterm', readString_quoted, hkey, hvalue, Option.bind_eq_bind, Option.bind_some, Option.pure_def]

example : encodeLine ⟨1, 2, "Put", some "k", some [7, 255]⟩ = ascii
    "\x7b\"index\":1,\"term\":2,\"command_type\":\"Put\",\"key\":\"k\",\"value\":[7,255]\x7d" := by
  decide +kernel

/-- What stands between the braces of `state.json`. -/
def stateFields (ps : PersistentState) : Bytes :=
  ascii "\n  \"current_term\": " ++ decimal ps.currentTerm ++ (ascii ",\n  \"voted_for\": " ++
    (optional quoted (ps.votedFor.map (·.asStr)) ++ ascii "\n"))

/-- `state.json`. -/
def encodeState (ps : PersistentState) : Bytes := 123 :: (stateFields ps ++ [125])

/-- Read the fields of the state in their order. -/
def parseState (t : Bytes) : Option PersistentState := do
  let t ← expect [123] t
  let t ← expect (ascii "\n  \"current_term\": ") t
  let (currentTerm, t) := readNumber 0 t
  let t ← expect (ascii ",\n  \"voted_for\": ") t
  let (votedFor, _) ← readOptional readString t
  return ⟨currentTerm, votedFor.map (HeaplessString.pushStr 64)⟩

/-- A text parses only where it is the one that is written. -/
def decodeState (t : Bytes) : Option PersistentState :=
  (parseState t).filter fun ps => decide (encodeState ps = t)

theorem parseState_encodeState (ps : PersistentState) : parseState (encodeState ps) = some ps := by
  have hvote := readOptional_optional readString_quoted expect_null_quoted
    (ps.votedFor.map (·.asStr))
  have hopen : ∀ t, expect [123] (123 :: t) = some t := fun t => expect_append [123] t
  have hfor : ascii ",\n  \"voted_for\": " = 44 :: (ascii ",\n  \"voted_for\": ").tail := by decide
  have hterm : ∀ t, readNumber 0 (decimal ps.currentTerm ++ (ascii ",\n  \"voted_for\": " ++ t))
      = (ps.currentTerm, ascii ",\n  \"voted_for\": " ++ t) := by
    intro t
    rw [hfor]
    exact readNumber_decimal _ (by decide) _
  have hback : (ps.votedFor.map (·.asStr)).map (HeaplessString.pushStr 64) = ps.votedFor := by
    cases ps.votedFor <;> simp
  simp only [parseState, encodeState, stateFields, List.append_assoc, hopen, expect_append, hterm,
    hvote, Option.bind_eq_bind, Option.bind_some, Option.pure_def, hback]

/-! ### The assumptions -/

/-- The encodings. -/
def jsonSerde : Serde := ⟨⟨encodeLine, decodeLine⟩, ⟨encodeState, decodeState⟩⟩

theorem inner_lineFields (d : DiskLogEntry) : Inner (lineFields d) := by
  have h1 : Inner (ascii "\"index\":") := by decide
  have h2 : Inner (ascii ",\"term\":") := by decide
  have h3 : Inner (ascii ",\"command_type\":") := by decide
  have h4 : Inner (ascii ",\"key\":") := by decide
  have h5 : Inner (ascii ",\"value\":") := by decide
  exact (h1.append (inner_decimal _)).append ((h2.append (inner_decimal _)).append
    ((h3.append (inner_quoted _)).append ((h4.append (inner_optional inner_quoted _)).append
      (h5.append (inner_optional inner_array _)))))

/-- The state is a text over several lines, with no brace in it. -/
theorem close_notMem_stateFields (ps : PersistentState) : ∀ b ∈ stateFields ps, b ≠ 125 := by
  have hclose : ∀ {t}, Inner t → ∀ b ∈ t, b ≠ 125 := fun h b hb => (h b hb).2.1
  intro b hb
  simp only [stateFields, List.mem_append] at hb
  rcases hb with (hb | hb) | hb | hb | hb
  · exact ne_of_mem_of_not_mem hb (by decide)
  · exact hclose (inner_decimal _) b hb
  · exact ne_of_mem_of_not_mem hb (by decide)
  · exact hclose (inner_optional inner_quoted _) b hb
  · exact ne_of_mem_of_not_mem hb (by decide)

/-- A text that closes its only brace at the end is no proper part of another. -/
theorem eq_of_prefix_braced {fields fields' : Bytes} (h : ∀ b ∈ fields, b ≠ 125)
    (hpre : 123 :: (fields' ++ [125]) <+: 123 :: (fields ++ [125])) :
    123 :: (fields' ++ [125]) = 123 :: (fields ++ [125]) := by
  obtain ⟨r, hr⟩ := hpre
  rcases List.eq_nil_or_concat r with rfl | ⟨r, b, rfl⟩
  · rw [← hr, List.append_nil]
  · -- The closing brace would stand among the fields.
    have hfields : fields' ++ [125] ++ r = fields := by
      have htail : (fields' ++ [125] ++ r) ++ [b] = fields ++ [125] := by
        simpa [List.concat_eq_append] using hr
      exact (List.append_inj' htail rfl).1
    exact absurd rfl (h 125 (by rw [← hfields]; simp))

/-- A text that opens its only brace at the start does not stand behind another. -/
theorem not_joined {p fields fields' : Bytes} (h : ∀ b ∈ fields, b ≠ 123) (hne : p ≠ []) :
    123 :: (fields ++ [125]) ≠ p ++ 123 :: (fields' ++ [125]) := by
  intro heq
  obtain ⟨b, p, rfl⟩ := List.exists_cons_of_ne_nil hne
  have htail : fields ++ [125] = p ++ 123 :: (fields' ++ [125]) := (List.cons.inj heq).2
  have hmem : (123 : UInt8) ∈ fields ++ [125] := by
    rw [htail]
    simp
  rcases List.mem_append.mp hmem with hmem | hmem
  · exact h 123 hmem rfl
  · exact absurd (List.mem_singleton.mp hmem) (by decide)

theorem encodeLine_of_decode {t : Bytes} {d : DiskLogEntry} (h : decodeLine t = some d) :
    encodeLine d = t := by
  obtain ⟨-, hd⟩ := Option.filter_eq_some_iff.mp h
  exact of_decide_eq_true hd

theorem encodeState_of_decode {t : Bytes} {ps : PersistentState} (h : decodeState t = some ps) :
    encodeState ps = t := by
  obtain ⟨-, hd⟩ := Option.filter_eq_some_iff.mp h
  exact of_decide_eq_true hd

theorem lawful_jsonSerde : jsonSerde.Lawful where
  line d := by
    show decodeLine (encodeLine d) = some d
    rw [decodeLine, parseLine_encodeLine]
    simp
  oneLine d := by
    refine ⟨List.cons_ne_nil _ _, fun b hb => ?_⟩
    rcases List.mem_cons.mp hb with rfl | hb
    · decide
    · rcases List.mem_append.mp hb with hb | hb
      · exact (inner_lineFields d b hb).2.2
      · obtain rfl := List.mem_singleton.mp hb
        decide
  state ps := by
    show decodeState (encodeState ps) = some ps
    rw [decodeState, parseState_encodeState]
    simp

theorem rejectsTorn_jsonSerde : jsonSerde.RejectsTorn where
  line d p hpre hne := by
    cases hdec : jsonSerde.line.decode p with
    | none => rfl
    | some d' =>
        obtain rfl : encodeLine d' = p := encodeLine_of_decode hdec
        exact absurd (eq_of_prefix_braced (fun b hb => (inner_lineFields d b hb).2.1) hpre) hne
  joined d d' p hpre hne := by
    cases hdec : jsonSerde.line.decode (p ++ jsonSerde.line.encode d') with
    | none => rfl
    | some d'' =>
        have heq : encodeLine d'' = p ++ encodeLine d' := encodeLine_of_decode hdec
        exact absurd heq (not_joined (fun b hb => (inner_lineFields d'' b hb).1) hne)
  state ps p hpre hne := by
    cases hdec : jsonSerde.state.decode p with
    | none => rfl
    | some ps' =>
        obtain rfl : encodeState ps' = p := encodeState_of_decode hdec
        exact absurd (eq_of_prefix_braced (close_notMem_stateFields ps) hpre) hne

/-! ### Concrete files -/

/-- Calls of every kind: a batch overlaps what is there, and the log is cut and grows again. -/
def calls : List LogOp :=
  [.setCurrentTerm 1, .append 1 (.put (.pushStr 256 "k") (.collectTake 1024 [1, 2])),
    .append 1 .noop, .appendEntries [⟨2, 2, .delete (.pushStr 256 "k")⟩, ⟨3, 2, .noop⟩],
    .truncateFrom 2, .setVotedFor (some "B"), .append 3 .noop]

/-- The states these calls go through. -/
def callStates : List Stored :=
  Lib.trace (Stored.step jsonSerde) .empty (fun s op => op.Shaped s.log) calls

/-- After each of the calls the files load and yield what is in memory. -/
theorem reload_same_calls : callStates.length = 8 ∧
    ∀ s ∈ callStates, ∃ log', s.files.load jsonSerde = some log' ∧ log'.Same s.log :=
  ⟨by decide +kernel, reload_same lawful_jsonSerde (Lib.run_trace (by decide +kernel))⟩

/-- One byte of a line makes the files unreadable; the whole line does not. -/
theorem recovers_iff_append :
    ¬ Recovers jsonSerde (Stored.empty.crash jsonSerde (.append 1 .noop) 1) Stored.empty.log
        (.append 1 .noop) ∧
      Recovers jsonSerde (Stored.empty.crash jsonSerde (.append 1 .noop) 100) Stored.empty.log
        (.append 1 .noop) := by
  have hshaped : (LogOp.append 1 .noop).Shaped Stored.empty.log := by decide
  have h1 := recovers_iff (k := 1) lawful_jsonSerde rejectsTorn_jsonSerde .start hshaped
  have h100 := recovers_iff (k := 100) lawful_jsonSerde rejectsTorn_jsonSerde .start hshaped
  rw [h1, h100]
  constructor
  · rintro (h | h)
    · revert h
      decide +kernel
    · revert h
      decide +kernel
  · exact Or.inr (by decide +kernel)

/-- A crash in `save_state` right after `state.json` is cut to nothing: no log loads. -/
theorem not_recovers :
    ¬ ∀ serde : Serde, serde.Lawful → serde.RejectsTorn → ∀ tr s op k,
      Stored.Run serde .empty (s :: tr) → op.Shaped s.log →
        Recovers serde (s.crash serde op k) s.log op := by
  intro hall
  obtain ⟨log', hload, -⟩ := hall jsonSerde lawful_jsonSerde rejectsTorn_jsonSerde []
    .empty (.setCurrentTerm 1) 1 .start trivial
  have hnone : (Stored.empty.crash jsonSerde (.setCurrentTerm 1) 1).load jsonSerde = none := by
    decide +kernel
  rw [hnone] at hload
  cases hload

/-- A crash behind the last byte of the file does no harm. -/
example : ((Stored.empty.crash jsonSerde (.setCurrentTerm 1) 100).load jsonSerde).map
    (·.currentTerm) = some 1 := by
  decide +kernel

end RaftEbpf.JsonText
