import Mathlib.Data.List.Basic

/-!
# `RaftEbpf.Lib.Utf8`: text of bytes that may be no text

`decodeLossy` reads bytes as UTF-8 and puts U+FFFD where they are not, one for each maximal
subpart: the longest start of a character, or else a single byte. Well-formed sequences are
those of `ByteArray.utf8DecodeChar?`.

* `fromLossy_bytes`: the bytes of a string are read back as the string.
* `fromLossy_take_eq_iff`: a cut text reads back as the whole one in two cases only: nothing is
  cut off, or the cut falls inside a last character that is U+FFFD itself.
-/

set_option autoImplicit false

namespace RaftEbpf.Lib.Utf8

/-- The UTF-8 encoding of a list of characters. -/
def encode (cs : List Char) : List UInt8 := cs.flatMap String.utf8EncodeChar

/-- The bytes of a string. -/
def bytes (s : String) : List UInt8 := encode s.toList

/-- `U+FFFD REPLACEMENT CHARACTER`. -/
def replacement : Char := '\uFFFD'

/-- The second bytes that the first byte of a character of three or four bytes admits. Overlong
forms, surrogates and what is above U+10FFFF are left out. -/
def admits (lead second : UInt8) : Bool :=
  (lead == 0xE0 && 0xA0 ≤ second && second ≤ 0xBF) ||
  (0xE1 ≤ lead && lead ≤ 0xEC && 0x80 ≤ second && second ≤ 0xBF) ||
  (lead == 0xED && 0x80 ≤ second && second ≤ 0x9F) ||
  (0xEE ≤ lead && lead ≤ 0xEF && 0x80 ≤ second && second ≤ 0xBF) ||
  (lead == 0xF0 && 0x90 ≤ second && second ≤ 0xBF) ||
  (0xF1 ≤ lead && lead ≤ 0xF3 && 0x80 ≤ second && second ≤ 0xBF) ||
  (lead == 0xF4 && 0x80 ≤ second && second ≤ 0x8F)

/-- The length of the maximal subpart that ill-formed bytes begin with. -/
def subpart : List UInt8 → Nat
  | lead :: second :: rest =>
      if admits lead second then
        match rest with
        | third :: _ => if 0xF0 ≤ lead && 0x80 ≤ third && third ≤ 0xBF then 3 else 2
        | [] => 2
      else 1
  | _ => 1

theorem subpart_pos (l : List UInt8) : 0 < subpart l := by
  unfold subpart
  split
  · split
    · split
      · split <;> decide
      · decide
    · decide
  · decide

/-- The text that bytes are read as. -/
def decodeLossy : List UInt8 → List Char
  | [] => []
  | b :: rest =>
      match (b :: rest).toByteArray.utf8DecodeChar? 0 with
      | some c => c :: decodeLossy ((b :: rest).drop c.utf8Size)
      | none => replacement :: decodeLossy ((b :: rest).drop (subpart (b :: rest)))
termination_by l => l.length
decreasing_by
  · have := c.utf8Size_pos
    simp only [List.length_drop, List.length_cons]
    omega
  · have := subpart_pos (b :: rest)
    simp only [List.length_drop, List.length_cons]
    omega

/-- The string that bytes are read as. -/
def fromLossy (l : List UInt8) : String := String.ofList (decodeLossy l)

@[simp] theorem encode_nil : encode [] = [] := rfl

@[simp] theorem encode_cons (c : Char) (cs : List Char) :
    encode (c :: cs) = String.utf8EncodeChar c ++ encode cs := rfl

theorem encode_append (cs cs' : List Char) : encode (cs ++ cs') = encode cs ++ encode cs' :=
  List.flatMap_append

theorem length_bytes (s : String) : (bytes s).length = s.utf8ByteSize := by
  rw [← String.size_toByteArray, ← String.utf8Encode_toList, List.utf8Encode, List.size_toByteArray]
  rfl

/-! ### One character -/

theorem exists_cons_encode (c : Char) : ∃ b l, String.utf8EncodeChar c = b :: l := by
  cases h : String.utf8EncodeChar c with
  | nil => exact absurd h String.utf8EncodeChar_ne_nil
  | cons b l => exact ⟨b, l, rfl⟩

/-- A whole character is read. -/
theorem decodeLossy_char (c : Char) (t : List UInt8) :
    decodeLossy (String.utf8EncodeChar c ++ t) = c :: decodeLossy t := by
  have hdecode : (String.utf8EncodeChar c ++ t).toByteArray.utf8DecodeChar? 0 = some c := by
    rw [List.toByteArray_append]
    exact ByteArray.utf8DecodeChar?_utf8EncodeChar_append
  have hdrop : (String.utf8EncodeChar c ++ t).drop c.utf8Size = t := by
    rw [← String.length_utf8EncodeChar, List.drop_left]
  obtain ⟨b, l, hbl⟩ := exists_cons_encode c
  rw [hbl, List.cons_append] at hdecode hdrop ⊢
  rw [decodeLossy, hdecode]
  simp only [hdrop]

/-- A start of a character is none. -/
theorem decode_cut {c : Char} {k : Nat} (hk : k < c.utf8Size) :
    ((String.utf8EncodeChar c).take k).toByteArray.utf8DecodeChar? 0 = none := by
  by_contra h
  obtain ⟨c', hc'⟩ := Option.ne_none_iff_exists'.mp h
  -- The character found begins the whole encoding as well, so it is `c`, which does not fit.
  obtain ⟨l, hl⟩ := ByteArray.exists_of_utf8DecodeChar?_eq_some hc'
  have hwhole : (String.utf8EncodeChar c).toByteArray =
      (String.utf8EncodeChar c').toByteArray ++
        (l ++ ((String.utf8EncodeChar c).drop k).toByteArray) := by
    rw [← ByteArray.append_assoc, ← hl, ← List.toByteArray_append, List.take_append_drop]
  have hsame : some c = some c' := by
    have hc := ByteArray.utf8DecodeChar?_utf8EncodeChar_append (b := ByteArray.empty) (c := c)
    rw [ByteArray.append_empty] at hc
    rw [← hc, hwhole]
    exact ByteArray.utf8DecodeChar?_utf8EncodeChar_append
  obtain rfl := Option.some.inj hsame
  have hsize := ByteArray.le_size_of_utf8DecodeChar?_eq_some hc'
  rw [List.size_toByteArray, List.length_take] at hsize
  omega

theorem admits_ofNat {a b : Nat} (ha : a < 256) (hb : b < 256)
    (h : a = 0xE0 ∧ 0xA0 ≤ b ∧ b ≤ 0xBF ∨ 0xE1 ≤ a ∧ a ≤ 0xEC ∧ 0x80 ≤ b ∧ b ≤ 0xBF ∨
      a = 0xED ∧ 0x80 ≤ b ∧ b ≤ 0x9F ∨ 0xEE ≤ a ∧ a ≤ 0xEF ∧ 0x80 ≤ b ∧ b ≤ 0xBF ∨
      a = 0xF0 ∧ 0x90 ≤ b ∧ b ≤ 0xBF ∨ 0xF1 ≤ a ∧ a ≤ 0xF3 ∧ 0x80 ≤ b ∧ b ≤ 0xBF ∨
      a = 0xF4 ∧ 0x80 ≤ b ∧ b ≤ 0x8F) : admits (UInt8.ofNat a) (UInt8.ofNat b) = true := by
  have ha' : a % 256 = a := Nat.mod_eq_of_lt ha
  have hb' : b % 256 = b := Nat.mod_eq_of_lt hb
  simp only [admits, Bool.or_eq_true, Bool.and_eq_true, beq_iff_eq, decide_eq_true_eq,
    UInt8.le_iff_toNat_le, ← UInt8.toNat_inj, UInt8.toNat_ofNat', UInt8.reduceToNat,
    Nat.reducePow, ha', hb', and_assoc, or_assoc]
  exact h

/-- The first two bytes of a character of three or four bytes go together. -/
theorem admits_encode {c : Char} {b₀ b₁ b₂ : UInt8} {l : List UInt8}
    (h : String.utf8EncodeChar c = b₀ :: b₁ :: b₂ :: l) : admits b₀ b₁ = true := by
  have hvalid : c.val.toNat < 0xD800 ∨ 0xDFFF < c.val.toNat ∧ c.val.toNat < 0x110000 := c.valid
  rw [String.utf8EncodeChar] at h
  split at h
  · cases h
  · split at h
    · cases h
    · split at h
      · obtain ⟨rfl, rfl, -⟩ := List.cons.inj h |>.imp id fun h => List.cons.inj h
        refine admits_ofNat (by omega) (by omega) ?_
        omega
      · obtain ⟨rfl, rfl, -⟩ := List.cons.inj h |>.imp id fun h => List.cons.inj h
        refine admits_ofNat (by omega) (by omega) ?_
        omega

/-- A character of four bytes has a first byte that says so, and a third byte that continues. -/
theorem continues_encode {c : Char} {b₀ b₁ b₂ b₃ : UInt8} {l : List UInt8}
    (h : String.utf8EncodeChar c = b₀ :: b₁ :: b₂ :: b₃ :: l) :
    0xF0 ≤ b₀ ∧ 0x80 ≤ b₂ ∧ b₂ ≤ 0xBF := by
  have hvalid : c.val.toNat < 0xD800 ∨ 0xDFFF < c.val.toNat ∧ c.val.toNat < 0x110000 := c.valid
  rw [String.utf8EncodeChar] at h
  split at h
  · cases h
  · split at h
    · cases h
    · split at h
      · cases h
      · simp only [List.cons.injEq] at h
        obtain ⟨rfl, -, rfl, -⟩ := h
        simp only [UInt8.le_iff_toNat_le, UInt8.toNat_ofNat', UInt8.reduceToNat, Nat.reducePow]
        omega

/-- The start of a character is one subpart. -/
theorem subpart_cut {c : Char} {k : Nat} (hpos : 0 < k) (hk : k < c.utf8Size) :
    subpart ((String.utf8EncodeChar c).take k) = k := by
  have hlen := String.length_utf8EncodeChar c
  have hfour := c.utf8Size_le_four
  match h : String.utf8EncodeChar c, k with
  | [], _ => simp [h] at hlen; omega
  | [_], _ => simp [h] at hlen; omega
  | _ :: _ :: _, 1 => rfl
  | [_, _], k + 2 => simp [h] at hlen; omega
  | b₀ :: b₁ :: b₂ :: l, 2 => simp [subpart, admits_encode h]
  | [_, _, _], k + 3 => simp [h] at hlen; omega
  | b₀ :: b₁ :: b₂ :: b₃ :: l, 3 =>
    obtain ⟨h₀, h₂, h₂'⟩ := continues_encode h
    simp [subpart, admits_encode h, h₀, h₂, h₂']
  | b₀ :: b₁ :: b₂ :: b₃ :: l, k + 4 => omega

/-- The start of a character is read as one replacement. -/
theorem decodeLossy_cut {c : Char} {k : Nat} (hpos : 0 < k) (hk : k < c.utf8Size) :
    decodeLossy ((String.utf8EncodeChar c).take k) = [replacement] := by
  have hnone := decode_cut hk
  have hsub := subpart_cut hpos hk
  have hall : ((String.utf8EncodeChar c).take k).drop k = [] := by
    rw [List.drop_take, Nat.sub_self, List.take_zero]
  cases h : (String.utf8EncodeChar c).take k with
  | nil =>
      rw [List.take_eq_nil_iff] at h
      rcases h with rfl | h
      · exact absurd hpos (Nat.lt_irrefl 0)
      · exact absurd h String.utf8EncodeChar_ne_nil
  | cons b l =>
      rw [h] at hnone hsub hall
      rw [decodeLossy, hnone]
      simp only [hsub, hall, decodeLossy]

/-! ### Cut texts -/

theorem length_encode_pos (c : Char) (cs : List Char) : 0 < (encode (c :: cs)).length := by
  rw [encode_cons, List.length_append, String.length_utf8EncodeChar]
  exact Nat.add_pos_left c.utf8Size_pos _

/-- A cut text reads back as the whole one where nothing is cut off, or where the cut falls inside
a replacement character at its end. Induction on the text. -/
theorem decodeLossy_take_eq_iff (cs : List Char) (n : Nat) :
    decodeLossy ((encode cs).take n) = cs ↔
      (encode cs).length ≤ n ∨ ∃ p, cs = p ++ [replacement] ∧ (encode p).length < n := by
  induction cs generalizing n with
  | nil => simp [decodeLossy]
  | cons c cs ih =>
      by_cases hn : n < c.utf8Size
      · -- The cut is inside the first character, or before it.
        have htake : (encode (c :: cs)).take n = (String.utf8EncodeChar c).take n := by
          have hshort : n ≤ (String.utf8EncodeChar c).length := by
            rw [String.length_utf8EncodeChar]
            omega
          rw [encode_cons, List.take_append_of_le_length hshort]
        have hlen : ¬ (encode (c :: cs)).length ≤ n := by
          rw [encode_cons, List.length_append, String.length_utf8EncodeChar]
          omega
        rw [htake, or_iff_right hlen]
        rcases Nat.eq_zero_or_pos n with rfl | hpos
        · simp [decodeLossy]
        · rw [decodeLossy_cut hpos hn]
          constructor
          · intro h
            exact ⟨[], h.symm, hpos⟩
          · rintro ⟨p, hp, hlt⟩
            cases p with
            | nil => exact hp.symm
            | cons c' p =>
                obtain ⟨rfl, -⟩ := List.cons.inj hp
                rw [encode_cons, List.length_append, String.length_utf8EncodeChar] at hlt
                omega
      · have hle : c.utf8Size ≤ n := Nat.not_lt.mp hn
        have htake : (encode (c :: cs)).take n =
            String.utf8EncodeChar c ++ (encode cs).take (n - c.utf8Size) := by
          rw [encode_cons, List.take_append, String.length_utf8EncodeChar,
            List.take_of_length_le (by rw [String.length_utf8EncodeChar]; exact hle)]
        have hlen : ∀ l, (encode (c :: l)).length = c.utf8Size + (encode l).length := by
          intro l
          rw [encode_cons, List.length_append, String.length_utf8EncodeChar]
        rw [htake, decodeLossy_char, List.cons.injEq, and_iff_right rfl, ih, hlen]
        constructor
        · rintro (hfits | ⟨p, rfl, hlt⟩)
          · exact Or.inl (by omega)
          · refine Or.inr ⟨c :: p, rfl, ?_⟩
            rw [hlen]
            omega
        · rintro (hfits | ⟨p, hp, hlt⟩)
          · exact Or.inl (by omega)
          · cases p with
            | nil =>
                obtain ⟨rfl, rfl⟩ := List.cons.inj hp
                exact Or.inl (Nat.zero_le _)
            | cons c' p =>
                obtain ⟨rfl, rfl⟩ := List.cons.inj hp
                rw [hlen] at hlt
                exact Or.inr ⟨p, rfl, by omega⟩

/-- The string that the first `n` bytes of a string are read as. -/
theorem fromLossy_take_eq_iff (s : String) (n : Nat) : fromLossy ((bytes s).take n) = s ↔
    s.utf8ByteSize ≤ n ∨ ∃ p, s = p ++ String.singleton replacement ∧ p.utf8ByteSize < n := by
  have hread : fromLossy ((bytes s).take n) = s ↔ decodeLossy ((bytes s).take n) = s.toList := by
    rw [fromLossy, ← String.toList_inj, String.toList_ofList]
  rw [hread, bytes, decodeLossy_take_eq_iff, ← bytes, length_bytes]
  refine or_congr_right ⟨?_, ?_⟩
  · rintro ⟨p, hp, hlt⟩
    refine ⟨String.ofList p, ?_, ?_⟩
    · rw [← String.toList_inj, hp]
      simp
    · rwa [← length_bytes, bytes, String.toList_ofList]
  · rintro ⟨p, rfl, hlt⟩
    exact ⟨p.toList, by simp, by rwa [← bytes, length_bytes]⟩

/-- The bytes of a string are read back as the string. -/
theorem fromLossy_bytes (s : String) : fromLossy (bytes s) = s := by
  have h := (fromLossy_take_eq_iff s s.utf8ByteSize).mpr (Or.inl (Nat.le_refl _))
  rwa [List.take_of_length_le (Nat.le_of_eq (length_bytes s))] at h

end RaftEbpf.Lib.Utf8
