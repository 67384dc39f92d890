import RaftEbpf.Lib.PrefixCode
import RaftEbpf.Wire

/-!
# `RaftEbpf.Proofs.WireText`: an envelope is read off its text

`serde_json` is not modelled as a reader. What its reader can rely on is a property of the text:
that it says where it ends, and that no two values have the same one. Both hold of every JSON
value that the wire types have (`JsonText.readOff`), where a number ends at the comma or the
bracket behind it.

`toVec_append_iff` says this of an envelope: whatever is written behind it, its text belongs to
no other envelope and is no part of a longer one. No byte of the text is a control character
(`JsonText.printable`), so that a text is a line.
-/

set_option autoImplicit false

namespace RaftEbpf

open RaftEbpf.Lib (Utf8.bytes Utf8.fromLossy_bytes)
open RaftEbpf.Lib.PrefixCode

namespace Wire

/-- What stands behind a value: a comma, or the end of an array or of an object. -/
def ends : Set (List UInt8) := Begins fun b => b = 44 ∨ b = 93 ∨ b = 125

/-! ### Numbers -/

/-- The byte of a digit. -/
theorem toNat_ofNat_digit {c : Char} (hc : c.isDigit = true) :
    (UInt8.ofNat c.toNat).toNat = c.toNat ∧ 48 ≤ c.toNat ∧ c.toNat ≤ 57 := by
  have hdigit : 48 ≤ c.toNat ∧ c.toNat ≤ 57 := by
    simpa [Char.isDigit, UInt32.le_iff_toNat_le] using hc
  refine ⟨?_, hdigit⟩
  rw [UInt8.toNat_ofNat']
  exact Nat.mod_eq_of_lt (by omega)

theorem isDigit_of_mem {n : Nat} {c : Char} (hc : c ∈ Nat.toDigits 10 n) : c.isDigit = true :=
  Nat.isDigit_of_mem_toDigits (by decide) (Nat.le_refl 10) hc

theorem digit_of_mem_num {n : Nat} {b : UInt8} (hb : b ∈ num n) :
    48 ≤ b.toNat ∧ b.toNat ≤ 57 := by
  obtain ⟨c, hc, rfl⟩ := List.mem_map.mp hb
  obtain ⟨heq, hdigit⟩ := toNat_ofNat_digit (isDigit_of_mem hc)
  exact heq.symm ▸ hdigit

/-- The digits of a number are read back from its bytes. -/
theorem map_num (n : Nat) :
    (num n).map (fun b => Char.ofNat b.toNat) = Nat.toDigits 10 n := by
  rw [num, List.map_map]
  refine (List.map_congr_left fun c hc => ?_).trans (List.map_id _)
  show Char.ofNat (UInt8.ofNat c.toNat).toNat = c
  rw [(toNat_ofNat_digit (isDigit_of_mem hc)).1, Char.ofNat_toNat]

theorem num_injective {n m : Nat} (h : num n = num m) : n = m := by
  have hdigits : Nat.toDigits 10 n = Nat.toDigits 10 m := by
    rw [← map_num, ← map_num, h]
  have hvalue := congrArg (Nat.ofDigitChars 10 · 0) hdigits
  simpa only [Nat.ofDigitChars_ten_toDigits] using hvalue

theorem num_begins (n : Nat) : num n ∈ Begins fun b => 48 ≤ b.toNat ∧ b.toNat ≤ 57 := by
  cases h : num n with
  | nil =>
      have hnil : Nat.toDigits 10 n = [] := by rw [← map_num, h, List.map_nil]
      exact absurd hnil Nat.toDigits_ne_nil
  | cons b r =>
      have hb : b ∈ num n := h ▸ List.mem_cons_self
      exact ⟨b, r, rfl, digit_of_mem_num hb⟩

/-- A number ends at the first byte that is no digit. -/
theorem num_unique {n m : Nat} {t u : List UInt8} (ht : t ∈ ends) (hu : u ∈ ends)
    (h : num n ++ t = num m ++ u) : num n = num m ∧ t = u := by
  have hstop : ends ⊆ Begins fun b => ¬ (48 ≤ b.toNat ∧ b.toNat ≤ 57) := by
    refine Begins.mono fun b hb => ?_
    rcases hb with rfl | rfl | rfl <;> decide
  exact span_unique (fun _ hb => digit_of_mem_num hb) (fun _ hb => digit_of_mem_num hb)
    (hstop ht) (hstop hu) h

/-! ### Strings -/

/-- The byte that was escaped. -/
def unescape : List UInt8 → UInt8
  | [92, 98] => 8
  | [92, 116] => 9
  | [92, 110] => 10
  | [92, 102] => 12
  | [92, 114] => 13
  | [92, b] => b
  | [92, 117, 48, 48, hi, lo] => (hi - 48) * 16 + if lo < 58 then lo - 48 else lo - 87
  | [b] => b
  | _ => 0

/-- What holds of the bytes below 256 holds of all. -/
theorem forall_uint8 (P : UInt8 → Prop) (h : ∀ x : Fin 256, P (UInt8.ofNat x)) (b : UInt8) :
    P b := by
  have hb := h b.toFin
  simpa using hb

theorem unescape_escape : ∀ b : UInt8, unescape (escape b) = b :=
  forall_uint8 _ (by decide +kernel)

theorem escape_printable : ∀ b : UInt8, ∀ c ∈ escape b, 32 ≤ c :=
  forall_uint8 _ (by decide +kernel)

/-- The three forms of a byte: itself, a backslash and a letter, or the number of its code point.
The second byte tells the last two apart. -/
theorem escape_cases (b : UInt8) :
    (escape b = [b] ∧ b ≠ 34 ∧ b ≠ 92) ∨ (∃ c, escape b = [92, c] ∧ c ≠ 117) ∨
      ∃ hi lo, escape b = [92, 117, 48, 48, hi, lo] := by
  unfold escape
  split
  case h_8 hquote hslash =>
    split
    · exact Or.inr (Or.inr ⟨_, _, rfl⟩)
    · exact Or.inl ⟨rfl, fun h => hquote (h ▸ rfl), fun h => hslash (h ▸ rfl)⟩
  all_goals exact Or.inr (Or.inl ⟨_, rfl, by decide⟩)

/-- A byte of a string is read off. -/
theorem escape_unique {a b : UInt8} {t u : List UInt8} (h : escape a ++ t = escape b ++ u) :
    a = b ∧ t = u := by
  have key : escape a = escape b ∧ t = u := by
    rcases escape_cases a with ⟨ha, -, hslash⟩ | ⟨c, ha, hc⟩ | ⟨hi, lo, ha⟩ <;>
    rcases escape_cases b with ⟨hb, -, hslash'⟩ | ⟨c', hb, hc'⟩ | ⟨hi', lo', hb⟩ <;>
    rw [ha, hb] at h ⊢ <;> simp only [List.cons_append, List.nil_append, List.cons.injEq] at h ⊢ <;>
    grind
  refine ⟨?_, key.2⟩
  have hcode := congrArg unescape key.1
  rwa [unescape_escape, unescape_escape] at hcode

theorem chars_unique {as bs t u : List UInt8}
    (h : as.flatMap escape ++ 34 :: t = bs.flatMap escape ++ 34 :: u) : as = bs ∧ t = u := by
  -- The closing quote is no start of an escaped byte.
  have hquote : ∀ (b : UInt8) (r t : List UInt8), 34 :: t ≠ escape b ++ r := by
    intro b r t heq
    rcases escape_cases b with ⟨hb, hne, -⟩ | ⟨c, hb, -⟩ | ⟨hi, lo, hb⟩ <;> rw [hb] at heq
    · exact hne (List.cons.inj heq).1.symm
    · exact absurd (List.cons.inj heq).1 (by decide)
    · exact absurd (List.cons.inj heq).1 (by decide)
  induction as generalizing bs with
  | nil =>
      cases bs with
      | nil => exact ⟨rfl, (List.cons.inj h).2⟩
      | cons b bs =>
          rw [List.flatMap_cons, List.append_assoc] at h
          exact absurd h (hquote b _ t)
  | cons a as ih =>
      cases bs with
      | nil =>
          rw [List.flatMap_cons, List.append_assoc] at h
          exact absurd h.symm (hquote a _ u)
      | cons b bs =>
          rw [List.flatMap_cons, List.flatMap_cons, List.append_assoc, List.append_assoc] at h
          obtain ⟨rfl, hrest⟩ := escape_unique h
          obtain ⟨rfl, ht⟩ := ih hrest
          exact ⟨rfl, ht⟩

/-- A string is read off, whatever stands behind it. -/
theorem str_unique {s s' : String} {t u : List UInt8} (h : str s ++ t = str s' ++ u) :
    s = s' ∧ t = u := by
  rw [str, str, List.cons_append, List.cons_append, List.append_assoc, List.append_assoc] at h
  obtain ⟨hbytes, ht⟩ := chars_unique (List.cons.inj h).2
  refine ⟨?_, ht⟩
  have hs := congrArg Lib.Utf8.fromLossy hbytes
  rwa [Utf8.fromLossy_bytes, Utf8.fromLossy_bytes] at hs

/-! ### Values -/

/-- The text of a JSON value, as far as the wire types have such values. -/
inductive JsonText : List UInt8 → Prop
  | null : JsonText (Utf8.bytes "null")
  | bool (b : Bool) : JsonText (Wire.bool b)
  | num (n : Nat) : JsonText (Wire.num n)
  | str (s : String) : JsonText (Wire.str s)
  | arr {items : List (List UInt8)} (h : ∀ item ∈ items, JsonText item) : JsonText (Wire.arr items)
  | obj {fields : List (String × List UInt8)} (h : ∀ f ∈ fields, JsonText f.2) :
      JsonText (Wire.obj fields)

/-- What the first byte says about a value. All digits count as one, and so do the first letters of
`true` and `false`. -/
def kind : List UInt8 → Nat
  | [] => 0
  | b :: _ => if 48 ≤ b.toNat ∧ b.toNat ≤ 57 then 48 else if b = 102 then 116 else b.toNat

theorem bytes_null : Utf8.bytes "null" = [110, 117, 108, 108] := by decide +kernel

theorem bool_eq (b : Bool) :
    bool b = if b then [116, 114, 117, 101] else [102, 97, 108, 115, 101] := by
  cases b <;> decide +kernel

@[simp] theorem kind_null (t : List UInt8) : kind (Utf8.bytes "null" ++ t) = 110 := by
  rw [bytes_null]
  rfl

@[simp] theorem kind_bool (b : Bool) (t : List UInt8) : kind (bool b ++ t) = 116 := by
  rw [bool_eq]
  cases b <;> rfl

@[simp] theorem kind_num (n : Nat) (t : List UInt8) : kind (num n ++ t) = 48 := by
  obtain ⟨b, r, hnum, hb⟩ := num_begins n
  rw [hnum]
  exact if_pos hb

@[simp] theorem kind_str (s : String) (t : List UInt8) : kind (str s ++ t) = 34 := rfl

@[simp] theorem kind_arr (items : List (List UInt8)) (t : List UInt8) :
    kind (arr items ++ t) = 91 := rfl

@[simp] theorem kind_obj (fields : List (String × List UInt8)) (t : List UInt8) :
    kind (obj fields ++ t) = 123 := rfl

theorem kind_jsonText {v : List UInt8} (h : JsonText v) (t : List UInt8) :
    kind (v ++ t) ≠ 0 ∧ kind (v ++ t) ≠ 93 ∧ kind (v ++ t) ≠ 125 := by
  cases h <;> simp

/-- No value begins with a bracket that closes something. -/
theorem JsonText.begins {v : List UInt8} (h : JsonText v) :
    v ∈ Begins fun b => b ≠ 93 ∧ b ≠ 125 := by
  obtain ⟨hnil, harr, hobj⟩ := kind_jsonText h []
  rw [List.append_nil] at hnil harr hobj
  cases v with
  | nil => exact absurd rfl hnil
  | cons b r =>
      refine begins_cons ⟨?_, ?_⟩ r
      · rintro rfl
        exact harr rfl
      · rintro rfl
        exact hobj rfl

theorem commaSep_eq (items : List (List UInt8)) : commaSep items = sepBy 44 items := by
  induction items with
  | nil => rfl
  | cons item rest ih =>
      cases rest with
      | nil => rfl
      | cons item' rest =>
          show item ++ 44 :: commaSep (item' :: rest) = item ++ 44 :: sepBy 44 (item' :: rest)
          rw [ih]

/-- A field of an object. -/
def fieldText (f : String × List UInt8) : List UInt8 := str f.1 ++ 58 :: f.2

/-- The fields whose values are values. -/
def fieldTexts : Set (List UInt8) := {w | ∃ f, JsonText f.2 ∧ w = fieldText f}

theorem fieldText_injective : Function.Injective fieldText := by
  intro f g h
  obtain ⟨hname, hvalue⟩ := str_unique h
  exact Prod.ext hname (List.cons.inj hvalue).2

theorem fieldText_unique {f g : String × List UInt8} {t u : List UInt8}
    (hread : ReadOff {w | JsonText w} ends f.2) (hg : JsonText g.2) (ht : t ∈ ends) (hu : u ∈ ends)
    (h : fieldText f ++ t = fieldText g ++ u) : f = g ∧ t = u := by
  rw [fieldText, fieldText, List.append_assoc, List.append_assoc] at h
  obtain ⟨hname, hvalue⟩ := str_unique h
  obtain ⟨hvalue, ht⟩ := hread _ hg _ ht _ hu (List.cons.inj hvalue).2
  exact ⟨Prod.ext hname hvalue, ht⟩

theorem arr_unique {items items' : List (List UInt8)} {t u : List UInt8}
    (hitems : ∀ item ∈ items, JsonText item ∧ ReadOff {w | JsonText w} ends item)
    (hitems' : ∀ item ∈ items', JsonText item) (h : arr items ++ t = arr items' ++ u) :
    items = items' ∧ t = u := by
  have hends : (Begins fun b : UInt8 => b = 44 ∨ b = 93) ⊆ ends :=
    Begins.mono fun b hb => hb.elim Or.inl fun hb => Or.inr (Or.inl hb)
  rw [arr, arr, List.cons_append, List.cons_append, List.append_assoc, List.append_assoc,
    commaSep_eq, commaSep_eq] at h
  refine sepBy_unique (S := {w | JsonText w}) (by decide)
    (fun w hw => Begins.mono (fun _ hb => hb.1) hw.begins) (fun item hitem => ?_) hitems'
    (List.cons.inj h).2
  exact ⟨(hitems item hitem).1, (hitems item hitem).2.mono (Set.Subset.refl _) hends⟩

theorem obj_unique {fields fields' : List (String × List UInt8)} {t u : List UInt8}
    (hfields : ∀ f ∈ fields, JsonText f.2 ∧ ReadOff {w | JsonText w} ends f.2)
    (hfields' : ∀ f ∈ fields', JsonText f.2) (h : obj fields ++ t = obj fields' ++ u) :
    fields = fields' ∧ t = u := by
  have hends : (Begins fun b : UInt8 => b = 44 ∨ b = 125) ⊆ ends :=
    Begins.mono fun b hb => hb.elim Or.inl fun hb => Or.inr (Or.inr hb)
  rw [obj, obj, List.cons_append, List.cons_append, List.append_assoc, List.append_assoc,
    commaSep_eq, commaSep_eq] at h
  -- A field begins with a quote, and its name and its value are read off in turn.
  have hfirst : ∀ w ∈ fieldTexts, w ∈ Begins (· ≠ 125) := by
    rintro _ ⟨f, -, rfl⟩
    exact ⟨34, _, rfl, by decide⟩
  have hvs : ∀ v ∈ fields.map fieldText,
      v ∈ fieldTexts ∧ ReadOff fieldTexts (Begins fun b : UInt8 => b = 44 ∨ b = 125) v := by
    intro v hv
    obtain ⟨f, hf, rfl⟩ := List.mem_map.mp hv
    refine ⟨⟨f, (hfields f hf).1, rfl⟩, ?_⟩
    rintro _ ⟨g, hg, rfl⟩ t ht u hu heq
    obtain ⟨rfl, hrest⟩ := fieldText_unique (hfields f hf).2 hg (hends ht) (hends hu) heq
    exact ⟨rfl, hrest⟩
  have hws : ∀ w ∈ fields'.map fieldText, w ∈ fieldTexts := by
    intro w hw
    obtain ⟨f, hf, rfl⟩ := List.mem_map.mp hw
    exact ⟨f, hfields' f hf, rfl⟩
  obtain ⟨hmap, ht⟩ := sepBy_unique (by decide) hfirst hvs hws (List.cons.inj h).2
  exact ⟨List.map_injective_iff.mpr fieldText_injective hmap, ht⟩

/-- A value is read off. -/
theorem JsonText.readOff {v : List UInt8} (hv : JsonText v) : ReadOff {w | JsonText w} ends v := by
  induction hv with
  | null =>
      intro w hw t ht u hu h
      have hkind := congrArg kind h
      cases hw with
      | null => exact ⟨rfl, List.append_cancel_left h⟩
      | _ => simp at hkind
  | bool b =>
      intro w hw t ht u hu h
      have hkind := congrArg kind h
      cases hw with
      | bool b' =>
          obtain rfl : b = b' := by
            rw [bool_eq, bool_eq] at h
            cases b <;> cases b' <;> first | rfl | exact absurd (List.cons.inj h).1 (by decide)
          exact ⟨rfl, List.append_cancel_left h⟩
      | _ => simp at hkind
  | num n =>
      intro w hw t ht u hu h
      have hkind := congrArg kind h
      cases hw with
      | num m => exact num_unique ht hu h
      | _ => simp at hkind
  | str s =>
      intro w hw t ht u hu h
      have hkind := congrArg kind h
      cases hw with
      | str s' =>
          obtain ⟨rfl, ht⟩ := str_unique h
          exact ⟨rfl, ht⟩
      | _ => simp at hkind
  | arr hitems ih =>
      intro w hw t ht u hu h
      have hkind := congrArg kind h
      cases hw with
      | arr hitems' =>
          obtain ⟨rfl, ht⟩ := arr_unique (fun i hi => ⟨hitems i hi, ih i hi⟩) hitems' h
          exact ⟨rfl, ht⟩
      | _ => simp at hkind
  | obj hfields ih =>
      intro w hw t ht u hu h
      have hkind := congrArg kind h
      cases hw with
      | obj hfields' =>
          obtain ⟨rfl, ht⟩ := obj_unique (fun f hf => ⟨hfields f hf, ih f hf⟩) hfields' h
          exact ⟨rfl, ht⟩
      | _ => simp at hkind

/-- The fields of an object are read off. -/
theorem obj_inj {fields fields' : List (String × List UInt8)}
    (hfields : ∀ f ∈ fields, JsonText f.2) (hfields' : ∀ f ∈ fields', JsonText f.2)
    {t u : List UInt8} (h : obj fields ++ t = obj fields' ++ u) : fields = fields' ∧ t = u :=
  obj_unique (fun f hf => ⟨hfields f hf, (hfields f hf).readOff⟩) hfields' h

theorem obj_injective {fields fields' : List (String × List UInt8)}
    (hfields : ∀ f ∈ fields, JsonText f.2) (hfields' : ∀ f ∈ fields', JsonText f.2)
    (h : obj fields = obj fields') : fields = fields' :=
  (obj_inj hfields hfields' (congrArg (· ++ []) h)).1

theorem arr_inj {items items' : List (List UInt8)} (hitems : ∀ item ∈ items, JsonText item)
    (hitems' : ∀ item ∈ items', JsonText item) (h : arr items = arr items') : items = items' :=
  (arr_unique (t := []) (fun i hi => ⟨hitems i hi, (hitems i hi).readOff⟩) hitems'
    (congrArg (· ++ []) h)).1

/-! ### Lines -/

theorem mem_commaSep {items : List (List UInt8)} {b : UInt8} (h : b ∈ commaSep items) :
    b = 44 ∨ ∃ item ∈ items, b ∈ item := by
  induction items with
  | nil => exact absurd h List.not_mem_nil
  | cons item rest ih =>
      cases rest with
      | nil => exact Or.inr ⟨item, List.mem_cons_self, h⟩
      | cons item' rest =>
          rcases List.mem_append.mp h with h | h
          · exact Or.inr ⟨item, List.mem_cons_self, h⟩
          · rcases List.mem_cons.mp h with h | h
            · exact Or.inl h
            · obtain h | ⟨i, hi, hb⟩ := ih h
              · exact Or.inl h
              · exact Or.inr ⟨i, List.mem_cons_of_mem _ hi, hb⟩

theorem printable_str (s : String) : ∀ b ∈ str s, 32 ≤ b := by
  intro b hb
  rcases List.mem_cons.mp hb with rfl | hb
  · decide
  · rcases List.mem_append.mp hb with hb | hb
    · obtain ⟨c, -, hb⟩ := List.mem_flatMap.mp hb
      exact escape_printable c b hb
    · obtain rfl := List.mem_singleton.mp hb
      decide

/-- A value has no control characters. -/
theorem JsonText.printable {v : List UInt8} (h : JsonText v) : ∀ b ∈ v, 32 ≤ b := by
  induction h with
  | null => decide +kernel
  | bool b => cases b <;> decide +kernel
  | num n =>
      intro b hb
      have hdigit := (digit_of_mem_num hb).1
      rw [UInt8.le_iff_toNat_le]
      exact Nat.le_trans (by decide) hdigit
  | str s => exact printable_str s
  | arr _ ih =>
      intro b hb
      rcases List.mem_cons.mp hb with rfl | hb
      · decide
      · rcases List.mem_append.mp hb with hb | hb
        · obtain rfl | ⟨item, hitem, hb⟩ := mem_commaSep hb
          · decide
          · exact ih item hitem b hb
        · obtain rfl := List.mem_singleton.mp hb
          decide
  | obj _ ih =>
      intro b hb
      rcases List.mem_cons.mp hb with rfl | hb
      · decide
      · rcases List.mem_append.mp hb with hb | hb
        · obtain rfl | ⟨_, hfield, hb⟩ := mem_commaSep hb
          · decide
          · obtain ⟨f, hf, rfl⟩ := List.mem_map.mp hfield
            rcases List.mem_append.mp hb with hb | hb
            · exact printable_str f.1 b hb
            · rcases List.mem_cons.mp hb with rfl | hb
              · decide
              · exact ih f hf b hb
        · obtain rfl := List.mem_singleton.mp hb
          decide

/-! ### Bounded values -/

theorem str_asStr_injective {cap : Nat} {s s' : HeaplessString cap}
    (h : str s.asStr = str s'.asStr) : s = s' := by
  obtain ⟨s, hs⟩ := s
  obtain ⟨s', hs'⟩ := s'
  obtain ⟨rfl, -⟩ := str_unique (congrArg (· ++ []) h)
  rfl

theorem jsonText_bytes {cap : Nat} (v : HeaplessVec cap UInt8) : JsonText (bytes v) := by
  refine JsonText.arr fun item hitem => ?_
  obtain ⟨b, -, rfl⟩ := List.mem_map.mp hitem
  exact JsonText.num _

theorem bytes_injective {cap : Nat} {v w : HeaplessVec cap UInt8} (h : bytes v = bytes w) :
    v = w := by
  obtain ⟨v, hv⟩ := v
  obtain ⟨w, hw⟩ := w
  have hitems : ∀ (l : List UInt8), ∀ item ∈ l.map (fun b => num b.toNat), JsonText item := by
    intro l item hitem
    obtain ⟨b, -, rfl⟩ := List.mem_map.mp hitem
    exact JsonText.num _
  have hnum : Function.Injective fun b : UInt8 => num b.toNat := fun b c hbc =>
    UInt8.toNat_inj.mp (num_injective hbc)
  obtain rfl := List.map_injective_iff.mpr hnum (arr_inj (hitems v) (hitems w) h)
  rfl

theorem jsonText_option {α : Type} {toVec : α → List UInt8} (h : ∀ a, JsonText (toVec a))
    (o : Option α) : JsonText (option toVec o) := by
  cases o with
  | none => exact JsonText.null
  | some a => exact h a

/-- No value but `null` has its text. -/
theorem option_injective {α : Type} {toVec : α → List UInt8} (hinj : Function.Injective toVec)
    (hkind : ∀ a, kind (toVec a) ≠ 110) : Function.Injective (option toVec) := by
  have hnull : kind (Utf8.bytes "null") = 110 := by
    rw [bytes_null]
    rfl
  intro o o' h
  cases o with
  | none =>
      cases o' with
      | none => rfl
      | some a =>
          have h : Utf8.bytes "null" = toVec a := h
          exact absurd (h ▸ hnull) (hkind a)
  | some a =>
      cases o' with
      | none =>
          have h : toVec a = Utf8.bytes "null" := h
          exact absurd (h ▸ hnull) (hkind a)
      | some b => exact congrArg some (hinj h)

end Wire

open Wire

/-! ### The wire types -/

attribute [local simp] JsonText.num JsonText.str JsonText.bool jsonText_bytes

/-- The fields of an object are values. -/
def Values (fields : List (String × List UInt8)) : Prop := ∀ f ∈ fields, JsonText f.2

@[simp] theorem values_nil : Values [] := List.forall_mem_nil _

@[simp] theorem values_cons (name : String) (v : List UInt8) (fields : List (String × List UInt8)) :
    Values ((name, v) :: fields) ↔ JsonText v ∧ Values fields := List.forall_mem_cons

/-- Two objects of one type are told apart by their fields. -/
theorem Values.inj {fields fields' : List (String × List UInt8)} (h : Values fields)
    (h' : Values fields') (heq : obj fields = obj fields') : fields = fields' :=
  obj_injective h h' heq

namespace Command

@[simp] theorem jsonText (c : Command) : JsonText c.toVec := by
  cases c with
  | put key value =>
      have hfields : Values [("key", str key.asStr), ("value", bytes value)] := by simp
      exact JsonText.obj (values_cons _ _ _ |>.mpr ⟨JsonText.obj hfields, values_nil⟩)
  | delete key =>
      have hfields : Values [("key", str key.asStr)] := by simp
      exact JsonText.obj (values_cons _ _ _ |>.mpr ⟨JsonText.obj hfields, values_nil⟩)
  | noop => exact JsonText.str _

/-- A command is told by its text. The name of the variant comes first. -/
theorem toVec_injective : Function.Injective toVec := by
  intro c c' h
  -- `Noop` is a string, the others are objects.
  have hnoop : ∀ fields, obj fields ≠ noop.toVec := by
    intro fields heq
    have hkind : (123 : Nat) = 34 := congrArg kind heq
    exact absurd hkind (by decide)
  have hput : ∀ (key : HeaplessString 256) (value : HeaplessVec 1024 UInt8),
      Values [("key", str key.asStr), ("value", bytes value)] := by simp
  have hdelete : ∀ key : HeaplessString 256, Values [("key", str key.asStr)] := by simp
  have hvariant : ∀ (name : String) {fields : List (String × List UInt8)}, Values fields →
      Values [(name, obj fields)] := fun name _ hf =>
    (values_cons _ _ _).mpr ⟨JsonText.obj hf, values_nil⟩
  cases c with
  | put key value =>
      cases c' with
      | put key' value' =>
          have hvalue := Values.inj (hvariant _ (hput key value)) (hvariant _ (hput key' value')) h
          simp only [List.cons.injEq, Prod.mk.injEq, true_and, and_true] at hvalue
          have hfields := Values.inj (hput key value) (hput key' value') hvalue
          simp only [List.cons.injEq, Prod.mk.injEq, true_and, and_true] at hfields
          rw [str_asStr_injective hfields.1, bytes_injective hfields.2]
      | delete key' =>
          have hvalue := Values.inj (hvariant _ (hput key value)) (hvariant _ (hdelete key')) h
          simp at hvalue
      | noop => exact absurd h (hnoop _)
  | delete key =>
      cases c' with
      | put key' value' =>
          have hvalue := Values.inj (hvariant _ (hdelete key)) (hvariant _ (hput key' value')) h
          simp at hvalue
      | delete key' =>
          have hvalue := Values.inj (hvariant _ (hdelete key)) (hvariant _ (hdelete key')) h
          simp only [List.cons.injEq, Prod.mk.injEq, true_and, and_true] at hvalue
          have hfields := Values.inj (hdelete key) (hdelete key') hvalue
          simp only [List.cons.injEq, Prod.mk.injEq, true_and, and_true] at hfields
          rw [str_asStr_injective hfields]
      | noop => exact absurd h (hnoop _)
  | noop =>
      cases c' with
      | noop => rfl
      | _ => exact absurd h.symm (hnoop _)

end Command

namespace LogEntry

@[simp] theorem jsonText (e : LogEntry) : JsonText e.toVec :=
  JsonText.obj (show Values _ by simp)

theorem toVec_injective : Function.Injective toVec := by
  intro e e' h
  have hfields := Values.inj (by simp) (by simp) h
  simp only [List.cons.injEq, Prod.mk.injEq, true_and, and_true] at hfields
  obtain ⟨hindex, hterm, hcommand⟩ := hfields
  cases e
  cases e'
  rw [LogEntry.mk.injEq]
  exact ⟨num_injective hindex, num_injective hterm, Command.toVec_injective hcommand⟩

end LogEntry

namespace AppendEntriesRequest

theorem jsonText_entries (entries : HeaplessVec 64 LogEntry) :
    ∀ item ∈ entries.toVec.map LogEntry.toVec, JsonText item := by
  intro item hitem
  obtain ⟨e, -, rfl⟩ := List.mem_map.mp hitem
  exact e.jsonText

theorem entries_injective {entries entries' : HeaplessVec 64 LogEntry}
    (h : arr (entries.toVec.map LogEntry.toVec) = arr (entries'.toVec.map LogEntry.toVec)) :
    entries = entries' := by
  have hitems := arr_inj (jsonText_entries entries) (jsonText_entries entries') h
  have hentries := List.map_injective_iff.mpr LogEntry.toVec_injective hitems
  cases entries
  cases entries'
  rw [HeaplessVec.mk.injEq]
  exact hentries

theorem values (req : AppendEntriesRequest) :
    Values [("term", num req.term), ("leader_id", str req.leaderId.asStr),
      ("prev_log_index", num req.prevLogIndex), ("prev_log_term", num req.prevLogTerm),
      ("entries", arr (req.entries.toVec.map LogEntry.toVec)),
      ("leader_commit", num req.leaderCommit)] := by
  have hentries := JsonText.arr (jsonText_entries req.entries)
  simp [hentries]

theorem toVec_injective : Function.Injective toVec := by
  intro req req' h
  have hfields := Values.inj req.values req'.values h
  simp only [List.cons.injEq, Prod.mk.injEq, true_and, and_true] at hfields
  obtain ⟨hterm, hleader, hindex, hprev, hentries, hcommit⟩ := hfields
  cases req
  cases req'
  rw [AppendEntriesRequest.mk.injEq]
  exact ⟨num_injective hterm, str_asStr_injective hleader, num_injective hindex,
    num_injective hprev, entries_injective hentries, num_injective hcommit⟩

end AppendEntriesRequest

theorem bool_injective {b b' : Bool} (h : bool b = bool b') : b = b' := by
  rw [bool_eq, bool_eq] at h
  cases b <;> cases b' <;> first | rfl | exact absurd (List.cons.inj h).1 (by decide)

namespace AppendEntriesResponse

theorem values (resp : AppendEntriesResponse) :
    Values [("term", num resp.term), ("success", bool resp.success),
      ("last_log_index", num resp.lastLogIndex), ("node_id", str resp.nodeId.asStr)] := by
  simp

theorem toVec_injective : Function.Injective toVec := by
  intro resp resp' h
  have hfields := Values.inj resp.values resp'.values h
  simp only [List.cons.injEq, Prod.mk.injEq, true_and, and_true] at hfields
  obtain ⟨hterm, hsuccess, hlast, hnode⟩ := hfields
  cases resp
  cases resp'
  rw [AppendEntriesResponse.mk.injEq]
  exact ⟨num_injective hterm, bool_injective hsuccess, num_injective hlast,
    str_asStr_injective hnode⟩

end AppendEntriesResponse

namespace RequestVoteRequest

theorem values (req : RequestVoteRequest) :
    Values [("term", num req.term), ("candidate_id", str req.candidateId.asStr),
      ("last_log_index", num req.lastLogIndex), ("last_log_term", num req.lastLogTerm)] := by
  simp

theorem toVec_injective : Function.Injective toVec := by
  intro req req' h
  have hfields := Values.inj req.values req'.values h
  simp only [List.cons.injEq, Prod.mk.injEq, true_and, and_true] at hfields
  obtain ⟨hterm, hcandidate, hindex, hlast⟩ := hfields
  cases req
  cases req'
  rw [RequestVoteRequest.mk.injEq]
  exact ⟨num_injective hterm, str_asStr_injective hcandidate, num_injective hindex,
    num_injective hlast⟩

end RequestVoteRequest

namespace RequestVoteResponse

theorem values (resp : RequestVoteResponse) :
    Values [("term", num resp.term), ("vote_granted", bool resp.voteGranted),
      ("node_id", str resp.nodeId.asStr)] := by
  simp

theorem toVec_injective : Function.Injective toVec := by
  intro resp resp' h
  have hfields := Values.inj resp.values resp'.values h
  simp only [List.cons.injEq, Prod.mk.injEq, true_and, and_true] at hfields
  obtain ⟨hterm, hgranted, hnode⟩ := hfields
  cases resp
  cases resp'
  rw [RequestVoteResponse.mk.injEq]
  exact ⟨num_injective hterm, bool_injective hgranted, str_asStr_injective hnode⟩

end RequestVoteResponse

namespace ClientRequest

theorem values (req : ClientRequest) :
    Values [("request_id", num req.requestId), ("command", req.command.toVec)] := by
  simp

theorem toVec_injective : Function.Injective toVec := by
  intro req req' h
  have hfields := Values.inj req.values req'.values h
  simp only [List.cons.injEq, Prod.mk.injEq, true_and, and_true] at hfields
  obtain ⟨hid, hcommand⟩ := hfields
  cases req
  cases req'
  rw [ClientRequest.mk.injEq]
  exact ⟨num_injective hid, Command.toVec_injective hcommand⟩

end ClientRequest

namespace ClientResponse

theorem option_str_injective {cap : Nat} :
    Function.Injective (option fun s : HeaplessString cap => str s.asStr) := by
  refine option_injective (fun s s' h => str_asStr_injective h) fun s => ?_
  show (34 : Nat) ≠ 110
  decide

theorem option_bytes_injective {cap : Nat} :
    Function.Injective (option (bytes : HeaplessVec cap UInt8 → List UInt8)) := by
  refine option_injective (fun v w h => bytes_injective h) fun v => ?_
  show (91 : Nat) ≠ 110
  decide

theorem jsonText_option_str {cap : Nat} (o : Option (HeaplessString cap)) :
    JsonText (option (fun s => str s.asStr) o) :=
  jsonText_option (fun _ => JsonText.str _) o

theorem values (resp : ClientResponse) :
    Values [("success", bool resp.success), ("request_id", num resp.requestId),
      ("data", option bytes resp.data), ("error", option (fun s => str s.asStr) resp.error),
      ("leader_id", option (fun s => str s.asStr) resp.leaderId)] := by
  have hdata := jsonText_option jsonText_bytes resp.data
  have herror := jsonText_option_str resp.error
  have hleader := jsonText_option_str resp.leaderId
  simp [hdata, herror, hleader]

theorem toVec_injective : Function.Injective toVec := by
  intro resp resp' h
  have hfields := Values.inj resp.values resp'.values h
  simp only [List.cons.injEq, Prod.mk.injEq, true_and, and_true] at hfields
  obtain ⟨hsuccess, hid, hdata, herror, hleader⟩ := hfields
  cases resp
  cases resp'
  rw [ClientResponse.mk.injEq]
  exact ⟨bool_injective hsuccess, num_injective hid, option_bytes_injective hdata,
    option_str_injective herror, option_str_injective hleader⟩

end ClientResponse

namespace RaftMessage

/-- The name of the variant. -/
def name : RaftMessage → String
  | .appendEntries _ => "AppendEntries"
  | .appendEntriesResponse _ => "AppendEntriesResponse"
  | .requestVote _ => "RequestVote"
  | .requestVoteResponse _ => "RequestVoteResponse"
  | .clientRequest _ => "ClientRequest"
  | .clientResponse _ => "ClientResponse"

/-- The text of what the variant holds. -/
def body : RaftMessage → List UInt8
  | .appendEntries held => held.toVec
  | .appendEntriesResponse held => held.toVec
  | .requestVote held => held.toVec
  | .requestVoteResponse held => held.toVec
  | .clientRequest held => held.toVec
  | .clientResponse held => held.toVec

theorem toVec_eq (m : RaftMessage) : m.toVec = obj [(m.name, m.body)] := by
  cases m <;> rfl

theorem values (m : RaftMessage) : Values [(m.name, m.body)] := by
  refine (values_cons _ _ _).mpr ⟨?_, values_nil⟩
  cases m with
  | appendEntries held => exact JsonText.obj held.values
  | appendEntriesResponse held => exact JsonText.obj held.values
  | requestVote held => exact JsonText.obj held.values
  | requestVoteResponse held => exact JsonText.obj held.values
  | clientRequest held => exact JsonText.obj held.values
  | clientResponse held => exact JsonText.obj held.values

theorem toVec_injective : Function.Injective toVec := by
  intro m m' h
  rw [toVec_eq, toVec_eq] at h
  have hvariant := (List.cons.inj (Values.inj m.values m'.values h)).1
  obtain ⟨hname, hbody⟩ := Prod.mk.inj hvariant
  cases m with
  | appendEntries held =>
      cases m' with
      | appendEntries held' =>
          exact congrArg appendEntries (AppendEntriesRequest.toVec_injective hbody)
      | _ => simp [name] at hname
  | appendEntriesResponse held =>
      cases m' with
      | appendEntriesResponse held' =>
          exact congrArg appendEntriesResponse (AppendEntriesResponse.toVec_injective hbody)
      | _ => simp [name] at hname
  | requestVote held =>
      cases m' with
      | requestVote held' => exact congrArg requestVote (RequestVoteRequest.toVec_injective hbody)
      | _ => simp [name] at hname
  | requestVoteResponse held =>
      cases m' with
      | requestVoteResponse held' =>
          exact congrArg requestVoteResponse (RequestVoteResponse.toVec_injective hbody)
      | _ => simp [name] at hname
  | clientRequest held =>
      cases m' with
      | clientRequest held' => exact congrArg clientRequest (ClientRequest.toVec_injective hbody)
      | _ => simp [name] at hname
  | clientResponse held =>
      cases m' with
      | clientResponse held' => exact congrArg clientResponse (ClientResponse.toVec_injective hbody)
      | _ => simp [name] at hname

end RaftMessage

namespace MessageEnvelope

theorem values (env : MessageEnvelope) :
    Values [("from", str env.sender.asStr), ("to", str env.recipient.asStr),
      ("message", env.message.toVec)] := by
  have hmessage : JsonText env.message.toVec := by
    rw [RaftMessage.toVec_eq]
    exact JsonText.obj env.message.values
  simp [hmessage]

/-- An envelope is read off: its text, with anything behind it, is the text of no other envelope
with something behind it. -/
theorem toVec_append_iff (env env' : MessageEnvelope) (t u : List UInt8) :
    env.toVec ++ t = env'.toVec ++ u ↔ env = env' ∧ t = u := by
  constructor
  · intro h
    obtain ⟨hfields, ht⟩ := obj_inj env.values env'.values h
    simp only [List.cons.injEq, Prod.mk.injEq, true_and, and_true] at hfields
    obtain ⟨hsender, hrecipient, hmessage⟩ := hfields
    refine ⟨?_, ht⟩
    cases env
    cases env'
    rw [MessageEnvelope.mk.injEq]
    exact ⟨str_asStr_injective hsender, str_asStr_injective hrecipient,
      RaftMessage.toVec_injective hmessage⟩
  · rintro ⟨rfl, rfl⟩
    rfl

end MessageEnvelope

end RaftEbpf
