import RaftEbpf.Proofs.WireText
import RaftEbpf.Socket

/-!
# `RaftEbpf.Proofs.SocketText`: one text, one line

A request or a response is JSON, and JSON as it is written here has no control characters
(`JsonText.printable`). So the newline behind it is the first one, and a reader that looks for
newlines finds the texts again (`nextLine_text`). It is UTF-8 as well (`fromUtf8_line`), so that
`read_line` does not fail on it.

A response is told by its text: `IpcResponse.toText_injective`.
-/

set_option autoImplicit false

namespace RaftEbpf

open RaftEbpf.Lib (Utf8.bytes Utf8.fromLossy Utf8.encode Utf8.encode_append Utf8.fromLossy_bytes)
open RaftEbpf.Lib.PrefixCode
open Wire

/-! ### UTF-8 -/

namespace Wire

/-- The bytes of some string. -/
def IsUtf8 (v : List UInt8) : Prop := ∃ cs, v = Utf8.encode cs

theorem IsUtf8.append {v w : List UInt8} (hv : IsUtf8 v) (hw : IsUtf8 w) : IsUtf8 (v ++ w) := by
  obtain ⟨cs, rfl⟩ := hv
  obtain ⟨cs', rfl⟩ := hw
  exact ⟨cs ++ cs', (Utf8.encode_append cs cs').symm⟩

theorem isUtf8_nil : IsUtf8 [] := ⟨[], rfl⟩

/-- An ASCII byte is a character. -/
theorem encode_ascii {b : UInt8} (hb : b < 128) :
    String.utf8EncodeChar (Char.ofNat b.toNat) = [b] := by
  have key : ∀ b : UInt8, b < 128 → String.utf8EncodeChar (Char.ofNat b.toNat) = [b] :=
    forall_uint8 _ (by decide +kernel)
  exact key b hb

theorem isUtf8_of_ascii {v : List UInt8} (h : ∀ b ∈ v, b < 128) : IsUtf8 v := by
  induction v with
  | nil => exact isUtf8_nil
  | cons b v ih =>
      obtain ⟨cs, hcs⟩ := ih fun c hc => h c (List.mem_cons_of_mem _ hc)
      refine ⟨Char.ofNat b.toNat :: cs, ?_⟩
      rw [Lib.Utf8.encode_cons, encode_ascii (h b List.mem_cons_self), ← hcs]
      rfl

theorem IsUtf8.ascii_cons {b : UInt8} {v : List UInt8} (hv : IsUtf8 v) (hb : b < 128) :
    IsUtf8 (b :: v) :=
  IsUtf8.append (isUtf8_of_ascii (v := [b]) fun _ hc => List.mem_singleton.mp hc ▸ hb) hv

theorem isUtf8_bytes (s : String) : IsUtf8 (Utf8.bytes s) := ⟨s.toList, rfl⟩

/-- A character of more than one byte has no ASCII byte. -/
theorem le_of_mem_encode {c : Char} {b : UInt8} (hc : 128 ≤ c.val.toNat)
    (hb : b ∈ String.utf8EncodeChar c) : 128 ≤ b := by
  have hvalid : c.val.toNat < 0xD800 ∨ 0xDFFF < c.val.toNat ∧ c.val.toNat < 0x110000 := c.valid
  rw [UInt8.le_iff_toNat_le]
  rw [String.utf8EncodeChar] at hb
  split at hb
  · omega
  · split at hb
    · simp only [List.mem_cons, List.not_mem_nil, or_false] at hb
      rcases hb with rfl | rfl <;> simp only [UInt8.toNat_ofNat', UInt8.reduceToNat] <;> omega
    · split at hb
      · simp only [List.mem_cons, List.not_mem_nil, or_false] at hb
        rcases hb with rfl | rfl | rfl <;> simp only [UInt8.toNat_ofNat', UInt8.reduceToNat] <;>
          omega
      · simp only [List.mem_cons, List.not_mem_nil, or_false] at hb
        rcases hb with rfl | rfl | rfl | rfl <;>
          simp only [UInt8.toNat_ofNat', UInt8.reduceToNat] <;> omega

theorem escape_ascii : ∀ b : UInt8, b < 128 → ∀ c ∈ escape b, c < 128 :=
  forall_uint8 _ (by decide +kernel)

theorem escape_of_le : ∀ b : UInt8, 128 ≤ b → escape b = [b] :=
  forall_uint8 _ (by decide +kernel)

/-- Escaping leaves a character whole, or what stands for it is ASCII. -/
theorem isUtf8_escape (c : Char) : IsUtf8 ((String.utf8EncodeChar c).flatMap escape) := by
  rcases Nat.lt_or_ge c.val.toNat 128 with hc | hc
  · have hsingle : String.utf8EncodeChar c = [UInt8.ofNat c.val.toNat] := by
      rw [String.utf8EncodeChar]
      exact if_pos (by omega)
    rw [hsingle, List.flatMap_singleton]
    refine isUtf8_of_ascii (escape_ascii _ ?_)
    rw [UInt8.lt_iff_toNat_lt, UInt8.toNat_ofNat']
    show c.val.toNat % 256 < 128
    omega
  · have hsame : ∀ v : List UInt8, (∀ b ∈ v, 128 ≤ b) → v.flatMap escape = v := by
      intro v
      induction v with
      | nil => exact fun _ => rfl
      | cons b v ih =>
          intro hv
          rw [List.flatMap_cons, escape_of_le b (hv b List.mem_cons_self),
            ih fun b' hb' => hv b' (List.mem_cons_of_mem _ hb')]
          rfl
    rw [hsame _ fun b hb => le_of_mem_encode hc hb]
    exact ⟨[c], (List.append_nil _).symm⟩

theorem isUtf8_str (s : String) : IsUtf8 (str s) := by
  have hchars : ∀ cs : List Char, IsUtf8 ((Utf8.encode cs).flatMap escape) := by
    intro cs
    induction cs with
    | nil => exact isUtf8_nil
    | cons c cs ih =>
        rw [Lib.Utf8.encode_cons, List.flatMap_append]
        exact (isUtf8_escape c).append ih
  exact ((hchars s.toList).append (isUtf8_nil.ascii_cons (by decide))).ascii_cons (by decide)

theorem isUtf8_commaSep {items : List (List UInt8)} (h : ∀ item ∈ items, IsUtf8 item) :
    IsUtf8 (commaSep items) := by
  induction items with
  | nil => exact isUtf8_nil
  | cons item rest ih =>
      have hitem := h item List.mem_cons_self
      have hrest := ih fun i hi => h i (List.mem_cons_of_mem _ hi)
      cases rest with
      | nil => exact hitem
      | cons item' rest => exact hitem.append (hrest.ascii_cons (by decide))

/-- The text of a value is UTF-8. -/
theorem JsonText.isUtf8 {v : List UInt8} (h : JsonText v) : IsUtf8 v := by
  induction h with
  | null => exact isUtf8_bytes _
  | bool b => exact isUtf8_bytes _
  | num n =>
      refine isUtf8_of_ascii fun b hb => ?_
      have hdigit := (digit_of_mem_num hb).2
      rw [UInt8.lt_iff_toNat_lt]
      exact Nat.lt_of_le_of_lt hdigit (by decide)
  | str s => exact isUtf8_str s
  | arr _ ih =>
      exact ((isUtf8_commaSep ih).append (isUtf8_nil.ascii_cons (by decide))).ascii_cons
        (by decide)
  | @obj fields _ ih =>
      have hfields : IsUtf8 (commaSep (fields.map fun f => Wire.str f.1 ++ 58 :: f.2)) := by
        refine isUtf8_commaSep fun item hitem => ?_
        obtain ⟨f, hf, rfl⟩ := List.mem_map.mp hitem
        exact (isUtf8_str f.1).append ((ih f hf).ascii_cons (by decide))
      exact (hfields.append (isUtf8_nil.ascii_cons (by decide))).ascii_cons (by decide)

end Wire

/-- A text and its newline are read as a string. -/
theorem fromUtf8_line {v : List UInt8} (h : JsonText v) :
    fromUtf8 (v ++ [newline]) = some (Utf8.fromLossy (v ++ [newline])) := by
  obtain ⟨cs, hcs⟩ := h.isUtf8.append (isUtf8_nil.ascii_cons (b := newline) (by decide))
  have hbytes : v ++ [newline] = Utf8.bytes (String.ofList cs) := by
    rw [Utf8.bytes, String.toList_ofList]
    exact hcs
  rw [fromUtf8, hbytes, Utf8.fromLossy_bytes, if_pos rfl]

/-! ### Lines -/

/-- A text has no newline in it. -/
theorem Wire.JsonText.newline_notMem {v : List UInt8} (h : JsonText v) : newline ∉ v :=
  fun hmem => absurd (h.printable newline hmem) (by decide)

/-- What is read as a line ends in the first newline. -/
theorem nextLine_eq_some {buf line rest : List UInt8} (h : nextLine buf = some (line, rest)) :
    ∃ v, newline ∉ v ∧ line = v ++ [newline] ∧ buf = line ++ rest := by
  rw [nextLine] at h
  split at h
  · cases h
  · rename_i b rest' hdrop
    obtain ⟨rfl, rfl⟩ := Prod.mk.inj (Option.some.inj h)
    have hb : b = newline := by
      have hhead := List.head?_dropWhile_not (fun b => decide (b ≠ newline)) buf
      rw [hdrop] at hhead
      exact not_not.mp (of_decide_eq_false hhead)
    subst hb
    refine ⟨_, fun hmem => ?_, rfl, ?_⟩
    · have hne := List.mem_takeWhile_imp hmem
      exact absurd rfl (of_decide_eq_true hne)
    · have hsplit := List.takeWhile_append_dropWhile (p := fun b => decide (b ≠ newline)) (l := buf)
      rw [hdrop] at hsplit
      rw [List.append_assoc]
      exact hsplit.symm

/-- A buffer without a newline waits. -/
theorem nextLine_eq_none {buf : List UInt8} (h : newline ∉ buf) : nextLine buf = none := by
  cases hline : nextLine buf with
  | none => rfl
  | some p =>
      obtain ⟨v, -, hv, hbuf⟩ := nextLine_eq_some hline
      exact absurd (hbuf ▸ List.mem_append_left _ (hv ▸ List.mem_append_right _
        List.mem_cons_self)) h

/-- Where a text and its newline are on their way, the line that is read is this one. -/
theorem nextLine_text {v buf more line rest : List UInt8} (hv : newline ∉ v)
    (hbuf : buf ++ more = v ++ [newline]) (h : nextLine buf = some (line, rest)) :
    line = v ++ [newline] ∧ rest = [] ∧ more = [] := by
  obtain ⟨w, hw, rfl, rfl⟩ := nextLine_eq_some h
  have hne : ∀ {l : List UInt8}, newline ∉ l → ∀ b ∈ l, b ≠ newline := by
    intro l hl b hb heq
    exact hl (heq ▸ hb)
  have hfollow : ∀ r : List UInt8, newline :: r ∈ Begins fun b => ¬b ≠ newline :=
    fun r => ⟨newline, r, rfl, not_not.mpr rfl⟩
  -- Both ways to read it stop at the first newline.
  have hsame : w ++ newline :: (rest ++ more) = v ++ newline :: [] := by
    rw [← hbuf, List.append_assoc, List.append_assoc]
    rfl
  obtain ⟨rfl, hrest⟩ := span_unique (hne hw) (hne hv) (hfollow _) (hfollow _) hsame
  obtain ⟨rfl, rfl⟩ := List.append_eq_nil_iff.mp (List.cons.inj hrest).2
  exact ⟨rfl, rfl, rfl⟩

/-- A whole line is there. -/
theorem nextLine_line {v : List UInt8} (hv : newline ∉ v) :
    nextLine (v ++ [newline]) = some (v ++ [newline], []) := by
  cases hline : nextLine (v ++ [newline]) with
  | some p =>
      obtain ⟨hline', hrest, -⟩ := nextLine_text hv (List.append_nil _) hline
      exact congrArg some (Prod.ext hline' hrest)
  | none =>
      rw [nextLine] at hline
      split at hline
      · rename_i hdrop
        have hall := List.dropWhile_eq_nil_iff.mp hdrop newline
          (List.mem_append_right _ List.mem_cons_self)
        exact absurd rfl (of_decide_eq_true hall)
      · cases hline

/-! ### Values -/

namespace Json

mutual

@[simp] theorem jsonText : ∀ v : Json, JsonText v.toText
  | .null => JsonText.null
  | .bool b => JsonText.bool b
  | .num n => JsonText.num n
  | .str s => JsonText.str s
  | .arr items => JsonText.arr (jsonText_items items)
  | .obj fields => JsonText.obj (jsonText_fields fields)

theorem jsonText_items : ∀ items : List Json, ∀ item ∈ itemTexts items, JsonText item
  | [], _, h => absurd h List.not_mem_nil
  | v :: vs, item, h => by
      rw [itemTexts] at h
      rcases List.mem_cons.mp h with rfl | h
      · exact jsonText v
      · exact jsonText_items vs item h

theorem jsonText_fields :
    ∀ fields : List (String × Json), ∀ f ∈ fieldTexts fields, JsonText f.2
  | [], _, h => absurd h List.not_mem_nil
  | (name, v) :: fields, f, h => by
      rw [fieldTexts] at h
      rcases List.mem_cons.mp h with rfl | h
      · exact jsonText v
      · exact jsonText_fields fields f h

end

mutual

/-- A value is told by its text. -/
theorem toText_inj {v w : Json} (h : v.toText = w.toText) : v = w := by
  -- The first byte says which form it has.
  have hkind := congrArg (fun t => kind (t ++ [44])) h
  cases v with
  | null =>
      cases w with
      | null => rfl
      | _ => simp [toText] at hkind
  | bool b =>
      cases w with
      | bool b' => exact congrArg Json.bool (bool_injective h)
      | _ => simp [toText] at hkind
  | num n =>
      cases w with
      | num n' => exact congrArg Json.num (num_injective h)
      | _ => simp [toText] at hkind
  | str s =>
      cases w with
      | str s' => exact congrArg Json.str (str_unique (congrArg (· ++ []) h)).1
      | _ => simp [toText] at hkind
  | arr items =>
      cases w with
      | arr items' =>
          have hitems := arr_inj (jsonText_items items) (jsonText_items items') h
          exact congrArg Json.arr (itemTexts_inj hitems)
      | _ => simp [toText] at hkind
  | obj fields =>
      cases w with
      | obj fields' =>
          have hfields := obj_injective (jsonText_fields fields) (jsonText_fields fields') h
          exact congrArg Json.obj (fieldTexts_inj hfields)
      | _ => simp [toText] at hkind

theorem itemTexts_inj : ∀ {vs ws : List Json}, itemTexts vs = itemTexts ws → vs = ws
  | [], [], _ => rfl
  | v :: vs, w :: ws, h => by
      rw [itemTexts, itemTexts] at h
      obtain ⟨hv, hvs⟩ := List.cons.inj h
      rw [toText_inj hv, itemTexts_inj hvs]

theorem fieldTexts_inj :
    ∀ {fs gs : List (String × Json)}, fieldTexts fs = fieldTexts gs → fs = gs
  | [], [], _ => rfl
  | (name, v) :: fs, (name', w) :: gs, h => by
      rw [fieldTexts, fieldTexts] at h
      obtain ⟨hf, hfs⟩ := List.cons.inj h
      obtain ⟨hname, hv⟩ := Prod.mk.inj hf
      rw [hname, toText_inj hv, fieldTexts_inj hfs]

end

end Json

theorem IpcRequest.jsonText (req : IpcRequest) : JsonText req.toText := by
  have hnum : ∀ o : Option Nat, JsonText (option num o) := jsonText_option JsonText.num
  have hstr : ∀ o : Option String, JsonText (option str o) := jsonText_option JsonText.str
  have hvariant : ∀ (name : String) {fields : List (String × List UInt8)}, Values fields →
      JsonText (obj [(name, obj fields)]) := fun name _ hf =>
    JsonText.obj ((values_cons _ _ _).mpr ⟨JsonText.obj hf, values_nil⟩)
  cases req with
  | status => exact JsonText.str _
  | _ => exact hvariant _ (by simp [hnum, hstr, JsonText.str])

namespace IpcResponse

theorem values (resp : IpcResponse) :
    Values ([("success", bool resp.success), ("message", str resp.message)] ++
      resp.data.toList.map fun v => ("data", v.toText)) := by
  cases hdata : resp.data with
  | none => simp [JsonText.bool, JsonText.str]
  | some v => simp [JsonText.bool, JsonText.str]

theorem jsonText (resp : IpcResponse) : JsonText resp.toText := JsonText.obj resp.values

/-- A response is told by its text. -/
theorem toText_injective : Function.Injective toText := by
  intro resp resp' h
  have hfields := Values.inj resp.values resp'.values h
  simp only [List.cons_append, List.nil_append, List.cons.injEq, Prod.mk.injEq, true_and] at hfields
  obtain ⟨hsuccess, hmessage, hdata⟩ := hfields
  have htext : Function.Injective fun v : Json => ("data", v.toText) :=
    fun v w hvw => Json.toText_inj (Prod.mk.inj hvw).2
  cases resp
  cases resp'
  rw [IpcResponse.mk.injEq]
  refine ⟨bool_injective hsuccess, (str_unique (congrArg (· ++ []) hmessage)).1, ?_⟩
  have hlist := List.map_injective_iff.mpr htext hdata
  exact Option.ext fun v => by rw [← Option.mem_toList, hlist, Option.mem_toList]

end IpcResponse

end RaftEbpf
