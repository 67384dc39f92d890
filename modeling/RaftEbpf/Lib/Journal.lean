import Mathlib.Data.List.Basic

/-!
# `RaftEbpf.Lib.Journal`: files of one record a line

A journal holds records, each encoded on a line of its own. `lines` splits bytes into lines
as a buffered line reader does: the part behind the last newline is a line too, unless it
is empty. `Format.read` decodes each line that is not empty, and fails at the first that
does not parse.

* `Format.read_text`: what was written reads back.
* `Format.read_text_append`: the part behind the last newline is read as one more record.
* `Format.take_text`: the first bytes of a journal are some of its records and a part of the
  next line, which ends in no newline.

The assumptions on an encoding are properties of their own (`RoundTrips`, `OneLine`,
`RejectsCuts`, `RejectsJoins`), so that each result names the ones it needs.
-/

set_option autoImplicit false

namespace RaftEbpf.Lib

abbrev Bytes : Type := List UInt8

namespace Journal

/-- The byte `\n`. -/
def newline : UInt8 := 10

/-- The byte `\r`. -/
def carriageReturn : UInt8 := 13

/-- A line in front of a newline loses a carriage return at its end. -/
def stripCr (line : Bytes) : Bytes :=
  if line.getLast? = some carriageReturn then line.dropLast else line

/-- The lines of a file, where `acc` is what the current line has so far. -/
def linesFrom (acc : Bytes) : Bytes → List Bytes
  | [] => if acc = [] then [] else [acc]
  | b :: rest =>
      if b = newline then stripCr acc :: linesFrom [] rest else linesFrom (acc ++ [b]) rest

/-- The lines of a file. -/
def lines (file : Bytes) : List Bytes := linesFrom [] file

/-- Bytes without a newline only extend the current line. -/
theorem linesFrom_append {p : Bytes} (hp : ∀ b ∈ p, b ≠ newline) (acc rest : Bytes) :
    linesFrom acc (p ++ rest) = linesFrom (acc ++ p) rest := by
  induction p generalizing acc with
  | nil => simp
  | cons b p ih =>
      have hb : b ≠ newline := hp b List.mem_cons_self
      rw [List.cons_append, linesFrom, if_neg hb,
        ih (fun d hd => hp d (List.mem_cons_of_mem _ hd)), List.append_assoc]
      rfl

end Journal

open Journal

/-- An encoding of records as bytes. -/
structure Format (ρ : Type) where
  encode : ρ → Bytes
  decode : Bytes → Option ρ

namespace Format

variable {ρ : Type} (f : Format ρ)

/-- What is encoded decodes. -/
def RoundTrips : Prop := ∀ r, f.decode (f.encode r) = some r

/-- An encoded record is not empty and has no line break in it. -/
def OneLine : Prop := ∀ r, f.encode r ≠ [] ∧ ∀ b ∈ f.encode r, b ≠ newline ∧ b ≠ carriageReturn

/-- A record cut short does not decode. -/
def RejectsCuts : Prop := ∀ r p, p <+: f.encode r → p ≠ f.encode r → f.decode p = none

/-- A record behind some bytes of another one does not decode. -/
def RejectsJoins : Prop :=
  ∀ r r' p, p <+: f.encode r → p ≠ [] → f.decode (p ++ f.encode r') = none

/-- The journal of these records. -/
def text (rs : List ρ) : Bytes := rs.flatMap fun r => f.encode r ++ [newline]

/-- The records of the lines that are not empty. `none`: one of them does not decode. -/
def readLines : List Bytes → Option (List ρ)
  | [] => some []
  | line :: rest =>
      if line = [] then readLines rest
      else
        match f.decode line with
        | none => none
        | some r => (readLines rest).map (r :: ·)

/-- The records of a file. -/
def read (file : Bytes) : Option (List ρ) := f.readLines (lines file)

@[simp] theorem text_nil : f.text [] = [] := rfl

@[simp] theorem text_append (rs rs' : List ρ) : f.text (rs ++ rs') = f.text rs ++ f.text rs' :=
  List.flatMap_append

theorem text_cons (r : ρ) (rs : List ρ) :
    f.text (r :: rs) = f.encode r ++ newline :: f.text rs := by
  rw [text, List.flatMap_cons, List.append_assoc]
  rfl

variable {f}

/-- A line without line breaks is the first of the file, and nothing is stripped from it. -/
theorem lines_append_newline {q : Bytes} (hq : ∀ b ∈ q, b ≠ newline ∧ b ≠ carriageReturn)
    (rest : Bytes) : lines (q ++ newline :: rest) = q :: lines rest := by
  have hstrip : stripCr q = q := by
    rw [stripCr, if_neg]
    intro hlast
    exact (hq _ (List.mem_of_getLast? hlast)).2 rfl
  rw [lines, linesFrom_append fun b hb => (hq b hb).1, List.nil_append, linesFrom, if_pos rfl,
    hstrip]
  rfl

/-- The records of a journal, and then those of what follows it. -/
theorem read_text_append_rest (hr : f.RoundTrips) (hl : f.OneLine) (rs : List ρ) (rest : Bytes) :
    f.read (f.text rs ++ rest) = (f.read rest).map (rs ++ ·) := by
  induction rs with
  | nil => simp
  | cons r rs ih =>
      obtain ⟨hne, hbreak⟩ := hl r
      have hlines : lines (f.text (r :: rs) ++ rest)
          = f.encode r :: lines (f.text rs ++ rest) := by
        rw [text_cons, List.append_assoc, List.cons_append, lines_append_newline hbreak]
      rw [read, hlines, readLines, if_neg hne, hr r]
      have ih' : f.readLines (lines (f.text rs ++ rest)) = (f.read rest).map (rs ++ ·) := ih
      rw [ih']
      cases f.read rest with
      | none => rfl
      | some rs' => rfl

/-- What was written reads back. -/
theorem read_text (hr : f.RoundTrips) (hl : f.OneLine) (rs : List ρ) :
    f.read (f.text rs) = some rs := by
  have h := read_text_append_rest hr hl rs []
  rw [List.append_nil] at h
  rw [h]
  simp [read, lines, linesFrom, readLines]

/-- Bytes behind the last newline are read as one more record. -/
theorem read_text_append (hr : f.RoundTrips) (hl : f.OneLine) (rs : List ρ) {p : Bytes}
    (hp : ∀ b ∈ p, b ≠ newline) (hne : p ≠ []) :
    f.read (f.text rs ++ p) = (f.decode p).map fun r => rs ++ [r] := by
  rw [read_text_append_rest hr hl]
  have hlines : lines p = [p] := by
    have h := linesFrom_append hp [] []
    rw [List.append_nil, List.nil_append, linesFrom, if_neg hne] at h
    exact h
  rw [read, hlines, readLines, if_neg hne]
  cases f.decode p with
  | none => rfl
  | some r => rfl

/-- A line that does not decode makes the whole file unreadable. -/
theorem read_line_eq_none {q : Bytes} (hq : ∀ b ∈ q, b ≠ newline ∧ b ≠ carriageReturn)
    (hne : q ≠ []) (hdec : f.decode q = none) (rest : Bytes) :
    f.read (q ++ newline :: rest) = none := by
  rw [read, lines_append_newline hq, readLines, if_neg hne, hdec]

/-- The first bytes of a journal: some whole records, and a part of the next line that ends
in no newline. -/
theorem take_text (rs : List ρ) (k : Nat) :
    ∃ j p, (f.text rs).take k = f.text (rs.take j) ++ p ∧
      (p = [] ∨ ∃ r, rs[j]? = some r ∧ p ≠ [] ∧ p <+: f.encode r) := by
  induction rs generalizing k with
  | nil => exact ⟨0, [], by simp, Or.inl rfl⟩
  | cons r rs ih =>
      rw [text_cons]
      rcases Nat.lt_or_ge (f.encode r).length k with hk | hk
      · -- The line of `r` is there with its newline.
        obtain ⟨j, p, htake, hp⟩ := ih (k - (f.encode r).length - 1)
        refine ⟨j + 1, p, ?_, by simpa using hp⟩
        obtain ⟨k', rfl⟩ : ∃ k', k = (f.encode r).length + (k' + 1) :=
          ⟨k - (f.encode r).length - 1, by omega⟩
        rw [show (f.encode r).length + (k' + 1) - (f.encode r).length - 1 = k' by omega] at htake
        rw [List.take_length_add_append, List.take_succ_cons, htake, List.take_succ_cons,
          text_cons, List.append_assoc]
        rfl
      · refine ⟨0, (f.encode r).take k, ?_, ?_⟩
        · rw [List.take_append_of_le_length hk]
          rfl
        · by_cases hnil : (f.encode r).take k = []
          · exact Or.inl hnil
          · exact Or.inr ⟨r, rfl, hnil, List.take_prefix k _⟩

/-- The bytes of whole records are none, or they end in a newline. -/
theorem text_eq_nil_or_getLast? (rs : List ρ) :
    f.text rs = [] ∨ (f.text rs).getLast? = some newline := by
  rcases List.eq_nil_or_concat rs with rfl | ⟨rs, r, rfl⟩
  · exact Or.inl rfl
  · right
    rw [List.concat_eq_append, text_append, text_cons, text_nil, ← List.append_assoc]
    simp

end Format

end RaftEbpf.Lib
