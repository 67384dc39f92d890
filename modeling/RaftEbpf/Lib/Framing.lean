import Mathlib.Data.List.Basic

/-!
# `RaftEbpf.Lib.Framing`: frames in a stream that arrives in pieces

A `Scanner` looks at the start of a buffer and finds a frame there, or finds that there can be
none, or needs more input. `drain` takes all frames off a buffer, and `feed` does so each time
another piece of the stream has arrived.

What comes out does not depend on the pieces: `feed_eq_drain`. The reason is that a decision of the
scanner stands whatever follows (`frame_append`, `bad_append`), so draining a buffer early and
going on with the rest is draining it late (`drain_append`).
-/

set_option autoImplicit false

namespace RaftEbpf.Lib

/-- What stands at the start of a buffer. -/
inductive Scan (α β : Type) where
  /-- Not enough input to tell. -/
  | more
  | frame (a : α) (rest : List β)
  /-- No frame can begin like this. -/
  | bad

/-- A scan whose decisions stand. -/
structure Scanner (α β : Type) where
  scan : List β → Scan α β
  length_lt : ∀ {buf a rest}, scan buf = .frame a rest → rest.length < buf.length
  frame_append : ∀ {buf a rest}, scan buf = .frame a rest →
    ∀ next, scan (buf ++ next) = .frame a (rest ++ next)
  bad_append : ∀ {buf}, scan buf = .bad → ∀ next, scan (buf ++ next) = .bad

namespace Scanner

variable {α β : Type} (s : Scanner α β)

/-- The frames at the start of a buffer, and what is left. `none`: what is left is bad. -/
def drain (buf : List β) : List α × Option (List β) :=
  match h : s.scan buf with
  | .more => ([], some buf)
  | .frame a rest => (a :: (drain rest).1, (drain rest).2)
  | .bad => ([], none)
  termination_by buf.length
  decreasing_by all_goals exact s.length_lt h

/-- The frames that come out while pieces of a stream arrive behind a buffer, and what is left.
Behind bad input nothing more is taken. -/
def feed : List β → List (List β) → List α × Option (List β)
  | buf, [] => ([], some buf)
  | buf, piece :: pieces =>
      match s.drain (buf ++ piece) with
      | (frames, some rest) => (frames ++ (feed rest pieces).1, (feed rest pieces).2)
      | (frames, none) => (frames, none)

variable {s} {buf next : List β}

theorem drain_more (h : s.scan buf = .more) : s.drain buf = ([], some buf) := by
  rw [drain]
  split
  · rfl
  · rename_i hframe
    rw [h] at hframe
    cases hframe
  · rename_i hbad
    rw [h] at hbad
    cases hbad

theorem drain_frame {a : α} {rest : List β} (h : s.scan buf = .frame a rest) :
    s.drain buf = (a :: (s.drain rest).1, (s.drain rest).2) := by
  rw [drain]
  split
  · rename_i hmore
    rw [h] at hmore
    cases hmore
  · rename_i a' rest' hframe
    rw [h] at hframe
    obtain ⟨rfl, rfl⟩ := Scan.frame.inj hframe
    rfl
  · rename_i hbad
    rw [h] at hbad
    cases hbad

theorem drain_bad (h : s.scan buf = .bad) : s.drain buf = ([], none) := by
  rw [drain]
  split
  · rename_i hmore
    rw [h] at hmore
    cases hmore
  · rename_i hframe
    rw [h] at hframe
    cases hframe
  · rfl

/-- What is left behind begins with no frame. -/
theorem scan_of_drain {frames : List α} {rest : List β} :
    s.drain buf = (frames, some rest) → s.scan rest = .more := by
  induction buf using (measure List.length).wf.induction generalizing frames with
  | _ buf ih =>
      intro h
      cases hscan : s.scan buf with
      | more =>
          rw [drain_more hscan] at h
          obtain ⟨-, hrest⟩ := Prod.mk.inj h
          rw [← Option.some.inj hrest]
          exact hscan
      | frame a rest' =>
          rw [drain_frame hscan] at h
          obtain ⟨-, hrest⟩ := Prod.mk.inj h
          exact ih rest' (s.length_lt hscan) (Prod.ext rfl hrest)
      | bad =>
          rw [drain_bad hscan] at h
          cases h

/-- Draining a buffer and going on with what is left behind it. -/
theorem drain_append (next : List β) :
    s.drain (buf ++ next) =
      match s.drain buf with
      | (frames, some rest) => (frames ++ (s.drain (rest ++ next)).1, (s.drain (rest ++ next)).2)
      | (frames, none) => (frames, none) := by
  -- Induction on the length of the buffer: a frame at its start is one of the longer buffer too.
  induction buf using (measure List.length).wf.induction with
  | _ buf ih =>
      cases hscan : s.scan buf with
      | more =>
          rw [drain_more hscan]
          rfl
      | frame a rest =>
          rw [drain_frame hscan, drain_frame (s.frame_append hscan next),
            ih rest (s.length_lt hscan)]
          generalize s.drain rest = r
          rcases r with ⟨frames, _ | rest'⟩
          · rfl
          · rfl
      | bad => rw [drain_bad hscan, drain_bad (s.bad_append hscan next)]

/-- However a stream is cut, the frames are those of the whole. -/
theorem feed_eq_drain {pieces : List (List β)} (h : s.scan buf = .more) :
    s.feed buf pieces = s.drain (buf ++ pieces.flatten) := by
  induction pieces generalizing buf with
  | nil => rw [List.flatten_nil, List.append_nil, drain_more h, feed]
  | cons piece pieces ih =>
      rw [List.flatten_cons, ← List.append_assoc, drain_append, feed]
      cases hdrain : s.drain (buf ++ piece) with
      | mk frames rest =>
          cases rest with
          | none => rfl
          | some rest =>
              show (frames ++ (s.feed rest pieces).1, (s.feed rest pieces).2) = _
              rw [ih (scan_of_drain hdrain)]

end Scanner

end RaftEbpf.Lib
