import Mathlib.Algebra.Group.Nat.Defs
import Mathlib.Data.List.Basic

/-!
# `RaftEbpf.Heapless`: fixed-capacity strings and vectors, and `u64` counters

The wire types hold `heapless::String<N>` and `heapless::Vec<T, N>`. Both carry their bound
as a proof, so a value over capacity cannot be built. `HeaplessString.pushStr` is the idiom
`let mut hs = heapless::String::new(); let _ = hs.push_str(s);` of the source: `push_str`
on an over-long argument fails and leaves the string empty, and the result is ignored.

Counters are `Nat`. The only operation on them that can leave `u64` is `+ 1`, spelled
`addOne`, which wraps as the release profile does.
-/

set_option autoImplicit false

namespace RaftEbpf

/-- `heapless::String<N>`: at most `cap` bytes of UTF-8. `asStr` is `as_str`. -/
structure HeaplessString (cap : Nat) where
  asStr : String
  fits : asStr.utf8ByteSize ≤ cap
  deriving DecidableEq

namespace HeaplessString

/-- A new string after one `push_str` whose error is ignored: an argument over capacity
leaves it empty. -/
def pushStr (cap : Nat) (s : String) : HeaplessString cap :=
  if h : s.utf8ByteSize ≤ cap then ⟨s, h⟩ else ⟨"", Nat.zero_le cap⟩

/-- A string within capacity comes back unchanged. -/
theorem asStr_pushStr {cap : Nat} {s : String} (h : s.utf8ByteSize ≤ cap) :
    (pushStr cap s).asStr = s := by
  rw [pushStr, dif_pos h]

/-- A bounded string is what one push of its own text builds. -/
@[simp] theorem pushStr_asStr {cap : Nat} (hs : HeaplessString cap) :
    pushStr cap hs.asStr = hs :=
  dif_pos hs.fits

end HeaplessString

/-- `heapless::Vec<T, N>`: at most `cap` elements. `toVec` is `to_vec`. -/
structure HeaplessVec (cap : Nat) (α : Type) where
  toVec : List α
  fits : toVec.length ≤ cap
  deriving DecidableEq

namespace HeaplessVec

/-- `.into_iter().take(N).collect()`, and the loop `for b in xs { let _ = v.push(b); }`
whose pushes over capacity are dropped: both keep the first `cap` elements. -/
def collectTake (cap : Nat) {α : Type} (l : List α) : HeaplessVec cap α :=
  ⟨l.take cap, by rw [List.length_take]; exact Nat.min_le_left _ _⟩

/-- What fits is kept whole. -/
@[simp] theorem collectTake_toVec {cap : Nat} {α : Type} (v : HeaplessVec cap α) :
    collectTake cap v.toVec = v := by
  obtain ⟨l, h⟩ := v
  simp only [collectTake, HeaplessVec.mk.injEq]
  exact List.take_of_length_le h

end HeaplessVec

/-- `u64::MAX`. -/
def u64Max : Nat := 2 ^ 64 - 1

/-- `x + 1` on a `u64`, wrapping. -/
def addOne (x : Nat) : Nat := (x + 1) % 2 ^ 64

/-- Short of `u64::MAX` the increment does not wrap. -/
theorem addOne_of_lt {x : Nat} (h : x < u64Max) : addOne x = x + 1 := by
  unfold u64Max at h
  exact Nat.mod_eq_of_lt (by omega)

end RaftEbpf
