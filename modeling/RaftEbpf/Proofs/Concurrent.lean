import RaftEbpf.Interleaving
import RaftEbpf.Lib.RelyGuarantee
import RaftEbpf.Proofs.Neutral

/-!
# `RaftEbpf.Proofs.Concurrent`: the node's primitives under rely-guarantee

One rule for each primitive of `RaftEbpf.Node` in front of the rest of a task, for any
discipline around the log mutex. The other locks play no part: a discipline is about what
the log mutex protects, and about the role, which it does not protect.
-/

set_option autoImplicit false

namespace RaftEbpf.RaftNode

open RaftEbpf.Lib

section Rules
variable {D : Discipline Lock RaftNode Output WriteResult Site} {held : Bool} {memo : List Output}
  {α β : Type} {Q : β → Bool → List Output → World RaftNode Output → Prop}
  {w : World RaftNode Output}

/-- The log mutex is taken: the invariant holds, and the site finds what it says. -/
theorem safe_lockLog (hD : D.mutex = .log) {site : Site} {f : Unit → NodeProg β}
    (h : ∀ w', D.rely false w w' → D.site site memo w'.state → D.inv w' →
      (f ()).Safe D true memo Q w') : (lockAt .log site >>= f).Safe D false memo Q w := by
  intro w' hw hs
  rw [if_pos hD.symm]
  exact ⟨rfl, fun _ hinv => h w' hw hs hinv⟩

/-- The log mutex is dropped: the invariant holds. -/
theorem safe_unlockLog (hD : D.mutex = .log) {f : Unit → NodeProg β}
    (h : ∀ w', D.rely held w w' → (held = true → D.inv w') ∧ (f ()).Safe D false memo Q w') :
    (unlock .log >>= f).Safe D held memo Q w := by
  intro w' hw
  rw [if_pos hD.symm]
  exact h w' hw

/-- Another lock. -/
theorem safe_lock (hD : D.mutex = .log) {l : Lock} (hl : l ≠ .log) {f : Unit → NodeProg β}
    (h : (f ()).Safe D held memo Q w) : (lock l >>= f).Safe D held memo Q w := by
  intro w' hw _
  rw [if_neg (hD ▸ hl)]
  exact h.rely hw

theorem safe_readLock (hD : D.mutex = .log) {l : Lock} (hl : l ≠ .log) {f : Unit → NodeProg β}
    (h : (f ()).Safe D held memo Q w) : (readLock l >>= f).Safe D held memo Q w := by
  intro w' hw _
  rw [if_neg (hD ▸ hl)]
  exact h.rely hw

theorem safe_unlock (hD : D.mutex = .log) {l : Lock} (hl : l ≠ .log) {f : Unit → NodeProg β}
    (h : (f ()).Safe D held memo Q w) : (unlock l >>= f).Safe D held memo Q w := by
  intro w' hw
  rw [if_neg (hD ▸ hl)]
  exact h.rely hw

theorem safe_get {f : RaftNode → NodeProg β}
    (h : ∀ w', D.rely held w w' → (f w'.state).Safe D held memo Q w') :
    (get >>= f).Safe D held memo Q w := h

theorem safe_withRead (hD : D.mutex = .log) {l : Lock} (hl : l ≠ .log) {g : RaftNode → α}
    {f : α → NodeProg β}
    (h : ∀ w', D.rely held w w' → (f (g w'.state)).Safe D held memo Q w') :
    (withRead l g >>= f).Safe D held memo Q w := by
  intro w₁ hw₁ _
  rw [if_neg (hD ▸ hl)]
  intro w₂ hw₂ w₃ hw₃
  rw [if_neg (hD ▸ hl)]
  exact (h w₂ (D.rely_trans _ _ _ _ hw₁ hw₂)).rely hw₃

theorem safe_modify {g : RaftNode → RaftNode} {f : Unit → NodeProg β}
    (h : ∀ w', D.rely held w w' →
      D.guar held w' (w'.write g) ∧ (f ()).Safe D held memo Q (w'.write g)) :
    (modify g >>= f).Safe D held memo Q w :=
  fun w' hw _ _ => h w' hw

/-- A write through a temporary guard. At its site it may use what the site finds and that
the outputs of the task are among all outputs. -/
theorem safe_withWriteAt (hD : D.mutex = .log) {l : Lock} (hl : l ≠ .log) {site : Site}
    {g : RaftNode → RaftNode} {f : Unit → NodeProg β}
    (h : ∀ w', D.rely held w w' → (∀ o ∈ memo, o ∈ w'.out) → D.site site memo w'.state →
      D.guar held w' (w'.write g) ∧ (f ()).Safe D held memo Q (w'.write g)) :
    (withWriteAt l site g >>= f).Safe D held memo Q w := by
  intro w₁ hw₁ _
  rw [if_neg (hD ▸ hl)]
  intro w₂ hw₂ hmemo hs
  obtain ⟨hguar, hrest⟩ := h w₂ (D.rely_trans _ _ _ _ hw₁ hw₂) hmemo hs
  refine ⟨hguar, fun w₃ hw₃ => ?_⟩
  rw [if_neg (hD ▸ hl)]
  exact hrest.rely hw₃

theorem safe_emit {o : Output} {f : Unit → NodeProg β}
    (h : ∀ w', D.rely held w w' →
      D.guar held w' (w'.emit o) ∧ (f ()).Safe D held (memo ++ [o]) Q (w'.emit o)) :
    ((.emit o (.done ()) : NodeProg Unit) >>= f).Safe D held memo Q w := h

/-- A write of `state.json` whose result is checked: where it fails, the task ends and
leaves the invariant behind if it has the mutex. -/
theorem safe_checked {g : WriteResult → RaftNode → RaftNode} {f : Unit → NodeProg β}
    (h : ∀ r, D.answer r → ∀ w', D.rely held w w' → D.guar held w' (w'.write (g r)) ∧
      (r = .ok → (f ()).Safe D held memo Q (w'.write (g r))) ∧
      (r ≠ .ok → held = true → ∀ w'', D.rely held (w'.write (g r)) w'' → D.inv w'')) :
    ((Prog.choose fun r => .write .plain (g r) (checkWrite r) : NodeProg Unit) >>= f).Safe
      D held memo Q w := by
  intro r hr w₁ hw₁ w₂ hw₂ _ _
  obtain ⟨hguar, hok, herr⟩ := h r hr w₂ (D.rely_trans _ _ _ _ hw₁ hw₂)
  refine ⟨hguar, ?_⟩
  cases r with
  | ok => exact hok rfl
  | errOld => exact fun w₃ hw₃ hheld => herr (by decide) hheld w₃ hw₃
  | errUnparsable => exact fun w₃ hw₃ hheld => herr (by decide) hheld w₃ hw₃

/-- Envelopes under a fact that outlasts the others and the sending. -/
theorem safe_sendAll {envs : List MessageEnvelope} {f : Unit → NodeProg β}
    (P : World RaftNode Output → Prop) (hP : P w) (hrely : ∀ w w', D.rely held w w' → P w → P w')
    (hsend : ∀ env ∈ envs, ∀ w, P w → D.guar held w (w.emit (.send env)) ∧ P (w.emit (.send env)))
    (h : ∀ w' memo', P w' → (f ()).Safe D held memo' Q w') :
    (sendAll envs >>= f).Safe D held memo Q w := by
  induction envs generalizing memo w with
  | nil => exact h w memo hP
  | cons env envs ih =>
      intro w' hw
      obtain ⟨hguar, hkeep⟩ := hsend env List.mem_cons_self w' (hrely w w' hw hP)
      exact ⟨hguar, ih hkeep fun e he => hsend e (List.mem_cons_of_mem _ he)⟩

end Rules

end RaftEbpf.RaftNode
