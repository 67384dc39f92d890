import RaftEbpf.Interleaving
import RaftEbpf.Proofs.LockOrder

/-!
# `RaftEbpf.Proofs.Deadlock`: operations that wait for each other

Any number of operations of one node run as tasks over fair locks (`Contention.Run`), with
any answers of the disk. The executions in which a task asks for a lock that it holds are
left out.

* `not_deadlocked_of_courteous`: where `get_status` finds no writer of `last_applied` in its
  way, and `try_advance_commit_index` no reader of `peers`, no set of tasks waits for itself.
* `not_deadlock_free`: a status query holds the log mutex and waits for `last_applied`, and a
  handler holds `last_applied` and waits for the log mutex.
-/

set_option autoImplicit false

namespace RaftEbpf

open RaftEbpf.Lib (Queued)
open RaftNode (InOrder AgainstOrder)

namespace Contention

/-- When `get_status` asks for `last_applied`, no writer of it stands in its way, and when
`try_advance_commit_index` asks for `peers`, no reader of it does. -/
def Courteous (c : Contention) (turn : Turn) : Prop := Queued.Courteous AgainstOrder c turn.sched

instance (c : Contention) (turn : Turn) : Decidable (c.Courteous turn) :=
  inferInstanceAs (Decidable (Queued.Courteous AgainstOrder c turn.sched))

/-- Each state of a run whose steps meet the condition is orderly. -/
theorem Run.orderly {n : RaftNode} {tr : List Contention}
    (h : Run n (fun c turn => c.NotAgain turn ∧ c.Courteous turn) tr) :
    ∀ c ∈ tr, Queued.Orderly InOrder AgainstOrder c := by
  refine h.invariant (Queued.Orderly.initial n) fun c turn c' hc hok hstep => ?_
  refine hc.step hok.1 hok.2 (fun p hp => ?_) hstep
  cases turn with
  | start op =>
      obtain rfl := Lib.Sched.spawn.inj hp
      exact acquires_task op
  | advance i w => cases hp

/-- A task that asks for a lock that it does not hold has guards as the order says. -/
theorem inOrder_of_asks {c : Contention} (h : Queued.Sound InOrder c) {i : Nat} {l : Lock}
    {ex : Bool} (hasks : c.asks i = some (l, ex)) : InOrder (c.heldBy i) l ex := by
  obtain ⟨th, site, next, hth, hprog⟩ := Queued.prog_of_asks hasks
  have hacq := h.acquires i th hth
  unfold Lib.Thread.Acquires at hacq
  rw [hprog] at hacq
  rw [Queued.heldBy_eq hth]
  exact hacq.1

/-- In an orderly state no set of tasks waits for itself. -/
theorem not_deadlocked {c : Contention} (h : Queued.Orderly InOrder AgainstOrder c)
    (tasks : Finset Nat) : ¬ c.Deadlocked tasks := by
  intro hdead
  obtain ⟨i, hi, l, l', ⟨ex, hreq, hwait⟩, ⟨ex', hheld⟩, hrank, j, hj, hji, ⟨exj, hjheld⟩⟩ :=
    hdead.exists_inversion Lock.rank
  rcases inOrder_of_asks h.sound (h.sound.asked _ hreq) with
    hagain | ⟨-, -, horder | ⟨rfl, m, hagainst⟩⟩
  · exact h.sound.apart _ hreq hagain
  · exact absurd (horder _ hheld) (Nat.not_lt.mpr hrank)
  · -- Task `j` holds the lock that task `i` waits for, and waits itself.
    obtain ⟨lj, ⟨exj', hreqj, -⟩, -⟩ := hdead.2 j hj
    have hasks := h.sound.asked _ hreqj
    have hmode : exj ≠ m := by
      rintro rfl
      have hnone := (h.unhindered _ hreq rfl exj hagainst).asks_eq_none h.sound hwait hji hjheld
      rw [hasks] at hnone
      cases hnone
    rcases inOrder_of_asks h.sound hasks with hagain | ⟨hpeers, hlast, -⟩
    · exact h.sound.apart _ hreqj hagain
    · obtain ⟨hlog, ⟨rfl, rfl⟩ | ⟨rfl, rfl, -⟩⟩ := hagainst
      · -- A reader of `last_applied` that asks has the log mutex, as task `i` does.
        obtain rfl : exj = false := by simpa using hmode
        exact absurd (h.sound.exclusive i j _ _ _ (Ne.symm hji) hlog (hlast hjheld)).1 (by simp)
      · obtain rfl : exj = true := by simpa using hmode
        exact hpeers hjheld

/-- In every run whose steps meet the condition, no set of tasks waits for itself. -/
theorem not_deadlocked_of_courteous {n : RaftNode} {tr : List Contention}
    (h : Run n (fun c turn => c.NotAgain turn ∧ c.Courteous turn) tr) :
    ∀ c ∈ tr, ∀ tasks, ¬ c.Deadlocked tasks :=
  fun c hc => not_deadlocked (h.orderly c hc)

end Contention

/-- A heartbeat of term 1. -/
def heartbeat : MessageEnvelope :=
  .new "B" "A" (.appendEntries ⟨1, .pushStr 64 "B", 0, 0, .collectTake 64 [], 0⟩)

/-- A status query and a `remove_peer` wait for the handler of a heartbeat, and then for each
other. -/
def politeTurns : List Turn :=
  .start (.handleMessage heartbeat) :: turns 0 2 ++ .start .getStatus :: turns 1 1 ++
    turns 0 13 ++ turns 1 3 ++ .start (.removePeer "B") :: turns 2 1 ++ turns 1 14 ++ turns 2 9 ++
    turns 0 14

/-- No set of tasks of this interleaving ever waits for itself. -/
theorem not_deadlocked_of_courteous_polite :
    let tr := Contention.trace bootedNode (fun c turn => c.NotAgain turn ∧ c.Courteous turn)
      politeTurns
    tr.length = politeTurns.length + 1 ∧ ∀ c ∈ tr, ∀ tasks, ¬ c.Deadlocked tasks :=
  ⟨by decide +kernel,
    Contention.not_deadlocked_of_courteous (Lib.run_trace (by decide +kernel))⟩

/-- The handler of a heartbeat has `last_applied` and asks for the log mutex, and a status query
has the log mutex and asks for `last_applied`. -/
def crossedTurns : List Turn :=
  .start (.handleMessage heartbeat) :: turns 0 19 ++ .start .getStatus :: turns 1 8 ++ turns 0 1

/-- Two tasks that wait for each other, and neither asks for a lock that it holds. -/
theorem not_deadlock_free : ¬ ∀ (n : RaftNode) (tr : List Contention),
    Contention.Run n (fun c turn => c.NotAgain turn) tr →
      ∀ c ∈ tr, ∀ tasks, ¬ c.Deadlocked tasks := by
  intro h
  let ok : Contention → Turn → Prop := fun c turn => c.NotAgain turn
  have hrun : Contention.Run bootedNode ok (Contention.final bootedNode ok crossedTurns ::
      (Contention.trace bootedNode ok crossedTurns).tail) := Lib.run_final (by decide +kernel)
  refine h _ _ hrun _ List.mem_cons_self {0, 1} ⟨⟨0, by simp⟩, fun i hi => ?_⟩
  rcases Finset.mem_insert.mp hi with rfl | hi
  · refine ⟨.log, ⟨true, by decide +kernel, by decide +kernel⟩, 1, by simp, by simp, true, ?_⟩
    decide +kernel
  · obtain rfl := Finset.mem_singleton.mp hi
    refine ⟨.lastApplied, ⟨false, by decide +kernel, by decide +kernel⟩, 0, by simp, by simp,
      true, ?_⟩
    decide +kernel

end RaftEbpf
