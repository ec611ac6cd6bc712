import Mathlib.Order.Basic

/-!
# Waiting for a condition up to a deadline

A thread that waits for a condition tests it with the mutex held.  If it does not hold, the thread
gives the mutex up and blocks.  It may be woken by a notification, at the deadline, or for no
reason; then it takes the mutex back and tests again, and a wakeup at the deadline is the last.

Whoever makes the condition true holds the mutex while doing so and notifies afterwards.  Then a
thread that is blocked although the condition holds is about to be notified.
-/

/-- Where a thread is in the call that waits, with the deadline. -/
inductive TimedWait (Time : Type*) where
  | outside
  | testing (deadline : Time) (timedOut : Bool)
  | blocking (deadline : Time)
  | blocked (deadline : Time)
  | woken (deadline : Time) (timedOut : Bool)
deriving DecidableEq, Repr

namespace TimedWait

variable {Time : Type*}

def holdsMutex : TimedWait Time → Bool
  | .testing _ _ | .blocking _ => true
  | _ => false

/-- The deadline of a call. -/
def until? : TimedWait Time → Option Time
  | .outside => none
  | .testing deadline _ | .blocking deadline | .blocked deadline | .woken deadline _ =>
      some deadline

/-- A notification reaches a thread only if it is blocked. -/
def notified : TimedWait Time → TimedWait Time
  | .blocked deadline => .woken deadline false
  | wait => wait

/-- One step of the thread inside the call. -/
inductive Step [LE Time] (clock : Time) (holds : Prop) :
    TimedWait Time → TimedWait Time → Prop where
  | refute {deadline : Time} (fails : ¬holds) :
      Step clock holds (.testing deadline false) (.blocking deadline)
  | block {deadline : Time} : Step clock holds (.blocking deadline) (.blocked deadline)
  | expire {deadline : Time} (reached : deadline ≤ clock) :
      Step clock holds (.blocked deadline) (.woken deadline true)
  | spurious {deadline : Time} : Step clock holds (.blocked deadline) (.woken deadline false)
  | reacquire {deadline : Time} {timedOut : Bool} :
      Step clock holds (.woken deadline timedOut) (.testing deadline timedOut)

/-- The call may return. -/
def Returns (holds : Prop) (wait : TimedWait Time) : Prop :=
  ∃ deadline timedOut, wait = .testing deadline timedOut ∧ (holds ∨ timedOut = true)

/-- The thread has tested in vain, and blocks next. -/
def toBlock : TimedWait Time → ℕ
  | .blocking _ => 1
  | _ => 0

/-- The thread falls asleep. -/
def falls : TimedWait Time → TimedWait Time → ℕ
  | .blocking _, .blocked _ => 1
  | _, _ => 0

/-- A thread that blocks although the condition holds is about to be notified. -/
structure Guarded (holds : Prop) (announcing : ℕ) (wait : TimedWait Time) : Prop where
  blocking : ∀ deadline, wait = .blocking deadline → ¬holds
  blocked : ∀ deadline, wait = .blocked deadline → holds → 0 < announcing

variable {clock : Time} {holds tested : Prop} {announcing : ℕ} {wait after : TimedWait Time}

@[simp]
theorem until?_notified (wait : TimedWait Time) : wait.notified.until? = wait.until? := by
  cases wait with
  | outside | testing | blocking | blocked | woken => rfl

theorem Step.until?_eq [LE Time] (step : Step clock holds wait after) :
    after.until? = wait.until? := by
  cases step with
  | refute | block | expire | spurious | reacquire => rfl

theorem Step.inside [LE Time] (step : Step clock holds wait after) :
    wait ≠ .outside ∧ after ≠ .outside := by
  cases step with
  | refute | block | expire | spurious | reacquire => exact ⟨nofun, nofun⟩

@[simp]
theorem notified_eq_outside {wait : TimedWait Time} :
    wait.notified = .outside ↔ wait = .outside := by
  cases wait with
  | outside | testing | blocking | blocked | woken => simp [notified]

/-- The thread that waits is blocked no longer once it has been notified. -/
theorem notified_ne_blocked (wait : TimedWait Time) (deadline : Time) :
    wait.notified ≠ .blocked deadline := by
  cases wait with
  | outside | testing | blocking | blocked | woken => simp [notified]

@[simp]
theorem toBlock_notified (wait : TimedWait Time) : wait.notified.toBlock = wait.toBlock := by
  cases wait with
  | outside | testing | blocking | blocked | woken => rfl

@[simp]
theorem falls_self (wait : TimedWait Time) : falls wait wait = 0 := by
  cases wait with
  | outside | testing | blocking | blocked | woken => rfl

@[simp]
theorem falls_notified (wait : TimedWait Time) : falls wait wait.notified = 0 := by
  cases wait with
  | outside | testing | blocking | blocked | woken => rfl

/-- Once the condition holds for good, the thread falls asleep only if it has tested before. -/
theorem Step.falls_add_toBlock_le [LE Time] (step : Step clock holds wait after) (held : holds) :
    falls wait after + after.toBlock ≤ wait.toBlock := by
  cases step with
  | refute fails => exact absurd held fails
  | block | expire | spurious | reacquire => exact Nat.le_refl _

namespace Guarded

theorem of_not (elsewhere : ∀ deadline, wait ≠ .blocking deadline ∧ wait ≠ .blocked deadline) :
    Guarded holds announcing wait :=
  ⟨fun deadline here => absurd here (elsewhere deadline).1,
    fun deadline here => absurd here (elsewhere deadline).2⟩

/-- The thread may test more than the condition. -/
theorem step [LE Time] (guarded : Guarded holds announcing wait)
    (step : Step clock tested wait after) (includes : holds → tested) :
    Guarded holds announcing after := by
  cases step with
  | refute fails => exact ⟨fun _ _ held => fails (includes held), nofun⟩
  | block => exact ⟨nofun, fun _ _ held => absurd held (guarded.blocking _ rfl)⟩
  | expire | spurious | reacquire => exact of_not fun _ => ⟨nofun, nofun⟩

/-- The condition changes while the mutex is free, and a notification will follow. -/
theorem change {changed : Prop} (guarded : Guarded holds announcing wait)
    (free : wait.holdsMutex = false) : Guarded changed (announcing + 1) wait := by
  refine ⟨?_, fun _ _ _ => Nat.succ_pos announcing⟩
  rintro deadline rfl
  cases free

/-- The notification follows. -/
theorem notify (guarded : Guarded holds announcing wait) (left : ℕ) :
    Guarded holds left wait.notified := by
  refine ⟨?_, fun deadline here => absurd here (notified_ne_blocked wait deadline)⟩
  intro deadline here
  cases wait with
  | outside | testing | blocked | woken => cases here
  | blocking => exact guarded.blocking _ rfl

end Guarded

end TimedWait
