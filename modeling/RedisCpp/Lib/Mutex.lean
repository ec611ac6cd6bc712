import Mathlib.Logic.Function.Basic

/-!
# A mutex

A mutex is free or has an owner.  A thread that is inside a section which the mutex protects
owns it, so there is never more than one; this is kept by every move that enters such a section
only together with taking the free mutex, and gives the mutex back only from inside.
-/

namespace Mutex

variable {Thread : Type*}

/-- What a move does with the mutex. -/
inductive Use where
  | keep
  | acquire
  | release
deriving DecidableEq, Repr

/-- The owner after a move of a thread. -/
def Use.after (thread : Thread) (mutex : Option Thread) : Use → Option Thread
  | .keep => mutex
  | .acquire => some thread
  | .release => none

/-- A thread may move from a place to another one only as its use of the mutex allows. -/
structure Use.Fits (use : Use) (inside insideAfter : Bool) : Prop where
  entered : insideAfter = true → use = .acquire ∨ use = .keep ∧ inside = true
  released : use = .release → inside = true

/-- Who is inside owns the mutex. -/
def Exclusive (inside : Thread → Bool) (mutex : Option Thread) : Prop :=
  ∀ thread, inside thread = true → mutex = some thread

namespace Exclusive

variable {inside insideAfter : Thread → Bool} {mutex : Option Thread} {first second : Thread}

theorem unique (exclusive : Exclusive inside mutex) (firstInside : inside first = true)
    (secondInside : inside second = true) : first = second :=
  Option.some.inj ((exclusive first firstInside).symm.trans (exclusive second secondInside))

theorem outside (exclusive : Exclusive inside mutex) (firstInside : inside first = true)
    (different : second ≠ first) : inside second = false := by
  cases secondInside : inside second with
  | false => rfl
  | true => exact absurd (exclusive.unique secondInside firstInside) different

theorem outside_of_free (exclusive : Exclusive inside mutex) (free : mutex = none) :
    inside first = false := by
  cases firstInside : inside first with
  | false => rfl
  | true =>
      have owner := exclusive first firstInside
      rw [free] at owner
      cases owner

/-- A move of one thread; the others stay where they are, or leave. -/
theorem step (exclusive : Exclusive inside mutex) {thread : Thread} {use : Use}
    (fits : use.Fits (inside thread) (insideAfter thread))
    (available : use = .acquire → mutex = none)
    (others : ∀ other, other ≠ thread → insideAfter other = true → inside other = true) :
    Exclusive insideAfter (use.after thread mutex) := by
  intro other otherInside
  by_cases same : other = thread
  · subst same
    rcases fits.entered otherInside with acquired | ⟨kept, wasInside⟩
    · rw [acquired]
      rfl
    · rw [kept]
      exact exclusive other wasInside
  · have wasInside := others other same otherInside
    cases use with
    | keep => exact exclusive other wasInside
    | acquire => exact absurd (exclusive other wasInside) (by rw [available rfl]; nofun)
    | release => exact absurd (exclusive.unique wasInside (fits.released rfl)) same

end Exclusive

end Mutex
