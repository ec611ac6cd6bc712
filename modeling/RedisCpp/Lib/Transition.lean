import Mathlib.Data.List.Forall2

/-!
# Runs of a transition system

A run is recorded as the list of its moves, each with the states before and after it, so
that a property of a run can speak about any of its moves and about what came before.
-/

namespace Transition

variable {State Label : Type*}

/-- One move of a run. -/
structure Move (State Label : Type*) where
  source : State
  label : Label
  target : State

/-- The same move, of what is seen of the states. -/
def Move.view {View : Type*} (seen : State → View) (move : Move State Label) : Move View Label :=
  ⟨seen move.source, move.label, seen move.target⟩

/-- A move of another system does what is seen of a move. -/
structure Follows {View Sign : Type*} (seen : State → View) (Shows : Label → Sign → Prop)
    (move : Move State Label) (other : Move View Sign) : Prop where
  source : other.source = seen move.source
  target : other.target = seen move.target
  shows : Shows move.label other.label

/-- The runs from a given state. -/
inductive Run (Step : State → Label → State → Prop) (start : State) :
    List (Move State Label) → State → Prop where
  | nil : Run Step start [] start
  | snoc {moves : List (Move State Label)} {state after : State} {label : Label}
      (run : Run Step start moves state) (step : Step state label after) :
      Run Step start (moves ++ [⟨state, label, after⟩]) after

namespace Run

variable {Step : State → Label → State → Prop} {start state : State}
  {moves : List (Move State Label)}

/-- What holds at the start and is kept by every move of a run holds after the run. -/
theorem invariant {Holds : List (Move State Label) → State → Prop}
    (run : Run Step start moves state) (holds : Holds [] start)
    (kept : ∀ moves state label after, Run Step start moves state → Holds moves state →
      Step state label after → Holds (moves ++ [⟨state, label, after⟩]) after) :
    Holds moves state := by
  induction run with
  | nil => exact holds
  | snoc run step inductionHypothesis => exact kept _ _ _ _ run inductionHypothesis step

/-- A run can be continued by another. -/
theorem trans {later : List (Move State Label)} {middle : State}
    (first : Run Step start moves middle) (second : Run Step middle later state) :
    Run Step start (moves ++ later) state := by
  induction second with
  | nil =>
      rw [List.append_nil]
      exact first
  | snoc _ step inductionHypothesis =>
      rw [← List.append_assoc]
      exact inductionHypothesis.snoc step

/-- A run ends where it starts or with one of its moves. -/
theorem ends (run : Run Step start moves state) :
    state = start ∨ ∃ move ∈ moves, move.target = state := by
  cases run with
  | nil => exact Or.inl rfl
  | snoc _ _ => exact Or.inr ⟨_, List.mem_append_right _ (List.mem_singleton_self _), rfl⟩

/-- A run up to one of its moves is a run. -/
theorem split {before later : List (Move State Label)} {move : Move State Label}
    (run : Run Step start moves state) (parts : moves = before ++ move :: later) :
    Run Step start before move.source ∧ Step move.source move.label move.target := by
  induction run generalizing later with
  | nil => simp at parts
  | snoc run step inductionHypothesis =>
      rcases List.eq_nil_or_concat later with rfl | ⟨front, last, rfl⟩
      · have ends := List.append_inj' parts rfl
        simp only [List.cons.injEq, and_true] at ends
        rcases ends with ⟨rfl, rfl⟩
        exact ⟨run, step⟩
      · rw [List.concat_eq_append, ← List.cons_append, ← List.append_assoc] at parts
        exact inductionHypothesis (List.append_inj' parts rfl).1

/-- A run is one of every relation that has more steps. -/
theorem mono {More : State → Label → State → Prop} (run : Run Step start moves state)
    (steps : ∀ state label after, Step state label after → More state label after) :
    Run More start moves state := by
  induction run with
  | nil => exact .nil
  | snoc _ step inductionHypothesis => exact inductionHypothesis.snoc (steps _ _ _ step)

/-- If every step is a step of what is seen of the states, every run is a run of it. -/
theorem simulate {View : Type*} {Simple : View → Label → View → Prop} (seen : State → View)
    (run : Run Step start moves state)
    (steps : ∀ moves state label after, Run Step start moves state → Step state label after →
      Simple (seen state) label (seen after)) :
    Run Simple (seen start) (moves.map (Move.view seen)) (seen state) := by
  induction run with
  | nil => exact .nil
  | snoc run step inductionHypothesis =>
      rw [List.map_append]
      exact inductionHypothesis.snoc (steps _ _ _ _ run step)

/-- If every step shows a step of what is seen of the states, every run is followed by a run of it,
move by move. -/
theorem follow {View Sign : Type*} {Simple : View → Sign → View → Prop} (seen : State → View)
    {Shows : Label → Sign → Prop} (run : Run Step start moves state)
    (steps : ∀ state label after, Step state label after →
      ∃ sign, Simple (seen state) sign (seen after) ∧ Shows label sign) :
    ∃ others, Run Simple (seen start) others (seen state) ∧
      List.Forall₂ (Follows seen Shows) moves others := by
  induction run with
  | nil => exact ⟨[], .nil, .nil⟩
  | snoc _ step inductionHypothesis =>
      rcases inductionHypothesis with ⟨others, followed, alike⟩
      rcases steps _ _ _ step with ⟨sign, moved, shows⟩
      exact ⟨_, followed.snoc moved, List.rel_append alike (.cons ⟨rfl, rfl, shows⟩ .nil)⟩

end Run

end Transition
