import Mathlib.Data.List.Basic
import Mathlib.Data.List.Nodup

/-!
# Linearizability from linearization points

A trace lists what happens in a run of a concurrent object: calls, returns and, in
between, the point at which each call takes effect.  The history is what a client
sees of it, the calls and the returns.  A history is linearizable when the calls
that have returned, possibly together with some that have not, can be put in a
serial order that is legal and respects real time.

The one result of this module: if in the trace every call takes effect at most once,
between its call and its return, then the order of the effects is a witness.
-/

namespace Linearizability

/-- The events of a trace.  `Input` is what a call passes, `Point` what is recorded
where it takes effect, `Output` what a return delivers. -/
inductive Event (Input Point Output Result : Type*) where
  | call (id : ℕ) (input : Input)
  | commit (id : ℕ) (point : Point) (result : Result)
  | ret (id : ℕ) (output : Output)

variable {Input Point Output Result : Type*}

namespace Event

/-- The call to which an event belongs. -/
def id : Event Input Point Output Result → ℕ
  | .call id _ | .commit id _ _ | .ret id _ => id

end Event

/-- `earlier` stands before `later` in a list. -/
def Precedes {Item : Type*} (earlier later : Item) (items : List Item) : Prop :=
  ∃ front back, items = front ++ back ∧ earlier ∈ front ∧ later ∈ back

/-- The calls and returns of a trace: what a client sees. -/
def history (trace : List (Event Input Point Output Result)) :
    List (Event Input Point Output Result) :=
  trace.filter fun event =>
    match event with
    | .commit _ _ _ => false
    | _ => true

/-- The effects of a trace, in order. -/
def effects (trace : List (Event Input Point Output Result)) : List (ℕ × Point × Result) :=
  trace.filterMap fun event =>
    match event with
    | .commit id point result => some (id, point, result)
    | _ => none

/-- A serial order explains a history.  `Explains input point` says that the point is
one of the call, `Delivers point result output` that the return delivers its result. -/
structure Linearizes (Explains : Input → Point → Prop)
    (Delivers : Point → Result → Output → Prop) (Legal : List (Point × Result) → Prop)
    (history : List (Event Input Point Output Result)) (order : List (ℕ × Point × Result)) :
    Prop where
  distinct : (order.map Prod.fst).Nodup
  called : ∀ id point result, (id, point, result) ∈ order →
    ∃ input, .call id input ∈ history ∧ Explains input point
  returned : ∀ id output, .ret id output ∈ history →
    ∃ point result, (id, point, result) ∈ order ∧ Delivers point result output
  realTime : ∀ first output second input,
    Precedes (.ret first output) (.call second input) history →
      second ∈ order.map Prod.fst → Precedes first second (order.map Prod.fst)
  legal : Legal (order.map Prod.snd)

/-! ## The discipline of a trace -/

section Discipline

variable (Explains : Input → Point → Prop) (Delivers : Point → Result → Output → Prop)

/-- How far one call has come, as its own events. -/
inductive Stage (id : ℕ) : List (Event Input Point Output Result) → Prop where
  | fresh : Stage id []
  | called (input : Input) : Stage id [.call id input]
  | committed {input : Input} {point : Point} (result : Result) (explains : Explains input point) :
      Stage id [.call id input, .commit id point result]
  | returned {input : Input} {point : Point} {result : Result} {output : Output}
      (explains : Explains input point) (delivers : Delivers point result output) :
      Stage id [.call id input, .commit id point result, .ret id output]

/-- The events of one call. -/
def eventsOf (id : ℕ) (trace : List (Event Input Point Output Result)) :
    List (Event Input Point Output Result) :=
  trace.filter fun event => event.id = id

/-- Every call takes effect at most once, between its call and its return. -/
def Disciplined (trace : List (Event Input Point Output Result)) : Prop :=
  ∀ id, Stage Explains Delivers id (eventsOf id trace)

end Discipline

section Effects

variable {Explains : Input → Point → Prop} {Delivers : Point → Result → Output → Prop}
  {id : ℕ} {trace front back : List (Event Input Point Output Result)}

@[simp]
theorem eventsOf_append (id : ℕ) (front back : List (Event Input Point Output Result)) :
    eventsOf id (front ++ back) = eventsOf id front ++ eventsOf id back :=
  List.filter_append front back

theorem eventsOf_append_of_ne {events added : List (Event Input Point Output Result)}
    (others : ∀ event ∈ added, event.id ≠ id) :
    eventsOf id (events ++ added) = eventsOf id events := by
  have none : eventsOf id added = [] := by
    apply List.filter_eq_nil_iff.mpr
    intro event mem
    simpa using others event mem
  rw [eventsOf_append, none, List.append_nil]

theorem eventsOf_append_of_eq {events added : List (Event Input Point Output Result)}
    (own : ∀ event ∈ added, event.id = id) :
    eventsOf id (events ++ added) = eventsOf id events ++ added := by
  have all : eventsOf id added = added := by
    apply List.filter_eq_self.mpr
    intro event mem
    simpa using own event mem
  rw [eventsOf_append, all]

/-- The discipline is checked for the call that the new events belong to. -/
theorem Disciplined.append {events added : List (Event Input Point Output Result)}
    (disciplined : Disciplined Explains Delivers events) (own : ∀ event ∈ added, event.id = id)
    (stage : Stage Explains Delivers id (eventsOf id events ++ added)) :
    Disciplined Explains Delivers (events ++ added) := by
  intro other
  by_cases same : other = id
  · subst other
    rw [eventsOf_append_of_eq own]
    exact stage
  · rw [eventsOf_append_of_ne]
    · exact disciplined other
    · intro event mem equal
      exact same (equal.symm.trans (own event mem))

theorem mem_eventsOf {event : Event Input Point Output Result} :
    event ∈ eventsOf id trace ↔ event ∈ trace ∧ event.id = id := by
  simp [eventsOf]

@[simp]
theorem effects_append (front back : List (Event Input Point Output Result)) :
    effects (front ++ back) = effects front ++ effects back :=
  List.filterMap_append

theorem mem_effects {point : Point} {result : Result} :
    (id, point, result) ∈ effects trace ↔ .commit id point result ∈ trace := by
  simp only [effects, List.mem_filterMap]
  constructor
  · rintro ⟨event, mem, equal⟩
    cases event with
    | call _ _ => cases equal
    | ret _ _ => cases equal
    | commit _ _ _ =>
        cases equal
        exact mem
  · intro mem
    exact ⟨_, mem, rfl⟩

theorem mem_history_call {input : Input} :
    .call id input ∈ history trace ↔ .call id input ∈ trace := by
  simp [history]

theorem mem_history_ret {output : Output} :
    .ret id output ∈ history trace ↔ .ret id output ∈ trace := by
  simp [history]

theorem length_effects_eventsOf (id : ℕ) (trace : List (Event Input Point Output Result)) :
    ((effects trace).map Prod.fst).count id = (effects (eventsOf id trace)).length := by
  induction trace with
  | nil => rfl
  | cons event trace inductionHypothesis =>
      cases event with
      | call other input =>
          by_cases same : other = id
          · simpa [effects, eventsOf, Event.id, same] using inductionHypothesis
          · simpa [effects, eventsOf, Event.id, same] using inductionHypothesis
      | ret other output =>
          by_cases same : other = id
          · simpa [effects, eventsOf, Event.id, same] using inductionHypothesis
          · simpa [effects, eventsOf, Event.id, same] using inductionHypothesis
      | commit other point result =>
          by_cases same : other = id
          · simpa [effects, eventsOf, Event.id, same] using inductionHypothesis
          · simpa [effects, eventsOf, Event.id, same] using inductionHypothesis

namespace Stage

theorem length_effects_le {events : List (Event Input Point Output Result)}
    (stage : Stage Explains Delivers id events) : (effects events).length ≤ 1 := by
  cases stage with
  | fresh => exact Nat.zero_le 1
  | called input => exact Nat.zero_le 1
  | committed result explains => exact Nat.le_refl 1
  | returned explains delivers => exact Nat.le_refl 1

theorem exists_call {events : List (Event Input Point Output Result)}
    (stage : Stage Explains Delivers id events) {point : Point} {result : Result}
    (mem : .commit id point result ∈ events) :
    ∃ input, .call id input ∈ events ∧ Explains input point := by
  cases stage with
  | fresh => simp at mem
  | called input => simp at mem
  | committed result explains =>
      simp only [List.mem_cons, reduceCtorEq, Event.commit.injEq, List.not_mem_nil, or_false,
        false_or, true_and] at mem
      rcases mem with ⟨rfl, rfl⟩
      exact ⟨_, List.mem_cons_self, explains⟩
  | returned explains delivers =>
      simp only [List.mem_cons, reduceCtorEq, Event.commit.injEq, List.not_mem_nil, or_false,
        false_or, true_and] at mem
      rcases mem with ⟨rfl, rfl⟩
      exact ⟨_, List.mem_cons_self, explains⟩

/-- A call has taken effect before it returns. -/
theorem exists_commit_of_ret (stage : Stage Explains Delivers id (front ++ back))
    {output : Output} (mem : .ret id output ∈ front) :
    ∃ point result, .commit id point result ∈ front ∧ Delivers point result output := by
  generalize whole : front ++ back = events at stage
  cases stage with
  | fresh =>
      rw [(List.append_eq_nil_iff.mp whole).1] at mem
      simp at mem
  | called input =>
      have inside : .ret id output ∈ front ++ back := List.mem_append_left back mem
      simp [whole] at inside
  | committed result explains =>
      have inside : .ret id output ∈ front ++ back := List.mem_append_left back mem
      simp [whole] at inside
  | returned explains delivers =>
      rcases front with _ | ⟨first, _ | ⟨second, _ | ⟨third, front⟩⟩⟩
      · simp at mem
      · simp only [List.cons_append, List.cons.injEq] at whole
        simp [whole.1] at mem
      · simp only [List.cons_append, List.cons.injEq] at whole
        simp [whole.1, whole.2.1] at mem
      · simp only [List.cons_append, List.cons.injEq, List.append_eq_nil_iff] at whole
        rcases whole with ⟨rfl, rfl, rfl, rfl, -⟩
        simp only [List.mem_cons, reduceCtorEq, Event.ret.injEq, List.not_mem_nil, or_false,
          false_or, true_and] at mem
        subst output
        exact ⟨_, _, by simp, delivers⟩

/-- A call takes effect after it is made. -/
theorem commit_mem_of_call (stage : Stage Explains Delivers id (front ++ back)) {input : Input}
    {point : Point} {result : Result} (made : .call id input ∈ back)
    (mem : .commit id point result ∈ front ++ back) : .commit id point result ∈ back := by
  cases front with
  | nil => exact mem
  | cons first front =>
      have late : .call id input ∈ front ++ back := List.mem_append_right front made
      rw [List.cons_append] at stage
      generalize whole : first :: (front ++ back) = events at stage
      cases stage with
      | fresh => cases whole
      | called _ =>
          rw [(List.cons.inj whole).2] at late
          simp at late
      | committed _ _ =>
          rw [(List.cons.inj whole).2] at late
          simp at late
      | returned _ _ =>
          rw [(List.cons.inj whole).2] at late
          simp at late

end Stage

/-- What stands in the history in some order stands in the trace in that order. -/
theorem precedes_of_history {earlier later : Event Input Point Output Result}
    (precedes : Precedes earlier later (history trace)) : Precedes earlier later trace := by
  rcases precedes with ⟨front, back, split, first, second⟩
  rcases List.filter_eq_append_iff.mp split with ⟨traceFront, traceBack, whole, rfl, rfl⟩
  exact ⟨traceFront, traceBack, whole, List.mem_of_mem_filter first,
    List.mem_of_mem_filter second⟩

/-- The order of the effects explains the history of a disciplined trace. -/
theorem linearizes_effects (disciplined : Disciplined Explains Delivers trace)
    {Legal : List (Point × Result) → Prop} (legal : Legal ((effects trace).map Prod.snd)) :
    Linearizes Explains Delivers Legal (history trace) (effects trace) where
  distinct := by
    apply List.nodup_iff_count_le_one.mpr
    intro id
    rw [length_effects_eventsOf]
    exact (disciplined id).length_effects_le
  called := by
    intro id point result mem
    have own : .commit id point result ∈ eventsOf id trace :=
      mem_eventsOf.mpr ⟨mem_effects.mp mem, rfl⟩
    rcases (disciplined id).exists_call own with ⟨input, called, explains⟩
    exact ⟨input, mem_history_call.mpr (mem_eventsOf.mp called).1, explains⟩
  returned := by
    intro id output mem
    have own : .ret id output ∈ eventsOf id trace :=
      mem_eventsOf.mpr ⟨mem_history_ret.mp mem, rfl⟩
    have stage := disciplined id
    rw [← List.append_nil (eventsOf id trace)] at stage
    rcases stage.exists_commit_of_ret own with ⟨point, result, commit, delivers⟩
    exact ⟨point, result, mem_effects.mpr (mem_eventsOf.mp commit).1, delivers⟩
  realTime := by
    intro first output second input precedes ordered
    rcases precedes_of_history precedes with ⟨front, back, rfl, returned, called⟩
    have firstStage := disciplined first
    have secondStage := disciplined second
    rw [eventsOf_append] at firstStage secondStage
    rcases firstStage.exists_commit_of_ret (mem_eventsOf.mpr ⟨returned, rfl⟩) with
      ⟨point, result, commit, -⟩
    rcases List.mem_map.mp ordered with ⟨⟨found, laterPoint, laterResult⟩, mem, rfl⟩
    have own : .commit found laterPoint laterResult ∈
        eventsOf found front ++ eventsOf found back := by
      rw [← eventsOf_append]
      exact mem_eventsOf.mpr ⟨mem_effects.mp mem, rfl⟩
    have late := secondStage.commit_mem_of_call (mem_eventsOf.mpr ⟨called, rfl⟩) own
    refine ⟨(effects front).map Prod.fst, (effects back).map Prod.fst, by simp, ?_, ?_⟩
    · exact List.mem_map.mpr ⟨_, mem_effects.mpr (mem_eventsOf.mp commit).1, rfl⟩
    · exact List.mem_map.mpr ⟨_, mem_effects.mpr (mem_eventsOf.mp late).1, rfl⟩
  legal := legal

end Effects

end Linearizability
