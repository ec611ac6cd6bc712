import RedisCpp.Lib.Transition
import Mathlib.Data.List.Flatten
import Mathlib.Logic.Function.Basic

/-!
# A queue of work for several workers

Tasks are accepted at the end of a queue, and workers take them off its front, one at a time
each.  Once the queue is closed, it refuses further tasks; those in it are still served.

In every run the tasks accepted are the tasks taken, in the same order, followed by those that
wait, and each worker has finished the tasks that it has taken, up to the one it is at.
-/

/-- What the queue and the workers hold. -/
structure WorkQueue (Worker Task : Type*) where
  waiting : List Task
  closed : Bool
  current : Worker → Option Task

namespace WorkQueue

variable {Worker Task : Type*}

/-- What happens to a task. -/
inductive Activity (Worker Task : Type*) where
  | accept (task : Task)
  | refuse (task : Task)
  | take (worker : Worker) (task : Task)
  | finish (worker : Worker) (task : Task)
  | quiet
deriving DecidableEq, Repr

def empty : WorkQueue Worker Task where
  waiting := []
  closed := false
  current := fun _ => none

inductive Step [DecidableEq Worker] (queue : WorkQueue Worker Task) :
    Activity Worker Task → WorkQueue Worker Task → Prop where
  | accept (task : Task) (isOpen : queue.closed = false) :
      Step queue (.accept task) { queue with waiting := queue.waiting ++ [task] }
  | refuse (task : Task) (closed : queue.closed = true) : Step queue (.refuse task) queue
  | close : Step queue .quiet { queue with closed := true }
  | take {worker : Worker} {task : Task} {rest : List Task} (idle : queue.current worker = none)
      (front : queue.waiting = task :: rest) :
      Step queue (.take worker task)
        { queue with
          waiting := rest
          current := Function.update queue.current worker (some task) }
  | finish {worker : Worker} {task : Task} (busy : queue.current worker = some task) :
      Step queue (.finish worker task)
        { queue with current := Function.update queue.current worker none }
  | stay : Step queue .quiet queue

/-! ## The account of a run -/

namespace Activity

def accepted : Activity Worker Task → List Task
  | .accept task => [task]
  | _ => []

def taken : Activity Worker Task → List (Worker × Task)
  | .take worker task => [(worker, task)]
  | _ => []

def finished : Activity Worker Task → List (Worker × Task)
  | .finish worker task => [(worker, task)]
  | _ => []

end Activity

section Account

variable (activities : List (Activity Worker Task))

def accepted : List Task := activities.flatMap Activity.accepted

def taken : List (Worker × Task) := activities.flatMap Activity.taken

def finished : List (Worker × Task) := activities.flatMap Activity.finished

@[simp]
theorem accepted_append_singleton (last : Activity Worker Task) :
    accepted (activities ++ [last]) = accepted activities ++ last.accepted := by
  simp [accepted]

@[simp]
theorem taken_append_singleton (last : Activity Worker Task) :
    taken (activities ++ [last]) = taken activities ++ last.taken := by
  simp [taken]

@[simp]
theorem finished_append_singleton (last : Activity Worker Task) :
    finished (activities ++ [last]) = finished activities ++ last.finished := by
  simp [finished]

end Account

/-- Those of a list of tasks with workers that belong to one worker. -/
def ofWorker [DecidableEq Worker] (worker : Worker) (tasks : List (Worker × Task)) : List Task :=
  (tasks.filter fun entry => entry.1 = worker).map Prod.snd

section OfWorker

variable [DecidableEq Worker] (worker : Worker) (tasks : List (Worker × Task)) (task : Task)

@[simp]
theorem ofWorker_append_self :
    ofWorker worker (tasks ++ [(worker, task)]) = ofWorker worker tasks ++ [task] := by
  simp [ofWorker]

theorem ofWorker_append_other {other : Worker} (different : other ≠ worker) :
    ofWorker worker (tasks ++ [(other, task)]) = ofWorker worker tasks := by
  simp [ofWorker, different]

theorem count_ofWorker [DecidableEq Task] :
    (ofWorker worker tasks).count task = tasks.count (worker, task) := by
  induction tasks with
  | nil => rfl
  | cons entry tasks inductionHypothesis =>
      rcases entry with ⟨other, first⟩
      by_cases same : other = worker
      · subst same
        have here : ofWorker other ((other, first) :: tasks) = first :: ofWorker other tasks := by
          simp [ofWorker]
        rw [here, List.count_cons, List.count_cons, inductionHypothesis]
        simp
      · have here : ofWorker worker ((other, first) :: tasks) = ofWorker worker tasks := by
          simp [ofWorker, same]
        rw [here, inductionHypothesis, List.count_cons_of_ne (by simp [same])]

end OfWorker

/-- Tasks that are the same for every worker are the same. -/
theorem perm_of_ofWorker [DecidableEq Worker] {first second : List (Worker × Task)}
    (same : ∀ worker, ofWorker worker first = ofWorker worker second) : first.Perm second := by
  classical
  rw [List.perm_iff_count]
  rintro ⟨worker, task⟩
  rw [← count_ofWorker, same, count_ofWorker]

section Line

variable [DecidableEq Worker] {queue after : WorkQueue Worker Task}
  {activity : Activity Worker Task}
  {moves : List (Transition.Move (WorkQueue Worker Task) (Activity Worker Task))}

/-- The tasks by which a move lengthens the line of those that wait. -/
def joined (move : Transition.Move (WorkQueue Worker Task) (Activity Worker Task)) : List Task :=
  move.target.waiting.drop move.source.waiting.length

theorem Step.accepted_eq (step : Step queue activity after) :
    activity.accepted = after.waiting.drop queue.waiting.length := by
  cases step with
  | accept task isOpen => simp [Activity.accepted]
  | take idle front => simp [Activity.accepted, front]
  | refuse | close | finish | stay => simp [Activity.accepted]

/-- A task is accepted when it joins the line. -/
theorem accepted_eq_joined {start : WorkQueue Worker Task}
    (run : Transition.Run Step start moves queue) :
    accepted (moves.map Transition.Move.label) = moves.flatMap joined := by
  induction run with
  | nil => rfl
  | snoc _ step inductionHypothesis =>
      simp [joined, inductionHypothesis, step.accepted_eq]

end Line

/-! ## Nothing is lost, nothing is done twice -/

/-- Every task is in one place. -/
structure Accounted [DecidableEq Worker] (activities : List (Activity Worker Task))
    (queue : WorkQueue Worker Task) : Prop where
  conserved : accepted activities = (taken activities).map Prod.snd ++ queue.waiting
  served : ∀ worker, ofWorker worker (taken activities) =
    ofWorker worker (finished activities) ++ (queue.current worker).toList

namespace Accounted

variable [DecidableEq Worker] {activities : List (Activity Worker Task)}
  {queue after : WorkQueue Worker Task} {activity : Activity Worker Task}

theorem empty : Accounted [] (empty : WorkQueue Worker Task) :=
  ⟨rfl, fun _ => rfl⟩

theorem step (accounted : Accounted activities queue) (step : Step queue activity after) :
    Accounted (activities ++ [activity]) after := by
  cases step with
  | accept task isOpen =>
      refine ⟨?_, ?_⟩
      · simp [Activity.accepted, Activity.taken, accounted.conserved]
      · simpa [Activity.taken, Activity.finished] using accounted.served
  | refuse task closed | close | stay =>
      refine ⟨?_, ?_⟩
      · simpa [Activity.accepted, Activity.taken] using accounted.conserved
      · simpa [Activity.taken, Activity.finished] using accounted.served
  | @take worker task rest idle front =>
      refine ⟨?_, ?_⟩
      · simp [Activity.accepted, Activity.taken, accounted.conserved, front]
      · intro other
        have before := accounted.served other
        simp only [taken_append_singleton, finished_append_singleton, Activity.taken,
          Activity.finished, List.append_nil]
        by_cases same : other = worker
        · subst same
          rw [idle, Option.toList_none, List.append_nil] at before
          simp [before]
        · rw [ofWorker_append_other _ _ _ (Ne.symm same), Function.update_of_ne same]
          exact before
  | @finish worker task busy =>
      refine ⟨?_, ?_⟩
      · simpa [Activity.accepted, Activity.taken] using accounted.conserved
      · intro other
        have before := accounted.served other
        simp only [taken_append_singleton, finished_append_singleton, Activity.taken,
          Activity.finished, List.append_nil]
        by_cases same : other = worker
        · subst same
          rw [busy, Option.toList_some] at before
          simp [before]
        · rw [ofWorker_append_other _ _ _ (Ne.symm same), Function.update_of_ne same]
          exact before

/-- Where nothing waits and no worker is at a task, every task accepted has been finished once. -/
theorem settled (accounted : Accounted activities queue) (nothing : queue.waiting = [])
    (idle : ∀ worker, queue.current worker = none) :
    ((finished activities).map Prod.snd).Perm (accepted activities) := by
  have conserved := accounted.conserved
  rw [nothing, List.append_nil] at conserved
  rw [conserved]
  apply List.Perm.map
  apply perm_of_ofWorker
  intro worker
  have served := accounted.served worker
  rw [idle worker, Option.toList_none, List.append_nil] at served
  exact served.symm

theorem run {moves : List (Transition.Move (WorkQueue Worker Task) (Activity Worker Task))}
    (run : Transition.Run Step WorkQueue.empty moves queue) :
    Accounted (moves.map Transition.Move.label) queue := by
  apply run.invariant empty
  intro moves state label after _ accounted step
  rw [List.map_append]
  exact accounted.step step

end Accounted

section Closed

variable [DecidableEq Worker] {queue after : WorkQueue Worker Task}
  {activity : Activity Worker Task}

/-- A closed queue stays closed and accepts nothing. -/
theorem Step.of_closed (step : Step queue activity after) (closed : queue.closed = true) :
    after.closed = true ∧ activity.accepted = [] := by
  cases step with
  | accept task isOpen =>
      rw [closed] at isOpen
      cases isOpen
  | close => exact ⟨rfl, rfl⟩
  | refuse | take | finish | stay => exact ⟨closed, rfl⟩

end Closed

end WorkQueue
