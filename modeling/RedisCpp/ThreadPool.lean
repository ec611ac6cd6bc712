import RedisCpp.Lib.Mutex
import RedisCpp.Lib.WorkQueue
import Mathlib.Data.List.FinRange

/-!
# The thread pool

The workers of a `ThreadPool`, any number of threads that call `enqueue`, and the destructor,
interleaved at the granularity of the accesses to the queue, the stop flag and `mu_`.  `wait`
gives `mu_` back while it blocks and takes it again before it tests its predicate; a worker that
waits is woken by `notify_one` and `notify_all`, and may wake for no reason.

The pool is a queue of work: every task that has been accepted is taken once, in the order of
acceptance, and run by the worker that took it.  A worker returns only when nothing is left and
nothing more will be accepted, so the destructor, which waits for all workers, loses no task.
-/

namespace RedisCpp

namespace ThreadPool

open WorkQueue (Activity)

/-- The number of workers that the constructor starts, for the value of
`hardware_concurrency()`. -/
def threadCount (nThreads hardwareConcurrency : ℕ) : ℕ :=
  if nThreads = 0 then max 1 hardwareConcurrency else nThreads

theorem threadCount_pos (nThreads hardwareConcurrency : ℕ) :
    0 < threadCount nThreads hardwareConcurrency := by
  rw [threadCount]
  split
  · exact Nat.lt_of_lt_of_le Nat.zero_lt_one (le_max_left _ _)
  · omega

/-- Where a worker is in `worker_loop`. -/
inductive WorkerPlace (Task : Type) where
  | entering
  | testing
  | blocked
  | woken
  | leaving
  | taking
  | holding (task : Task)
  | running (task : Task)
  | exiting
  | returned
deriving DecidableEq, Repr

/-- Where a thread is in `enqueue`. -/
inductive CallerPlace (Task : Type) where
  | idle
  | calling (task : Task)
  | locked (task : Task)
  | throwing
  | pushed
  | notifying
deriving DecidableEq, Repr

/-- Where the destructor is.  While it joins the workers, some are left. -/
inductive DestructorPlace (n : ℕ) where
  | alive
  | calling
  | locked
  | stopped
  | notifying
  | joining (left : List (Fin n))
  | finished
deriving DecidableEq, Repr

namespace WorkerPlace

variable {Task : Type}

def holdsMu : WorkerPlace Task → Bool
  | .testing | .leaving | .taking | .holding _ | .exiting => true
  | _ => false

/-- The task that the worker has taken and not yet run. -/
def task : WorkerPlace Task → Option Task
  | .holding task | .running task => some task
  | _ => none

/-- What `notify_all` does. -/
def notified : WorkerPlace Task → WorkerPlace Task
  | .blocked => .woken
  | place => place

end WorkerPlace

def CallerPlace.holdsMu {Task : Type} : CallerPlace Task → Bool
  | .locked _ | .throwing | .pushed => true
  | _ => false

/-- The caller has pushed a task and has yet to notify a worker. -/
def CallerPlace.owesNotify {Task : Type} : CallerPlace Task → Bool
  | .pushed | .notifying => true
  | _ => false

namespace DestructorPlace

variable {n : ℕ}

def holdsMu : DestructorPlace n → Bool
  | .locked | .stopped => true
  | _ => false

def hasStopped : DestructorPlace n → Bool
  | .alive | .calling | .locked => false
  | _ => true

def hasNotified : DestructorPlace n → Bool
  | .joining _ | .finished => true
  | _ => false

/-- The destructor has still to join the worker. -/
def Awaits (worker : Fin n) : DestructorPlace n → Prop
  | .joining left => worker ∈ left
  | .finished => False
  | _ => True

end DestructorPlace

inductive Thread (n : ℕ) (Caller : Type) where
  | worker (worker : Fin n)
  | caller (caller : Caller)
  | destructor
deriving DecidableEq, Repr

/-- A step of `worker_loop`: the places, the queue afterwards, what is done with `mu_` and what
happens to a task. -/
inductive WorkerMove {n : ℕ} {Task : Type} (worker : Fin n) (tasks : List Task) (stop : Bool) :
    WorkerPlace Task → List Task → WorkerPlace Task → Mutex.Use → Activity (Fin n) Task →
    Prop where
  | lock : WorkerMove worker tasks stop .entering tasks .testing .acquire .quiet
  | wait (goesOn : stop = false) (empty : tasks = []) :
      WorkerMove worker tasks stop .testing tasks .blocked .release .quiet
  | proceed (ready : stop = true ∨ tasks ≠ []) :
      WorkerMove worker tasks stop .testing tasks .leaving .keep .quiet
  | wake : WorkerMove worker tasks stop .blocked tasks .woken .keep .quiet
  | relock : WorkerMove worker tasks stop .woken tasks .testing .acquire .quiet
  | exit (stopped : stop = true) (empty : tasks = []) :
      WorkerMove worker tasks stop .leaving tasks .exiting .keep .quiet
  | goOn (more : ¬(stop = true ∧ tasks = [])) :
      WorkerMove worker tasks stop .leaving tasks .taking .keep .quiet
  | take {task : Task} {rest : List Task} (front : tasks = task :: rest) :
      WorkerMove worker tasks stop .taking rest (.holding task) .keep (.take worker task)
  | unlock {task : Task} :
      WorkerMove worker tasks stop (.holding task) tasks (.running task) .release .quiet
  | run {task : Task} :
      WorkerMove worker tasks stop (.running task) tasks .entering .keep (.finish worker task)
  | ret : WorkerMove worker tasks stop .exiting tasks .returned .release .quiet

/-- A step of `enqueue` up to the notification. -/
inductive CallerMove {n : ℕ} {Task : Type} (tasks : List Task) (stop : Bool) :
    CallerPlace Task → List Task → CallerPlace Task → Mutex.Use → Activity (Fin n) Task →
    Prop where
  | call (task : Task) : CallerMove tasks stop .idle tasks (.calling task) .keep .quiet
  | lock {task : Task} : CallerMove tasks stop (.calling task) tasks (.locked task) .acquire .quiet
  | refuse {task : Task} (stopped : stop = true) :
      CallerMove tasks stop (.locked task) tasks .throwing .keep (.refuse task)
  | push {task : Task} (goesOn : stop = false) :
      CallerMove tasks stop (.locked task) (tasks ++ [task]) .pushed .keep (.accept task)
  | throw : CallerMove tasks stop .throwing tasks .idle .release .quiet
  | unlock : CallerMove tasks stop .pushed tasks .notifying .release .quiet

/-- A step of the destructor, except the notification. -/
inductive DestructorMove {n : ℕ} {Task : Type} (workers : Fin n → WorkerPlace Task) (stop : Bool) :
    DestructorPlace n → Bool → DestructorPlace n → Mutex.Use → Prop where
  | call : DestructorMove workers stop .alive stop .calling .keep
  | lock : DestructorMove workers stop .calling stop .locked .acquire
  | stop : DestructorMove workers stop .locked true .stopped .keep
  | unlock : DestructorMove workers stop .stopped stop .notifying .release
  | join {worker : Fin n} {left : List (Fin n)} (returned : workers worker = .returned) :
      DestructorMove workers stop (.joining (worker :: left)) stop (.joining left) .keep
  | finish : DestructorMove workers stop (.joining []) stop .finished .keep

end ThreadPool

/-- The members of the pool, and where its threads are. -/
structure ThreadPool (n : ℕ) (Caller Task : Type) where
  tasks : List Task
  mu : Option (ThreadPool.Thread n Caller)
  stop : Bool
  workers : Fin n → ThreadPool.WorkerPlace Task
  callers : Caller → ThreadPool.CallerPlace Task
  destructor : ThreadPool.DestructorPlace n

namespace ThreadPool

open WorkQueue (Activity)

variable {n : ℕ} {Caller Task : Type}

/-- The pool behind its constructor. -/
def initial (n : ℕ) : ThreadPool n Caller Task where
  tasks := []
  mu := none
  stop := false
  workers := fun _ => .entering
  callers := fun _ => .idle
  destructor := .alive

/-- One step of one thread. -/
inductive Step [DecidableEq Caller] (pool : ThreadPool n Caller Task) :
    Activity (Fin n) Task → ThreadPool n Caller Task → Prop where
  | worker (worker : Fin n) {tasks : List Task} {place : WorkerPlace Task} {use : Mutex.Use}
      {activity : Activity (Fin n) Task}
      (move : WorkerMove worker pool.tasks pool.stop (pool.workers worker) tasks place use
        activity) (available : use = .acquire → pool.mu = none) :
      Step pool activity
        { pool with
          tasks := tasks
          mu := use.after (.worker worker) pool.mu
          workers := Function.update pool.workers worker place }
  | caller (caller : Caller) {tasks : List Task} {place : CallerPlace Task} {use : Mutex.Use}
      {activity : Activity (Fin n) Task}
      (move : CallerMove pool.tasks pool.stop (pool.callers caller) tasks place use activity)
      (available : use = .acquire → pool.mu = none) :
      Step pool activity
        { pool with
          tasks := tasks
          mu := use.after (.caller caller) pool.mu
          callers := Function.update pool.callers caller place }
  | destructor {stop : Bool} {place : DestructorPlace n} {use : Mutex.Use}
      (move : DestructorMove pool.workers pool.stop pool.destructor stop place use)
      (available : use = .acquire → pool.mu = none) :
      Step pool .quiet
        { pool with
          stop := stop
          mu := use.after .destructor pool.mu
          destructor := place }
  | notifyOne {caller : Caller} (notifying : pool.callers caller = .notifying) (worker : Fin n)
      (blocked : pool.workers worker = .blocked) :
      Step pool .quiet
        { pool with
          workers := Function.update pool.workers worker .woken
          callers := Function.update pool.callers caller .idle }
  | notifyNone {caller : Caller} (notifying : pool.callers caller = .notifying)
      (none : ∀ worker, pool.workers worker ≠ .blocked) :
      Step pool .quiet { pool with callers := Function.update pool.callers caller .idle }
  | notifyAll (notifying : pool.destructor = .notifying) :
      Step pool .quiet
        { pool with
          workers := fun worker => (pool.workers worker).notified
          destructor := .joining (List.finRange n) }

/-! ## What a move does -/

/-- What a worker knows of the queue and of the stop flag. -/
def WorkerPlace.Knows (tasks : List Task) (stop : Bool) : WorkerPlace Task → Prop
  | .leaving => stop = true ∨ tasks ≠ []
  | .taking => tasks ≠ []
  | .exiting | .returned => stop = true ∧ tasks = []
  | _ => True

/-- A worker outside of `mu_` knows nothing, unless it has returned. -/
theorem WorkerPlace.knows_of_outside {place : WorkerPlace Task} {tasks : List Task} {stop : Bool}
    (outside : place.holdsMu = false)
    (returned : place = .returned → stop = true ∧ tasks = []) : place.Knows tasks stop := by
  cases place with
  | returned => exact returned rfl
  | testing | leaving | taking | holding | exiting => cases outside
  | entering | blocked | woken | running => trivial

theorem WorkerPlace.notified_cases (place : WorkerPlace Task) :
    place.notified = place ∨ place = .blocked ∧ place.notified = .woken := by
  cases place with
  | blocked => exact Or.inr ⟨rfl, rfl⟩
  | entering | testing | woken | leaving | taking | holding | running | exiting | returned =>
      exact Or.inl rfl

theorem WorkerPlace.notified_ne_blocked (place : WorkerPlace Task) :
    place.notified ≠ .blocked := by
  intro blocked
  rcases place.notified_cases with kept | ⟨-, woken⟩
  · rw [blocked] at kept
    rw [← kept] at blocked
    cases blocked
  · rw [woken] at blocked
    cases blocked

namespace WorkerMove

variable {worker : Fin n} {tasks later : List Task} {stop : Bool} {place next : WorkerPlace Task}
  {use : Mutex.Use} {activity : Activity (Fin n) Task}

theorem fits (move : WorkerMove worker tasks stop place later next use activity) :
    use.Fits place.holdsMu next.holdsMu := by
  cases move with
  | lock | relock => exact ⟨fun _ => Or.inl rfl, nofun⟩
  | proceed | exit | goOn | take => exact ⟨fun _ => Or.inr ⟨rfl, rfl⟩, nofun⟩
  | wake | run => exact ⟨nofun, nofun⟩
  | wait | unlock | ret => exact ⟨nofun, fun _ => rfl⟩

theorem knows (move : WorkerMove worker tasks stop place later next use activity)
    (known : place.Knows tasks stop) : next.Knows later stop := by
  cases move with
  | proceed ready => exact ready
  | exit stopped empty => exact ⟨stopped, empty⟩
  | goOn more =>
      intro empty
      rcases known with stopped | some
      · exact more ⟨stopped, empty⟩
      · exact some empty
  | ret => exact known
  | lock | wait | wake | relock | take | unlock | run => trivial

/-- Only a worker inside `mu_` changes the queue, and it takes a task. -/
theorem tasks_cases (move : WorkerMove worker tasks stop place later next use activity) :
    later = tasks ∨ place.holdsMu = true ∧ tasks ≠ [] := by
  cases move with
  | take front => exact Or.inr ⟨rfl, by rw [front]; nofun⟩
  | lock | wait | proceed | wake | relock | exit | goOn | unlock | run | ret =>
      exact Or.inl rfl

theorem ne_returned (move : WorkerMove worker tasks stop place later next use activity) :
    place ≠ .returned := by
  rintro rfl
  cases move

/-- A worker goes to sleep only if there is nothing to do. -/
theorem of_blocked (move : WorkerMove worker tasks stop place later .blocked use activity) :
    later = [] ∧ stop = false := by
  cases move with
  | wait goesOn empty => exact ⟨empty, goesOn⟩

theorem workQueue_step (move : WorkerMove worker tasks stop place later next use activity)
    {current : Fin n → Option Task} (here : current worker = place.task) :
    WorkQueue.Step ⟨tasks, stop, current⟩ activity
      ⟨later, stop, Function.update current worker next.task⟩ := by
  have same : next.task = place.task → Function.update current worker next.task = current := by
    intro kept
    rw [kept, ← here]
    exact Function.update_eq_self _ _
  cases move with
  | take front => exact .take here front
  | run => exact .finish here
  | lock | wait | proceed | wake | relock | exit | goOn | unlock | ret =>
      rw [same rfl]
      exact .stay

end WorkerMove

namespace CallerMove

variable {tasks later : List Task} {stop : Bool} {place next : CallerPlace Task}
  {use : Mutex.Use} {activity : Activity (Fin n) Task}

theorem fits (move : CallerMove tasks stop place later next use activity) :
    use.Fits place.holdsMu next.holdsMu := by
  cases move with
  | call => exact ⟨nofun, nofun⟩
  | lock => exact ⟨fun _ => Or.inl rfl, nofun⟩
  | refuse | push => exact ⟨fun _ => Or.inr ⟨rfl, rfl⟩, nofun⟩
  | throw | unlock => exact ⟨nofun, fun _ => rfl⟩

/-- Only a caller inside `mu_` changes the queue, and only before the stop. -/
theorem tasks_cases (move : CallerMove tasks stop place later next use activity) :
    later = tasks ∨ place.holdsMu = true ∧ stop = false := by
  cases move with
  | push goesOn => exact Or.inr ⟨rfl, goesOn⟩
  | call | lock | refuse | throw | unlock => exact Or.inl rfl

/-- A caller leaves a task behind only when it has notified a worker. -/
theorem owesNotify (move : CallerMove tasks stop place later next use activity) :
    (later ≠ [] → tasks ≠ [] ∨ next.owesNotify = true) ∧
      (place.owesNotify = true → next.owesNotify = true) := by
  cases move with
  | push => exact ⟨fun _ => Or.inr rfl, fun _ => rfl⟩
  | unlock => exact ⟨Or.inl, fun _ => rfl⟩
  | call | lock | refuse | throw => exact ⟨Or.inl, nofun⟩

theorem workQueue_step (move : CallerMove tasks stop place later next use activity)
    (current : Fin n → Option Task) :
    WorkQueue.Step ⟨tasks, stop, current⟩ activity ⟨later, stop, current⟩ := by
  cases move with
  | refuse stopped => exact .refuse _ stopped
  | push goesOn => exact .accept _ goesOn
  | call | lock | throw | unlock => exact .stay

end CallerMove

namespace DestructorMove

variable {workers : Fin n → WorkerPlace Task} {stop later : Bool} {place next : DestructorPlace n}
  {use : Mutex.Use}

theorem fits (move : DestructorMove workers stop place later next use) :
    use.Fits place.holdsMu next.holdsMu := by
  cases move with
  | lock => exact ⟨fun _ => Or.inl rfl, nofun⟩
  | stop => exact ⟨fun _ => Or.inr ⟨rfl, rfl⟩, nofun⟩
  | unlock => exact ⟨nofun, fun _ => rfl⟩
  | call | join | finish => exact ⟨nofun, nofun⟩

/-- Only inside `mu_` is the stop flag set. -/
theorem stop_cases (move : DestructorMove workers stop place later next use) :
    later = stop ∨ place.holdsMu = true ∧ later = true := by
  cases move with
  | stop => exact Or.inr ⟨rfl, rfl⟩
  | call | lock | unlock | join | finish => exact Or.inl rfl

theorem hasStopped (move : DestructorMove workers stop place later next use)
    (before : place.hasStopped = true → stop = true) (after : next.hasStopped = true) :
    later = true := by
  cases move with
  | stop => rfl
  | unlock | join | finish => exact before rfl
  | call | lock => cases after

theorem hasNotified (move : DestructorMove workers stop place later next use)
    (after : next.hasNotified = true) : place.hasNotified = true := by
  cases move with
  | join | finish => rfl
  | call | lock | stop | unlock => cases after

/-- The workers that are not awaited any more have returned. -/
theorem awaits (move : DestructorMove workers stop place later next use) {worker : Fin n}
    (joined : place.Awaits worker ∨ workers worker = .returned) :
    next.Awaits worker ∨ workers worker = .returned := by
  cases move with
  | call | lock | stop | unlock => exact Or.inl trivial
  | join returned =>
      rcases joined with mem | done
      · rcases List.mem_cons.mp mem with rfl | left
        · exact Or.inr returned
        · exact Or.inl left
      · exact Or.inr done
  | finish =>
      rcases joined with none | done
      · cases none
      · exact Or.inr done

theorem workQueue_step (move : DestructorMove workers stop place later next use)
    (tasks : List Task) (current : Fin n → Option Task) :
    WorkQueue.Step ⟨tasks, stop, current⟩ .quiet ⟨tasks, later, current⟩ := by
  cases move with
  | stop => exact .close
  | call | lock | unlock | join | finish => exact .stay

end DestructorMove

/-! ## The invariant -/

/-- The thread is in a section that `mu_` protects. -/
def holdsMu (pool : ThreadPool n Caller Task) : Thread n Caller → Bool
  | .worker worker => (pool.workers worker).holdsMu
  | .caller caller => (pool.callers caller).holdsMu
  | .destructor => pool.destructor.holdsMu

structure Invariant (pool : ThreadPool n Caller Task) : Prop where
  exclusive : Mutex.Exclusive pool.holdsMu pool.mu
  knows : ∀ worker, (pool.workers worker).Knows pool.tasks pool.stop
  joined : ∀ worker, pool.destructor.Awaits worker ∨ pool.workers worker = .returned

namespace Invariant

variable {pool : ThreadPool n Caller Task}

theorem initial (n : ℕ) : Invariant (initial n : ThreadPool n Caller Task) := by
  refine ⟨?_, fun _ => trivial, fun _ => Or.inl trivial⟩
  rintro (worker | caller | _) held
  · cases held
  · cases held
  · cases held

/-- What a worker outside of `mu_` knows, it still knows after a change of the queue and of the
stop flag, if workers that have returned rule the change out. -/
theorem knows_of_change (invariant : Invariant pool) (thread : Thread n Caller)
    (inside : pool.holdsMu thread = true) (worker : Fin n) (different : .worker worker ≠ thread)
    {tasks : List Task} {stop : Bool}
    (returned : pool.stop = true ∧ pool.tasks = [] → stop = true ∧ tasks = []) :
    (pool.workers worker).Knows tasks stop := by
  have outside : pool.holdsMu (.worker worker) = false :=
    invariant.exclusive.outside inside different
  apply WorkerPlace.knows_of_outside outside
  intro here
  have known := invariant.knows worker
  rw [here] at known
  exact returned known

variable {activity : Activity (Fin n) Task} {tasks : List Task} {use : Mutex.Use}

theorem worker (invariant : Invariant pool) {worker : Fin n} {place : WorkerPlace Task}
    (move : WorkerMove worker pool.tasks pool.stop (pool.workers worker) tasks place use activity)
    (available : use = .acquire → pool.mu = none) :
    Invariant { pool with
      tasks := tasks
      mu := use.after (.worker worker) pool.mu
      workers := Function.update pool.workers worker place } := by
  refine ⟨?_, ?_, ?_⟩
  · apply invariant.exclusive.step _ available
    · rintro (other | caller | _) different held
      · have apart : other ≠ worker := fun same => different (by rw [same])
        simpa only [holdsMu, Function.update_of_ne apart] using held
      · exact held
      · exact held
    · simpa only [holdsMu, Function.update_self] using move.fits
  · intro other
    by_cases same : other = worker
    · subst same
      simp only [Function.update_self]
      exact move.knows (invariant.knows other)
    · simp only [Function.update_of_ne same]
      rcases move.tasks_cases with kept | ⟨inside, some⟩
      · rw [kept]
        exact invariant.knows other
      · apply invariant.knows_of_change (.worker worker) inside other
        · simpa using same
        · rintro ⟨-, empty⟩
          exact absurd empty some
  · intro other
    rcases invariant.joined other with awaits | returned
    · exact Or.inl awaits
    · have different : other ≠ worker := by
        rintro rfl
        exact move.ne_returned returned
      simp only [Function.update_of_ne different]
      exact Or.inr returned

theorem destructor (invariant : Invariant pool) {stop : Bool} {place : DestructorPlace n}
    (move : DestructorMove pool.workers pool.stop pool.destructor stop place use)
    (available : use = .acquire → pool.mu = none) :
    Invariant { pool with
      stop := stop
      mu := use.after .destructor pool.mu
      destructor := place } := by
  refine ⟨?_, ?_, fun worker => move.awaits (invariant.joined worker)⟩
  · apply invariant.exclusive.step move.fits available
    rintro (worker | caller | _) different held
    · exact held
    · exact held
    · exact absurd rfl different
  · intro worker
    rcases move.stop_cases with kept | ⟨inside, stopped⟩
    · simp only [kept]
      exact invariant.knows worker
    · apply invariant.knows_of_change .destructor inside worker nofun
      rintro ⟨-, empty⟩
      exact ⟨stopped, empty⟩

/-- A worker that is woken has still to take `mu_`, and knows nothing. -/
theorem wake (invariant : Invariant pool) {workers : Fin n → WorkerPlace Task}
    {callers : Caller → CallerPlace Task} {destructor : DestructorPlace n}
    (woken : ∀ worker, workers worker = pool.workers worker ∨
      pool.workers worker = .blocked ∧ workers worker = .woken)
    (callersOut : ∀ caller, (callers caller).holdsMu = true →
      (pool.callers caller).holdsMu = true)
    (destructorOut : destructor.holdsMu = true → pool.destructor.holdsMu = true)
    (awaited : ∀ worker, pool.destructor.Awaits worker → destructor.Awaits worker) :
    Invariant { pool with workers, callers, destructor } := by
  refine ⟨?_, ?_, ?_⟩
  · rintro (worker | caller | _) held
    · rcases woken worker with same | ⟨-, here⟩
      · apply invariant.exclusive (.worker worker)
        simpa only [holdsMu, same] using held
      · simp only [holdsMu, here] at held
        cases held
    · exact invariant.exclusive (.caller caller) (callersOut caller held)
    · exact invariant.exclusive .destructor (destructorOut held)
  · intro worker
    rcases woken worker with same | ⟨-, here⟩
    · simp only [same]
      exact invariant.knows worker
    · simp only [here]
      trivial
  · intro worker
    rcases invariant.joined worker with awaits | returned
    · exact Or.inl (awaited worker awaits)
    · rcases woken worker with same | ⟨blocked, -⟩
      · exact Or.inr (same.trans returned)
      · rw [blocked] at returned
        cases returned

variable [DecidableEq Caller] {after : ThreadPool n Caller Task}

theorem caller (invariant : Invariant pool) {caller : Caller} {place : CallerPlace Task}
    (move : CallerMove pool.tasks pool.stop (pool.callers caller) tasks place use activity)
    (available : use = .acquire → pool.mu = none) :
    Invariant { pool with
      tasks := tasks
      mu := use.after (.caller caller) pool.mu
      callers := Function.update pool.callers caller place } := by
  refine ⟨?_, ?_, invariant.joined⟩
  · apply invariant.exclusive.step _ available
    · rintro (worker | other | _) different held
      · exact held
      · have apart : other ≠ caller := fun same => different (by rw [same])
        simpa only [holdsMu, Function.update_of_ne apart] using held
      · exact held
    · simpa only [holdsMu, Function.update_self] using move.fits
  · intro worker
    rcases move.tasks_cases with kept | ⟨inside, goesOn⟩
    · simp only [kept]
      exact invariant.knows worker
    · apply invariant.knows_of_change (.caller caller) inside worker nofun
      rintro ⟨stopped, -⟩
      rw [goesOn] at stopped
      cases stopped

theorem holdsMu_of_idle (caller : Caller) {callers : Caller → CallerPlace Task} (other : Caller)
    (held : (Function.update callers caller .idle other).holdsMu = true) :
    (callers other).holdsMu = true := by
  by_cases same : other = caller
  · subst same
    rw [Function.update_self] at held
    cases held
  · rwa [Function.update_of_ne same] at held

theorem step (invariant : Invariant pool) (step : Step pool activity after) :
    Invariant after := by
  cases step with
  | worker worker move available => exact invariant.worker move available
  | caller caller move available => exact invariant.caller move available
  | destructor move available => exact invariant.destructor move available
  | @notifyOne caller notifying worker blocked =>
      apply invariant.wake _ _ id fun _ => id
      · intro other
        by_cases same : other = worker
        · subst same
          exact Or.inr ⟨blocked, Function.update_self _ _ _⟩
        · exact Or.inl (Function.update_of_ne same _ _)
      · exact holdsMu_of_idle caller
  | @notifyNone caller notifying none =>
      exact invariant.wake (fun _ => Or.inl rfl) (holdsMu_of_idle caller) id fun _ => id
  | notifyAll notifying =>
      apply invariant.wake (fun worker => (pool.workers worker).notified_cases) (fun _ => id)
      · intro held
        cases held
      · intro worker _
        exact List.mem_finRange worker

theorem run {moves : List (Transition.Move (ThreadPool n Caller Task) (Activity (Fin n) Task))}
    (run : Transition.Run Step (ThreadPool.initial n) moves pool) : Invariant pool := by
  apply run.invariant (initial n)
  intro moves pool activity after _ invariant step
  exact invariant.step step

end Invariant

/-! ## No worker sleeps past a task -/

/-- For a task that waits, a worker is awake or will be woken, and no worker sleeps once all have
been told to stop. -/
structure Awake (pool : ThreadPool n Caller Task) : Prop where
  tasks : pool.tasks ≠ [] → (∃ worker, pool.workers worker ≠ .blocked) ∨
    ∃ caller, (pool.callers caller).owesNotify = true
  stopped : pool.destructor.hasStopped = true → pool.stop = true
  notified : pool.destructor.hasNotified = true → ∀ worker, pool.workers worker ≠ .blocked

theorem DestructorPlace.hasStopped_of_hasNotified {destructor : DestructorPlace n}
    (notified : destructor.hasNotified = true) : destructor.hasStopped = true := by
  cases destructor with
  | joining | finished => rfl
  | alive | calling | locked | stopped | notifying => cases notified

namespace Awake

variable {pool : ThreadPool n Caller Task} {tasks : List Task} {use : Mutex.Use}
  {activity : Activity (Fin n) Task}

theorem initial (n : ℕ) : Awake (initial n : ThreadPool n Caller Task) :=
  ⟨fun some => absurd rfl some, nofun, nofun⟩

theorem worker (awake : Awake pool) {worker : Fin n} {place : WorkerPlace Task}
    (move : WorkerMove worker pool.tasks pool.stop (pool.workers worker) tasks place use activity)
    (mu : Option (Thread n Caller)) :
    Awake { pool with
      tasks := tasks
      mu := mu
      workers := Function.update pool.workers worker place } := by
  refine ⟨?_, awake.stopped, ?_⟩
  · intro some
    refine Or.inl ⟨worker, ?_⟩
    simp only [Function.update_self]
    rintro rfl
    exact some move.of_blocked.1
  · intro notified other
    by_cases same : other = worker
    · subst same
      simp only [Function.update_self]
      rintro rfl
      have stopped := awake.stopped (DestructorPlace.hasStopped_of_hasNotified notified)
      rw [move.of_blocked.2] at stopped
      cases stopped
    · simp only [Function.update_of_ne same]
      exact awake.notified notified other

variable [DecidableEq Caller] {after : ThreadPool n Caller Task}

theorem caller (awake : Awake pool) {caller : Caller} {place : CallerPlace Task}
    (move : CallerMove pool.tasks pool.stop (pool.callers caller) tasks place use activity)
    (mu : Option (Thread n Caller)) :
    Awake { pool with
      tasks := tasks
      mu := mu
      callers := Function.update pool.callers caller place } := by
  refine ⟨?_, awake.stopped, awake.notified⟩
  have here : place.owesNotify = true →
      ∃ other, (Function.update pool.callers caller place other).owesNotify = true :=
    fun owes => ⟨caller, by rwa [Function.update_self]⟩
  intro some
  rcases move.owesNotify.1 some with before | owes
  · rcases awake.tasks before with up | ⟨other, owes⟩
    · exact Or.inl up
    · by_cases same : other = caller
      · subst same
        exact Or.inr (here (move.owesNotify.2 owes))
      · refine Or.inr ⟨other, ?_⟩
        simpa only [Function.update_of_ne same] using owes
  · exact Or.inr (here owes)

theorem step (awake : Awake pool) (positive : 0 < n) (step : Step pool activity after) :
    Awake after := by
  cases step with
  | worker worker move available => exact awake.worker move _
  | caller caller move available => exact awake.caller move _
  | destructor move available =>
      exact ⟨awake.tasks, move.hasStopped awake.stopped,
        fun notified => awake.notified (move.hasNotified notified)⟩
  | @notifyOne caller notifying worker blocked =>
      refine ⟨fun _ => Or.inl ⟨worker, ?_⟩, awake.stopped, ?_⟩
      · simp only [Function.update_self]
        nofun
      · intro notified other
        exact absurd blocked (awake.notified notified worker)
  | @notifyNone caller notifying none =>
      exact ⟨fun _ => Or.inl ⟨⟨0, positive⟩, none _⟩, awake.stopped, awake.notified⟩
  | notifyAll notifying =>
      refine ⟨fun _ => Or.inl ⟨⟨0, positive⟩, WorkerPlace.notified_ne_blocked _⟩, ?_, ?_⟩
      · intro _
        apply awake.stopped
        rw [notifying]
        rfl
      · intro _ worker
        exact WorkerPlace.notified_ne_blocked _

end Awake

/-! ## The pool as a queue of work -/

/-- What the users of the pool see of it. -/
def workQueue (pool : ThreadPool n Caller Task) : WorkQueue (Fin n) Task where
  waiting := pool.tasks
  closed := pool.stop
  current := fun worker => (pool.workers worker).task

section Steps

variable [DecidableEq Caller] {pool after : ThreadPool n Caller Task}
  {activity : Activity (Fin n) Task}
  {moves : List (Transition.Move (ThreadPool n Caller Task) (Activity (Fin n) Task))}

theorem current_update (workers : Fin n → WorkerPlace Task) (worker : Fin n)
    (place : WorkerPlace Task) :
    (fun other => (Function.update workers worker place other).task) =
      Function.update (fun other => (workers other).task) worker place.task := by
  funext other
  exact Function.apply_update (fun _ => WorkerPlace.task) workers worker place other

theorem Step.workQueue (step : Step pool activity after) :
    WorkQueue.Step pool.workQueue activity after.workQueue := by
  cases step with
  | worker worker move available =>
      simp only [ThreadPool.workQueue, current_update]
      exact move.workQueue_step rfl
  | caller caller move available => exact move.workQueue_step _
  | destructor move available => exact move.workQueue_step _ _
  | notifyOne notifying worker blocked =>
      have same : WorkerPlace.woken.task = (pool.workers worker).task := by
        rw [blocked]
        rfl
      simp only [ThreadPool.workQueue, current_update, same, Function.update_eq_self]
      exact .stay
  | notifyNone notifying none => exact .stay
  | notifyAll notifying =>
      have same : ∀ worker, (pool.workers worker).notified.task = (pool.workers worker).task := by
        intro worker
        rcases (pool.workers worker).notified_cases with kept | ⟨blocked, woken⟩
        · rw [kept]
        · rw [blocked]
          rfl
      simp only [ThreadPool.workQueue, same]
      exact .stay

/-- The pool refines the queue of work. -/
theorem workQueue_run (run : Transition.Run Step (initial n) moves pool) :
    Transition.Run WorkQueue.Step WorkQueue.empty (moves.map (Transition.Move.view workQueue))
      pool.workQueue :=
  run.simulate workQueue fun _ _ _ _ _ step => step.workQueue

theorem accounted_run (run : Transition.Run Step (initial n) moves pool) :
    WorkQueue.Accounted (moves.map Transition.Move.label) pool.workQueue := by
  have accounted := WorkQueue.Accounted.run (workQueue_run run)
  simpa only [List.map_map, Function.comp_def, Transition.Move.view] using accounted

/-- A caller that meets the stop flag is refused. -/
theorem Step.refuses (step : Step pool activity after) (stopped : pool.stop = true)
    {caller : Caller} {task : Task} (locked : pool.callers caller = .locked task) :
    after.callers caller = .locked task ∨
      activity = .refuse task ∧ after.callers caller = .throwing ∧ after.tasks = pool.tasks := by
  cases step with
  | worker worker move available => exact Or.inl locked
  | destructor move available => exact Or.inl locked
  | notifyAll notifying => exact Or.inl locked
  | caller other move available =>
      by_cases same : caller = other
      · subst same
        right
        rw [locked] at move
        cases move with
        | refuse => exact ⟨rfl, Function.update_self _ _ _, rfl⟩
        | push goesOn =>
            rw [stopped] at goesOn
            cases goesOn
      · left
        exact (Function.update_of_ne same _ _).trans locked
  | @notifyOne other notifying worker blocked =>
      left
      have different : caller ≠ other := by
        rintro rfl
        rw [locked] at notifying
        cases notifying
      exact (Function.update_of_ne different _ _).trans locked
  | @notifyNone other notifying none =>
      left
      have different : caller ≠ other := by
        rintro rfl
        rw [locked] at notifying
        cases notifying
      exact (Function.update_of_ne different _ _).trans locked

theorem tasks_of_returned (run : Transition.Run Step (initial n) moves pool) {worker : Fin n}
    (returned : pool.workers worker = .returned) : pool.tasks = [] := by
  have known := (Invariant.run run).knows worker
  rw [returned] at known
  exact known.2

theorem returned_of_finished (run : Transition.Run Step (initial n) moves pool)
    (finished : pool.destructor = .finished) (worker : Fin n) :
    pool.workers worker = .returned := by
  rcases (Invariant.run run).joined worker with awaits | returned
  · rw [finished] at awaits
    cases awaits
  · exact returned

/-- If a task waits, a worker is on its way to the queue, or a caller is about to notify one; and
the destructor does not wait for a worker that sleeps. -/
theorem no_worker_sleeps (positive : 0 < n) (run : Transition.Run Step (initial n) moves pool) :
    (pool.tasks ≠ [] →
      (∃ worker, pool.workers worker ≠ .blocked ∧ pool.workers worker ≠ .returned) ∨
        ∃ caller, (pool.callers caller).owesNotify = true) ∧
      (pool.destructor.hasNotified = true → ∀ worker, pool.workers worker ≠ .blocked) := by
  have awake : Awake pool := by
    apply run.invariant (Awake.initial n)
    intro moves pool activity after _ awake step
    exact awake.step positive step
  refine ⟨?_, awake.notified⟩
  intro some
  rcases awake.tasks some with ⟨worker, up⟩ | owes
  · exact Or.inl ⟨worker, up, fun returned => some (tasks_of_returned run returned)⟩
  · exact Or.inr owes

end Steps

section Sole

variable {Task : Type}

def sole (tasks : List Task) (mu : Option (Thread 1 Unit)) (stop : Bool)
    (worker : WorkerPlace Task) (caller : CallerPlace Task) (destructor : DestructorPlace 1) :
    ThreadPool 1 Unit Task :=
  ⟨tasks, mu, stop, fun _ => worker, fun _ => caller, destructor⟩

variable {tasks later : List Task} {mu : Option (Thread 1 Unit)} {stop : Bool}
  {worker nextWorker : WorkerPlace Task} {caller nextCaller : CallerPlace Task}
  {destructor : DestructorPlace 1} {use : Mutex.Use} {activity : Activity (Fin 1) Task}

theorem sole_worker (move : WorkerMove 0 tasks stop worker later nextWorker use activity)
    (available : use = .acquire → mu = none) :
    Step (sole tasks mu stop worker caller destructor) activity
      (sole later (use.after (.worker 0) mu) stop nextWorker caller destructor) := by
  have step := @Step.worker _ _ _ _ (sole tasks mu stop worker caller destructor) 0 _ _ _ _ move
    available
  have all : Function.update (fun _ => worker) (0 : Fin 1) nextWorker = fun _ => nextWorker :=
    Function.update_eq_const_of_subsingleton _ _ _
  simp only [sole, all] at step
  exact step

theorem sole_caller (move : CallerMove tasks stop caller later nextCaller use activity)
    (available : use = .acquire → mu = none) :
    Step (sole tasks mu stop worker caller destructor) activity
      (sole later (use.after (.caller ()) mu) stop worker nextCaller destructor) := by
  have step := @Step.caller _ _ _ _ (sole tasks mu stop worker caller destructor) () _ _ _ _ move
    available
  have all : Function.update (fun _ => caller) () nextCaller = fun _ => nextCaller :=
    Function.update_eq_const_of_subsingleton _ _ _
  simp only [sole, all] at step
  exact step

theorem sole_notifyNone (awake : worker ≠ .blocked) :
    Step (sole tasks mu stop worker .notifying destructor) .quiet
      (sole tasks mu stop worker .idle destructor) := by
  have step := @Step.notifyNone _ _ _ _ (sole tasks mu stop worker .notifying destructor) () rfl
    fun _ => awake
  have all : Function.update (fun _ => CallerPlace.notifying) () (@CallerPlace.idle Task) =
      fun _ => .idle := Function.update_eq_const_of_subsingleton _ _ _
  simp only [sole, all] at step
  exact step

theorem sole_run : ∃ (moves : List (Transition.Move (ThreadPool 1 Unit ℕ) (Activity (Fin 1) ℕ)))
    (pool : ThreadPool 1 Unit ℕ), Transition.Run Step (initial 1) moves pool ∧
      pool.destructor = .finished ∧ WorkQueue.accepted (moves.map Transition.Move.label) = [7] := by
  have start : Transition.Run Step (initial 1) [] (sole [] none false .entering .idle .alive) :=
    @Transition.Run.nil _ _ (@Step 1 Unit ℕ _) _
  have locked := (start.snoc (sole_caller (.call 7) nofun)).snoc (sole_caller .lock fun _ => rfl)
  have pushed := (locked.snoc (sole_caller (.push rfl) nofun)).snoc (sole_caller .unlock nofun)
  have tested := ((pushed.snoc (sole_notifyNone nofun)).snoc
    (sole_worker .lock fun _ => rfl)).snoc (sole_worker (.proceed (Or.inr (by simp))) nofun)
  have taken := (tested.snoc (sole_worker (.goOn (by simp)) nofun)).snoc
    (sole_worker (.take rfl) nofun)
  have ran := (taken.snoc (sole_worker .unlock nofun)).snoc (sole_worker .run nofun)
  have stopped := ((ran.snoc (.destructor .call nofun)).snoc
    (.destructor .lock fun _ => rfl)).snoc (.destructor .stop nofun)
  have joining : ∃ moves, Transition.Run Step (initial 1) moves
      (sole ([] : List ℕ) none true .entering .idle (.joining [0])) ∧
        WorkQueue.accepted (moves.map Transition.Move.label) = [7] :=
    ⟨_, (stopped.snoc (.destructor .unlock nofun)).snoc (.notifyAll rfl), rfl⟩
  rcases joining with ⟨moves, notified, accepted⟩
  have left := ((notified.snoc (sole_worker .lock fun _ => rfl)).snoc
    (sole_worker (.proceed (Or.inl rfl)) nofun)).snoc (sole_worker (.exit rfl rfl) nofun)
  have finished := ((left.snoc (sole_worker .ret nofun)).snoc
    (.destructor (.join rfl) nofun)).snoc (.destructor .finish nofun)
  refine ⟨_, _, finished, rfl, ?_⟩
  simpa [WorkQueue.accepted, Activity.accepted] using accepted

end Sole

/-- However the threads are interleaved, the tasks accepted are those taken, in their order,
followed by those in the queue, and each worker has run what it has taken, up to the task it
holds.  With the stop flag set, `enqueue` is refused and the queue does not grow.  When all
workers have returned, nothing is left, so behind the destructor every accepted task has been
run once. -/
theorem loses_and_repeats_no_task [DecidableEq Caller] (nThreads hardwareConcurrency : ℕ)
    {moves : List (Transition.Move (ThreadPool (threadCount nThreads hardwareConcurrency) Caller
      Task) (Activity (Fin (threadCount nThreads hardwareConcurrency)) Task))}
    {pool : ThreadPool (threadCount nThreads hardwareConcurrency) Caller Task}
    (run : Transition.Run Step (initial _) moves pool) :
    WorkQueue.accepted (moves.map Transition.Move.label) =
        (WorkQueue.taken (moves.map Transition.Move.label)).map Prod.snd ++ pool.tasks ∧
      (∀ worker, WorkQueue.ofWorker worker (WorkQueue.taken (moves.map Transition.Move.label)) =
        WorkQueue.ofWorker worker (WorkQueue.finished (moves.map Transition.Move.label)) ++
          (pool.workers worker).task.toList) ∧
      (∀ move ∈ moves, move.source.stop = true →
        move.target.stop = true ∧ move.label.accepted = [] ∧
          ∀ caller task, move.source.callers caller = .locked task →
            move.target.callers caller = .locked task ∨
              move.label = .refuse task ∧ move.target.callers caller = .throwing ∧
                move.target.tasks = move.source.tasks) ∧
      ((∀ worker, pool.workers worker = .returned) → pool.tasks = []) ∧
      (pool.destructor = .finished → (∀ worker, pool.workers worker = .returned) ∧
        ((WorkQueue.finished (moves.map Transition.Move.label)).map Prod.snd).Perm
          (WorkQueue.accepted (moves.map Transition.Move.label))) := by
  have accounted := accounted_run run
  have empty : (∀ worker, pool.workers worker = .returned) → pool.tasks = [] :=
    fun returned => tasks_of_returned run
      (returned ⟨0, threadCount_pos nThreads hardwareConcurrency⟩)
  refine ⟨accounted.conserved, accounted.served, ?_, empty, ?_⟩
  · intro move mem stopped
    rcases List.append_of_mem mem with ⟨before, later, parts⟩
    have step := (run.split parts).2
    have closed := step.workQueue.of_closed stopped
    exact ⟨closed.1, closed.2, fun caller task => step.refuses stopped⟩
  · intro finished
    have returned := returned_of_finished run finished
    refine ⟨returned, accounted.settled (empty returned) ?_⟩
    intro worker
    simp only [workQueue, returned worker]
    rfl

theorem loses_and_repeats_no_task_one :
    ∃ (moves : List (Transition.Move (ThreadPool 1 Unit ℕ) (Activity (Fin 1) ℕ)))
      (pool : ThreadPool 1 Unit ℕ), Transition.Run Step (initial 1) moves pool ∧
        ((WorkQueue.finished (moves.map Transition.Move.label)).map Prod.snd).Perm [7] := by
  rcases sole_run with ⟨moves, pool, run, finished, accepted⟩
  have ran := ((loses_and_repeats_no_task 1 8 run).2.2.2.2 finished).2
  exact ⟨moves, pool, run, ran.trans (List.Perm.of_eq accepted)⟩

end ThreadPool

end RedisCpp
