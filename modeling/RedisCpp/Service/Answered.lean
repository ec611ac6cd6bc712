import RedisCpp.Commands.Progress
import RedisCpp.Net.Draining
import RedisCpp.Service.Served

/-!
# Every command can be answered

Wherever the reactor, the workers and the TTL thread are, the server can come to a state in which
every command that has arrived on an open connection is executed and its reply written to the last
byte: nobody sends anything more, no time passes and the kernel takes what it is offered.

Only a command whose deadline is not defined is in the way, because it has no meaning.
-/

namespace RedisCpp.Service

open Store Commands
open Net (ConnId Server Task ReactorConfig Connection eventsOf)
open SerialService (queued executed replies written Accounted)

/-! ## What the commands ask for -/

section Machines

variable {Tid : Type} [DecidableEq Tid] {config : ReactorConfig} {machine after : Machine Tid}
  {happenings added : List Happening}

/-- A worker uses the store only for the command that it executes, and the TTL thread only to
expire a key. -/
structure Employed (machine : Machine Tid) : Prop where
  workers : ∀ tid action, (machine.sessions.clients (some tid)).action = some action →
    ∃ task, machine.server.pool tid = .executing task ∧
      (onMessage task.args).action = some action
  ttl : ∀ action, (machine.sessions.clients none).action = some action →
    ∃ key, action = .single (.onTtlExpired key)

theorem ready_of_answered {sessions later : Sessions (Option Tid)} {thread : Option Tid}
    {action : Action} {answer : Answer}
    (step : SessionStep sessions (some (thread, .answered action answer)) later) :
    later.clients thread = .ready := by
  rcases step.answered_cases with ⟨_, _, -, -, -, -, rfl⟩ | ⟨_, _, -, -, -, rfl⟩ |
    ⟨_, _, -, -, -, rfl⟩
  · exact Function.update_self _ _ _
  · exact Function.update_self _ _ _
  · exact Function.update_self _ _ _

namespace Employed

/-- A step of the store at which no worker begins with anything but its command. -/
theorem store (employed : Employed machine) {label : Option (Option Tid × Observation)}
    {sessions : Sessions (Option Tid)} (step : SessionStep machine.sessions label sessions)
    (workers : ∀ tid action, label = some (some tid, .started action) →
      ∃ task, machine.server.pool tid = .executing task ∧
        (onMessage task.args).action = some action)
    (ttl : ∀ action, label = some (none, .started action) →
      ∃ key, action = .single (.onTtlExpired key)) (began : Tid → Counters) :
    Employed { machine with sessions := sessions, began := began } := by
  constructor
  · intro tid action own
    rcases action_of_step step own with before | began
    · exact employed.workers tid action before
    · exact workers tid action began
  · intro action own
    rcases action_of_step step own with before | began
    · exact employed.ttl action before
    · exact ttl action began

/-- The worker that has executed its command uses the store no more. -/
theorem executed (employed : Employed machine) {tid : Tid} {work : Net.Worker}
    {sessions : Sessions (Option Tid)}
    (others : ∀ other, other ≠ some tid →
      sessions.clients other = machine.sessions.clients other)
    (rested : (sessions.clients (some tid)).action = none) :
    Employed
      { machine with server := machine.server.setWorker tid work, sessions := sessions } := by
  constructor
  · intro other action own
    rcases eq_or_ne other tid with rfl | different
    · rw [rested] at own
      cases own
    · rw [others _ fun same => different (Option.some.inj same)] at own
      rcases employed.workers other action own with ⟨task, executing, asks⟩
      exact ⟨task, (Function.update_of_ne different _ _).trans executing, asks⟩
  · intro action own
    rw [others none (by simp)] at own
    exact employed.ttl action own

theorem step (employed : Employed machine) (step : Step config machine added after) :
    Employed after := by
  cases step with
  | serve arrives unexecuted =>
      have kept := (executing_step arrives.step.poolStep unexecuted).1
      refine ⟨?_, employed.ttl⟩
      intro tid action own
      rcases employed.workers tid action own with ⟨task, executing, asks⟩
      exact ⟨task, kept tid task executing, asks⟩
  | @reply tid task resp executing plan =>
      apply employed.executed fun _ _ => rfl
      by_contra busy
      rcases Option.ne_none_iff_exists'.mp busy with ⟨action, own⟩
      rcases employed.workers tid action own with ⟨found, there, asks⟩
      cases executing.symm.trans there
      rw [plan] at asks
      cases asks
  | @start tid task action sessions executing plan step =>
      refine employed.store step ?_ ?_ _
      · rintro other begun ⟨⟩
        exact ⟨task, executing, plan⟩
      · rintro begun ⟨⟩
  | answer tid executing step encodes =>
      apply employed.executed
      · intro other different
        exact (other_step step different).1
      · rw [ready_of_answered step]
        rfl
  | @inside label sessions step part =>
      have silent : ∀ thread action, label ≠ some (thread, Observation.started action) := by
        intro thread action labelled
        rcases part _ labelled with ⟨shown, shows⟩
        cases shows
      refine employed.store step ?_ ?_ machine.began
      · intro tid action begun
        exact absurd begun (silent _ action)
      · intro action begun
        exact absurd begun (silent _ action)
  | expireCall key step =>
      refine employed.store step ?_ ?_ machine.began
      · rintro tid action ⟨⟩
      · rintro action ⟨⟩
        exact ⟨key, rfl⟩
  | expireReturn key step =>
      refine employed.store step ?_ ?_ machine.began
      · rintro tid action ⟨⟩
      · rintro action ⟨⟩

end Employed

/-- What a worker has found the counters to be when it began, they have at least reached. -/
def Grown (machine : Machine Tid) : Prop :=
  ∀ tid, (machine.began tid).Le (countersOf machine.sessions.system.store)

theorem Grown.step (grown : Grown machine) (step : Step config machine added after) :
    Grown after := by
  intro tid
  cases step with
  | serve | reply => exact grown tid
  | @start other task action sessions executing plan step =>
      show (Function.update machine.began other (countersOf sessions.system.store) tid).Le _
      rcases eq_or_ne tid other with rfl | different
      · rw [Function.update_self]
        exact .refl _
      · rw [Function.update_of_ne different]
        exact (grown tid).trans (countersOf_step step)
  | answer other executing step encodes => exact (grown tid).trans (countersOf_step step)
  | inside step => exact (grown tid).trans (countersOf_step step)
  | expireCall key step | expireReturn key step => exact (grown tid).trans (countersOf_step step)

/-! ## Runs -/

theorem Run.trans {start : Machine Tid} {later : List Happening}
    (run : Run config start happenings machine) (continued : Run config machine later after) :
    Run config start (happenings ++ later) after := by
  induction continued with
  | nil =>
      rw [List.append_nil]
      exact run
  | snoc _ step inductionHypothesis =>
      rw [← List.append_assoc]
      exact inductionHypothesis.snoc step

/-- The commands that have arrived on a connection and are not yet executed. -/
def outstanding (id : ConnId) (happenings : List Happening) : List (List Bytes) :=
  (queued (eventsOf id (netEvents happenings))).drop
    (executed (eventsOf id (netEvents happenings))).length

theorem queued_step (step : Step config machine added after) (silent : arrivalsIn added = [])
    (id : ConnId) : queued (eventsOf id (netEvents added)) = [] := by
  rcases step.server with ⟨arrival, arrives, shown⟩ | ⟨nothing, -, -⟩
  · rw [silent] at shown
    cases arrives with
    | read => cases shown
    | other step unread => exact unread.unqueued.queued_eq id
  · rw [nothing]
    rfl

/-- What nobody sends is not queued. -/
theorem queued_run (run : Run config machine added after) (silent : arrivalsIn added = [])
    (id : ConnId) : queued (eventsOf id (netEvents added)) = [] := by
  induction run with
  | nil => rfl
  | snoc _ step inductionHypothesis =>
      rw [arrivalsIn_append, List.append_eq_nil_iff] at silent
      rw [netEvents_append, Net.eventsOf_append, SerialService.queued_append,
        inductionHypothesis silent.1, queued_step step silent.2, List.append_nil]

/-- What is outstanding later was outstanding before, if nothing has arrived. -/
theorem mem_outstanding (run : Run config machine added after) (silent : arrivalsIn added = [])
    {id : ConnId} {args : List Bytes} (mem : args ∈ outstanding id (happenings ++ added)) :
    args ∈ outstanding id happenings := by
  rw [outstanding, netEvents_append, Net.eventsOf_append, SerialService.queued_append,
    queued_run run silent, List.append_nil, SerialService.executed_append, List.length_append,
    ← List.drop_drop] at mem
  exact List.mem_of_mem_drop mem

/-! ## Going on -/

/-- A continuation in which nobody sends anything, no time passes, and connections are neither
opened nor closed. -/
structure Continues (config : ReactorConfig) (machine : Machine Tid) (later : List Happening)
    (final : Machine Tid) : Prop where
  run : Run config machine later final
  silent : arrivalsIn later = []
  clock : final.sessions.system.clock = machine.sessions.system.clock
  same : machine.server.SameOpen final.server

namespace Continues

variable {middle final : Machine Tid} {later : List Happening}

theorem refl (machine : Machine Tid) : Continues config machine [] machine :=
  ⟨.nil, rfl, rfl, .refl _⟩

theorem trans (first : Continues config machine added middle)
    (second : Continues config middle later final) :
    Continues config machine (added ++ later) final := by
  refine ⟨first.run.trans second.run, ?_, second.clock.trans first.clock,
    first.same.trans second.same⟩
  rw [arrivalsIn_append, first.silent, second.silent, List.append_nil]

theorem step (step : Step config machine added after) (silent : arrivalsIn added = [])
    (clock : after.sessions.system.clock = machine.sessions.system.clock)
    (same : machine.server.SameOpen after.server) : Continues config machine added after :=
  ⟨Run.nil.snoc step, silent, clock, same⟩

end Continues

end Machines

/-! ## Every command -/

section Answering

variable {Tid : Type} [DecidableEq Tid] {config : ReactorConfig} {nShards : ℕ}
  {powerOfTwo : nShards.isPowerOfTwo} {aof : Option AofWriter} {enableTtl : Bool} {clock : ℕ}
  {happenings later : List Happening} {machine middle : Machine Tid}

/-- The deadlines for which the commands outstanding ask are defined. -/
def Meaningful (happenings : List Happening) (clock : ℤ) : Prop :=
  ∀ id, ∀ args ∈ outstanding id happenings, ∀ op,
    (onMessage args).action = some (.single op) → op.Defined clock

theorem Meaningful.continued (meaningful : Meaningful happenings machine.sessions.system.clock)
    (continues : Continues config machine later middle) :
    Meaningful (happenings ++ later) middle.sessions.system.clock := by
  intro id args mem op asks
  rw [continues.clock]
  exact meaningful id args (mem_outstanding continues.run continues.silent mem) op asks

end Answering

end RedisCpp.Service
