import RedisCpp.Commands.MultiKey
import RedisCpp.Net.Dispatching
import RedisCpp.Net.Reception
import RedisCpp.Service.Plans

/-!
# The whole server

The reactor with its workers and the store with its threads, put together.  A worker that
executes a command is a client of the store: it starts the action of its plan, goes through
the sections of the action among those of all others, and passes the encoded answer on as its
reply.  The TTL thread is one more client; it calls `on_ttl_expired` for any key at any
moment.

What the server does besides the execution of commands does not touch the store, and what
the store does is not seen by the reactor.
-/

namespace RedisCpp.Service

open Store Commands
open Net (ConnId Server Task ReactorConfig)

/-- The action of a plan. -/
def Plan.action : Plan → Option Action
  | .reply _ => none
  | .act action => some action
  | .info => some .dbSize

/-- The reply of a plan to the answer of its action.  `info` reads each counter of the store at
a moment of its own after the keys have been counted; the counters only grow, so what it reads is
between what they are at the beginning of the action and what they are at its end. -/
inductive Plan.Encodes (nShards : ℕ) (began ended : Counters) :
    Plan → Action → Answer → Bytes → Prop where
  | act (action : Action) (answer : Answer) :
      Plan.Encodes nShards began ended (.act action) action answer (encode action answer)
  | info {keys : ℕ} {read : Counters} (since : began.Le read) (reached : read.Le ended) :
      Plan.Encodes nShards began ended .info .dbSize (.size keys)
        (Protocol.bulkString
          (infoText keys read.sets read.gets read.dels read.expired nShards))

/-- The server and the clients of the store: the workers, and the TTL thread as `none`.  `began` is
what the counters were when a worker began its last action. -/
structure Machine (Tid : Type) where
  server : Server Tid
  sessions : Sessions (Option Tid)
  began : Tid → Counters

/-- What happens: bytes arrive on a connection, an event of a connection, or something that the
store does for the command of a connection or, as `none`, for the TTL thread, with what its counters
are then. -/
inductive Happening where
  | received (arrival : Net.Arrival)
  | net (event : Net.Event)
  | observed (client : Option ConnId) (observation : Observation) (counters : Counters)

namespace Machine

variable {Tid : Type}

/-- Before the first connection, with a store before its first operation. -/
def initial {nShards : ℕ} (powerOfTwo : nShards.isPowerOfTwo) (aof : Option AofWriter)
    (enableTtl : Bool) (clock : ℕ) : Machine Tid where
  server := .initial
  sessions := .initial powerOfTwo aof enableTtl clock
  began := fun _ => ⟨0, 0, 0, 0⟩

/-- The connection for which a thread uses the store. -/
def clientOf (machine : Machine Tid) (thread : Option Tid) : Option ConnId :=
  thread.bind fun tid => (machine.server.pool tid).task.map Task.id

end Machine

/-- What a step of the server shows. -/
def served (arrival : Option Net.Arrival) (events : List Net.Event) : List Happening :=
  arrival.toList.map .received ++ events.map .net

/-- One step of the reactor, of a worker, of the TTL thread or of the clock. -/
inductive Step {Tid : Type} [DecidableEq Tid] (config : ReactorConfig) (machine : Machine Tid) :
    List Happening → Machine Tid → Prop where
  -- the server, except for the execution of commands
  | serve {arrival : Option Net.Arrival} {events : List Net.Event} {after : Server Tid}
      (arrives : Net.Arrives config machine.server arrival events after)
      (unexecuted : Net.executedTasks events = []) :
      Step config machine (served arrival events) { machine with server := after }
  -- the command of a worker
  | reply (tid : Tid) {task : Task} {resp : Bytes}
      (executing : machine.server.pool tid = .executing task)
      (plan : onMessage task.args = .reply resp) :
      Step config machine [.net (task.id, .executed task.args resp)]
        { machine with server := machine.server.setWorker tid (.sending task.id resp) }
  | start (tid : Tid) {task : Task} {action : Action} {after : Sessions (Option Tid)}
      (executing : machine.server.pool tid = .executing task)
      (plan : (onMessage task.args).action = some action)
      (step : SessionStep machine.sessions (some (some tid, .started action)) after) :
      Step config machine
        [.observed (some task.id) (.started action) (countersOf after.system.store)]
        { machine with
          sessions := after
          began := Function.update machine.began tid (countersOf after.system.store) }
  | answer (tid : Tid) {task : Task} {action : Action} {answer : Answer} {resp : Bytes}
      {after : Sessions (Option Tid)} (executing : machine.server.pool tid = .executing task)
      (step : SessionStep machine.sessions (some (some tid, .answered action answer)) after)
      (encodes : (onMessage task.args).Encodes after.system.store.nShards (machine.began tid)
        (countersOf after.system.store) action answer resp) :
      Step config machine
        [.observed (some task.id) (.answered action answer) (countersOf after.system.store),
          .net (task.id, .executed task.args resp)]
        { machine with
          server := machine.server.setWorker tid (.sending task.id resp)
          sessions := after }
  -- inside the actions, and the clock
  | inside {label : Option (Option Tid × Observation)} {after : Sessions (Option Tid)}
      (step : SessionStep machine.sessions label after)
      (part : ∀ observed, label = some observed → ∃ part, observed.2 = .part part) :
      Step config machine
        (label.map fun observed => .observed (machine.clientOf observed.1) observed.2
          (countersOf after.system.store)).toList
        { machine with sessions := after }
  -- the TTL thread
  | expireCall (key : Bytes) {after : Sessions (Option Tid)}
      (step : SessionStep machine.sessions
        (some (none, .started (.single (.onTtlExpired key)))) after) :
      Step config machine
        [.observed none (.started (.single (.onTtlExpired key))) (countersOf after.system.store)]
        { machine with sessions := after }
  | expireReturn (key : Bytes) {answer : Answer} {after : Sessions (Option Tid)}
      (step : SessionStep machine.sessions
        (some (none, .answered (.single (.onTtlExpired key)) answer)) after) :
      Step config machine
        [.observed none (.answered (.single (.onTtlExpired key)) answer)
          (countersOf after.system.store)]
        { machine with sessions := after }

/-- The runs of the whole server, with what happens in them. -/
inductive Run {Tid : Type} [DecidableEq Tid] (config : ReactorConfig) (start : Machine Tid) :
    List Happening → Machine Tid → Prop where
  | nil : Run config start [] start
  | snoc {happenings added : List Happening} {machine after : Machine Tid}
      (run : Run config start happenings machine) (step : Step config machine added after) :
      Run config start (happenings ++ added) after

/-! ## The account of a run -/

/-- What arrives on the connections. -/
def arrivalsIn (happenings : List Happening) : List Net.Arrival :=
  happenings.filterMap fun happening =>
    match happening with
    | .received arrival => some arrival
    | _ => none

/-- The events of the connections. -/
def netEvents (happenings : List Happening) : List Net.Event :=
  happenings.filterMap fun happening =>
    match happening with
    | .net event => some event
    | _ => none

/-- What the store did for the commands of a connection, with the counters at that moment. -/
def observedBy (id : ConnId) (happenings : List Happening) : List (Observation × Counters) :=
  happenings.filterMap fun happening =>
    match happening with
    | .observed client observation counters =>
        if client = some id then some (observation, counters) else none
    | _ => none

/-- What a happening shows of the store. -/
def Happening.toPart : Happening → Option Part
  | .observed _ observation _ => observation.toPart
  | _ => none

/-- The parts of all commands, in the order in which they took effect. -/
def partsIn (happenings : List Happening) : List Part :=
  happenings.filterMap Happening.toPart

section Account

variable (front back : List Happening)

@[simp]
theorem arrivalsIn_append : arrivalsIn (front ++ back) = arrivalsIn front ++ arrivalsIn back :=
  List.filterMap_append

@[simp]
theorem netEvents_append : netEvents (front ++ back) = netEvents front ++ netEvents back :=
  List.filterMap_append

@[simp]
theorem observedBy_append (id : ConnId) :
    observedBy id (front ++ back) = observedBy id front ++ observedBy id back :=
  List.filterMap_append

@[simp]
theorem partsIn_append : partsIn (front ++ back) = partsIn front ++ partsIn back :=
  List.filterMap_append

variable (arrival : Option Net.Arrival) (events : List Net.Event)

@[simp]
theorem arrivalsIn_served : arrivalsIn (served arrival events) = arrival.toList := by
  simp [arrivalsIn, served, List.filterMap_map]

@[simp]
theorem netEvents_served : netEvents (served arrival events) = events := by
  simp [netEvents, served, List.filterMap_map]

@[simp]
theorem observedBy_served (id : ConnId) : observedBy id (served arrival events) = [] := by
  simp [observedBy, served]

@[simp]
theorem partsIn_served : partsIn (served arrival events) = [] := by
  simp [partsIn, served, Happening.toPart]

end Account

section Runs

variable {Tid : Type} [DecidableEq Tid] {config : ReactorConfig} {machine after : Machine Tid}
  {happenings : List Happening} {nShards : ℕ} {powerOfTwo : nShards.isPowerOfTwo}
  {aof : Option AofWriter} {enableTtl : Bool} {clock : ℕ}

/-- A step of the whole is a step of the server, or the server is left alone. -/
theorem Step.server (step : Step config machine happenings after) :
    (∃ arrival, Net.Arrives config machine.server arrival (netEvents happenings) after.server ∧
        arrivalsIn happenings = arrival.toList) ∨
      netEvents happenings = [] ∧ arrivalsIn happenings = [] ∧ after.server = machine.server := by
  have executes : ∀ (tid : Tid) (task : Task) (resp : Bytes),
      machine.server.pool tid = .executing task →
        Net.Arrives config machine.server none [(task.id, .executed task.args resp)]
          (machine.server.setWorker tid (.sending task.id resp)) := by
    intro tid task resp executing
    exact .other (.execute tid resp executing) (.of_conns (by simp [Net.Unqueued]) rfl rfl)
  cases step with
  | serve arrives unexecuted =>
      rw [netEvents_served, arrivalsIn_served]
      exact Or.inl ⟨_, arrives, rfl⟩
  | reply tid executing plan => exact Or.inl ⟨none, executes tid _ _ executing, rfl⟩
  | answer tid executing step encodes => exact Or.inl ⟨none, executes tid _ _ executing, rfl⟩
  | start | expireCall | expireReturn => exact Or.inr ⟨rfl, rfl, rfl⟩
  | @inside label _ step part =>
      refine Or.inr ⟨?_, ?_, rfl⟩
      · cases label with
        | none => rfl
        | some observed => rfl
      · cases label with
        | none => rfl
        | some observed => rfl

/-- A step of the whole is a step of the store, or the store is left alone. -/
theorem Step.sessions (step : Step config machine happenings after) :
    (∃ label, SessionStep machine.sessions label after.sessions ∧
        partsIn happenings = (label.bind fun observed => observed.2.toPart).toList) ∨
      partsIn happenings = [] ∧ after.sessions = machine.sessions := by
  cases step with
  | serve step unexecuted =>
      rw [partsIn_served]
      exact Or.inr ⟨rfl, rfl⟩
  | reply => exact Or.inr ⟨rfl, rfl⟩
  | start tid executing plan step => exact Or.inl ⟨_, step, rfl⟩
  | answer tid executing step encodes => exact Or.inl ⟨_, step, rfl⟩
  | expireCall key step => exact Or.inl ⟨_, step, rfl⟩
  | expireReturn key step => exact Or.inl ⟨_, step, rfl⟩
  | @inside label _ step part =>
      refine Or.inl ⟨label, step, ?_⟩
      cases label with
      | none => rfl
      | some observed =>
          rcases observed with ⟨thread, observation⟩
          rcases part _ rfl with ⟨part, rfl⟩
          rfl

/-- A run of the whole is a run of the server. -/
theorem reception_run
    (run : Run config (.initial powerOfTwo aof enableTtl clock) happenings machine) :
    Net.Reception config (arrivalsIn happenings) (netEvents happenings) machine.server := by
  induction run with
  | nil => exact .nil
  | snoc _ step inductionHypothesis =>
      rw [netEvents_append, arrivalsIn_append]
      rcases step.server with ⟨arrival, arrives, shown⟩ | ⟨silent, nothing, same⟩
      · rw [shown]
        exact inductionHypothesis.snoc arrives
      · rw [silent, nothing, same, List.append_nil, List.append_nil]
        exact inductionHypothesis

theorem server_run (run : Run config (.initial powerOfTwo aof enableTtl clock) happenings machine) :
    Net.Run config (netEvents happenings) machine.server :=
  (reception_run run).run

/-- The parts of all commands are a serial execution on the reference map. -/
theorem agreement_run
    (run : Run config (.initial powerOfTwo aof enableTtl clock) happenings machine) :
    Agreement powerOfTwo (partsIn happenings) machine.sessions := by
  induction run with
  | nil => exact Agreement.initial powerOfTwo aof enableTtl clock
  | snoc _ step inductionHypothesis =>
      rw [partsIn_append]
      rcases step.sessions with ⟨label, moved, shown⟩ | ⟨silent, same⟩
      · rw [shown]
        exact inductionHypothesis.step moved
      · rw [silent, same, List.append_nil]
        exact inductionHypothesis

/-- A worker that works for a connection is the only one. -/
theorem one_worker
    (run : Run config (.initial powerOfTwo aof enableTtl clock) happenings machine) {id : ConnId}
    {left right : Tid} (leftBusy : (machine.server.pool left).client = some id)
    (rightBusy : (machine.server.pool right).client = some id) : left = right := by
  rcases Net.serves_run (server_run run) id with ⟨line, -, serves⟩
  exact serves.one_worker leftBusy rightBusy

end Runs

end RedisCpp.Service
