import RedisCpp.Service.Machine

/-!
# What a client of the server gets

The replies of the server, from the bytes on a socket down to the store.  Each command of a
connection that has been executed is explained by what the store did for it: nothing, if the
worker answered by itself, or one whole action, of whose answer the reply is the encoding.
The actions of a connection follow one another in the order of its commands, and the parts of
all actions of all connections are one serial execution on the reference map.
-/

namespace RedisCpp.Service

open Store Commands
open Net (ConnId Server Task ReactorConfig chunksOf eventsOf)
open SerialService (queued executed replies written)

/-! ## The observations of one action -/

section Observations

variable {nShards : ℕ} {client : Client} {pc : Pc} {tail whole : List Observation}

/-- What has been observed of an action that is under way begins with its start. -/
theorem underway_cases (underway : Underway client pc tail) :
    tail = [] ∧ client = .ready ∧ pc = .idle ∨ ∃ action rest, tail = .started action :: rest := by
  cases underway with
  | ready => exact Or.inl ⟨rfl, rfl, rfl⟩
  | single calling =>
      rcases calling with ⟨_, -, rfl⟩ | ⟨_, _, -, -, rfl⟩
      · exact Or.inr ⟨_, _, rfl⟩
      · exact Or.inr ⟨_, _, rfl⟩
  | deleting own => exact Or.inr ⟨_, _, rfl⟩
  | erasing own calling =>
      rcases calling with ⟨_, -, rfl⟩ | ⟨_, _, -, -, rfl⟩
      · exact Or.inr ⟨_, _, rfl⟩
      · exact Or.inr ⟨_, _, rfl⟩
  | counting => exact Or.inr ⟨_, _, rfl⟩

theorem eq_nil_of_ready (underway : Underway .ready pc tail) : tail = [] := by
  cases underway with
  | ready => rfl

/-- A command that has been answered begins with its start. -/
theorem exists_started {action : Action} {answer : Answer}
    (shape : Whole nShards (tail ++ [.answered action answer])) :
    ∃ middle, tail = .started action :: middle := by
  have begins : ∀ whole, Whole nShards whole → ∃ action answer middle,
      whole = .started action :: middle ++ [.answered action answer] := by
    intro whole shape
    cases shape with
    | single call result => exact ⟨_, _, [_], rfl⟩
    | del own => exact ⟨_, _, _, rfl⟩
    | dbSize now all => exact ⟨_, _, _, rfl⟩
  rcases begins _ shape with ⟨found, _, middle, parts⟩
  rcases List.append_inj' parts rfl with ⟨rfl, last⟩
  simp only [List.cons.injEq, Observation.answered.injEq, and_true] at last
  exact ⟨middle, by rw [last.1]⟩

theorem exists_answer (shape : Whole nShards whole) :
    ∃ action answer, .answered action answer ∈ whole := by
  cases shape with
  | single =>
      exact ⟨_, _, List.mem_cons_of_mem _ (List.mem_cons_of_mem _ List.mem_cons_self)⟩
  | del => exact ⟨_, _, List.mem_append_right _ List.mem_cons_self⟩
  | dbSize => exact ⟨_, _, List.mem_append_right _ List.mem_cons_self⟩

/-- Without an answer, an action that makes progress is still under way. -/
theorem underway_of_progress (progress : Progress nShards client pc tail)
    (unanswered : ∀ action answer, .answered action answer ∉ tail) : Underway client pc tail := by
  rcases progress with ⟨wholes, rest, rfl, each, underway⟩
  cases wholes with
  | nil => exact underway
  | cons whole wholes =>
      rcases exists_answer (each whole List.mem_cons_self) with ⟨action, answer, mem⟩
      exact absurd (by simp [mem]) (unanswered action answer)

end Observations

/-! ## Steps of the store -/

section Sessions

variable {Tid : Type} [DecidableEq Tid] {sessions after : Sessions Tid}
  {label : Option (Tid × Observation)} {tail : List Observation}

/-- What a step shows of one thread. -/
def shownOf (tid : Tid) (label : Option (Tid × Observation)) : List Observation :=
  (label.bind fun observed => if observed.1 = tid then some observed.2 else none).toList

/-- A step that answers nothing leaves every action under way. -/
theorem underway_step (step : SessionStep sessions label after)
    (unanswered : ∀ observed, label = some observed → ∀ action answer,
      observed.2 ≠ .answered action answer) (tid : Tid)
    (underway : Underway (sessions.clients tid) (sessions.system.threads tid) tail) :
    Underway (after.clients tid) (after.system.threads tid) (tail ++ shownOf tid label) := by
  have unseen : ∀ action answer, .answered action answer ∉ tail ++ shownOf tid label := by
    intro action answer mem
    rcases List.mem_append.mp mem with earlier | shown
    · exact underway.unanswered action answer earlier
    · simp only [shownOf, Option.mem_toList, Option.bind_eq_some_iff, Option.ite_none_right_eq_some,
        Option.some.injEq] at shown
      rcases shown with ⟨observed, labelled, -, same⟩
      exact unanswered observed labelled action answer same
  rcases step.acts rfl with ⟨rfl, clients, threads⟩ | ⟨actor, acts⟩
  · rw [clients, threads]
    simpa [shownOf] using underway
  · rcases eq_or_ne tid actor with rfl | different
    · have shown : shownOf tid label = (label.map Prod.snd).toList := by
        cases label with
        | none => rfl
        | some observed => simp [shownOf, acts.own observed rfl]
      have progress := acts.progress tail ⟨[], tail, rfl, by simp, underway⟩
      rw [← shown] at progress
      exact underway_of_progress progress unseen
    · have silent : shownOf tid label = [] := by
        cases label with
        | none => rfl
        | some observed => simp [shownOf, acts.own observed rfl, different.symm]
      rw [acts.clients tid different, acts.threads tid different, silent, List.append_nil]
      exact underway

/-- Threads other than the one that is seen are left alone. -/
theorem other_step {actor : Tid} {observation : Observation}
    (step : SessionStep sessions (some (actor, observation)) after) {tid : Tid}
    (different : tid ≠ actor) :
    after.clients tid = sessions.clients tid ∧
      after.system.threads tid = sessions.system.threads tid := by
  rcases step.acts rfl with ⟨impossible, -, -⟩ | ⟨owner, acts⟩
  · cases impossible
  · have own := acts.own _ rfl
    subst own
    exact ⟨acts.clients tid different, acts.threads tid different⟩

/-- With its answer an action is whole, and the thread is ready for the next one. -/
theorem answer_step {tid : Tid} {action : Action} {answer : Answer}
    (step : SessionStep sessions (some (tid, .answered action answer)) after)
    (underway : Underway (sessions.clients tid) (sessions.system.threads tid) tail) :
    Whole sessions.system.store.nShards (tail ++ [.answered action answer]) ∧
      after.clients tid = .ready ∧ after.system.threads tid = .idle := by
  rcases step.answered_cases with ⟨op, result, rfl, rfl, called, returning, rfl⟩ |
    ⟨keys, deleted, rfl, rfl, deleting, rfl⟩ | ⟨now, total, rfl, rfl, counting, rfl⟩
  · rw [called, returning] at underway
    exact ⟨underway.ret, Function.update_self _ _ _, Function.update_self _ _ _⟩
  · rw [deleting] at underway
    exact ⟨underway.delAnswer, Function.update_self _ _ _, underway.idle_of_deleting⟩
  · rw [counting] at underway
    exact ⟨underway.sizeAnswer, Function.update_self _ _ _, underway.idle_of_counting⟩

end Sessions

/-! ## The story of each connection -/

/-- What explains a command that has been executed, with its reply: nothing, or an action from its
start to its answer.  The counters are those of these two moments. -/
inductive Explains (nShards : ℕ) :
    List Bytes × Bytes → List (Observation × Counters) → Prop where
  | reply {args : List Bytes} {resp : Bytes} (plan : onMessage args = .reply resp) :
      Explains nShards (args, resp) []
  | act {args : List Bytes} {resp : Bytes} {action : Action} {answer : Answer}
      {began ended : Counters} {middle : List (Observation × Counters)}
      (encodes : (onMessage args).Encodes nShards began ended action answer resp)
      (whole : Whole nShards
        (.started action :: middle.map Prod.fst ++ [.answered action answer])) :
      Explains nShards (args, resp)
        ((.started action, began) :: middle ++ [(.answered action answer, ended)])

section Stories

variable {Tid : Type} {machine : Machine Tid} {happenings : List Happening} {nShards : ℕ}

/-- What has been observed of the action of a worker, since the worker has begun it. -/
structure Serving (machine : Machine Tid) (tid : Tid) (tail : List (Observation × Counters)) :
    Prop where
  underway : Underway (machine.sessions.clients (some tid))
    (machine.sessions.system.threads (some tid)) (tail.map Prod.fst)
  since : ∀ first rest, tail = first :: rest → first.2 = machine.began tid

theorem Serving.nil {tid : Tid} (ready : machine.sessions.clients (some tid) = .ready)
    (idle : machine.sessions.system.threads (some tid) = .idle) : Serving machine tid [] := by
  refine ⟨?_, by simp⟩
  rw [ready, idle]
  exact .ready

/-- What has been observed of the command in service of a connection. -/
inductive Current (id : ConnId) (machine : Machine Tid) : List (Observation × Counters) → Prop where
  | busy (tid : Tid) {args : List Bytes} {tail : List (Observation × Counters)}
      (executing : machine.server.pool tid = .executing ⟨id, args⟩)
      (serving : Serving machine tid tail) : Current id machine tail
  | free (nobody : ∀ tid args, machine.server.pool tid ≠ .executing ⟨id, args⟩) :
      Current id machine []

/-- A worker uses the store only for a command with an action, and the commands of every
connection are explained in order. -/
structure Story (nShards : ℕ) (happenings : List Happening) (machine : Machine Tid) : Prop where
  resting : ∀ tid, (∀ task, machine.server.pool tid = .executing task →
      (onMessage task.args).action = none) →
    machine.sessions.clients (some tid) = .ready ∧
      machine.sessions.system.threads (some tid) = .idle
  told : ∀ id, ∃ wholes tail, observedBy id happenings = wholes.flatten ++ tail ∧
    List.Forall₂ (Explains nShards) (executed (eventsOf id (netEvents happenings))) wholes ∧
      Current id machine tail

/-- No two workers execute commands of one connection. -/
def OneWorker (machine : Machine Tid) : Prop :=
  ∀ left right id leftArgs rightArgs, machine.server.pool left = .executing ⟨id, leftArgs⟩ →
    machine.server.pool right = .executing ⟨id, rightArgs⟩ → left = right

theorem current_underway {id : ConnId} {tail : List (Observation × Counters)}
    (current : Current id machine tail) :
    ∃ client pc, Underway client pc (tail.map Prod.fst) := by
  cases current with
  | busy tid executing serving => exact ⟨_, _, serving.underway⟩
  | free nobody => exact ⟨_, _, .ready⟩

theorem current_unobserved {id : ConnId} {tail : List (Observation × Counters)}
    (current : Current id machine tail) (action : Action) (answer : Answer)
    (counters : Counters) : (.answered action answer, counters) ∉ tail := by
  cases current with
  | busy tid executing serving =>
      intro mem
      exact serving.underway.unanswered action answer (List.mem_map_of_mem mem)
  | free nobody => exact List.not_mem_nil

/-- The command in service of the connection that a worker works for is the worker's. -/
theorem current_of_executing {tid : Tid} {task : Task} {tail : List (Observation × Counters)}
    (one : OneWorker machine) (executing : machine.server.pool tid = .executing task)
    (current : Current task.id machine tail) : Serving machine tid tail := by
  cases current with
  | busy other there serving =>
      rw [one tid other task.id task.args _ executing there]
      exact serving
  | free nobody => exact absurd executing (nobody tid task.args)

theorem task_eq_some {worker : Net.Worker} {task : Task} :
    worker.task = some task ↔ worker = .executing task := by
  cases worker with
  | executing other => simp [Net.Worker.task]
  | idle | sending | notifying => simp [Net.Worker.task]

theorem clientOf_eq_some {thread : Option Tid} {id : ConnId} :
    machine.clientOf thread = some id ↔
      ∃ tid args, thread = some tid ∧ machine.server.pool tid = .executing ⟨id, args⟩ := by
  simp only [Machine.clientOf, Option.bind_eq_some_iff, Option.map_eq_some_iff, task_eq_some]
  constructor
  · rintro ⟨tid, own, ⟨owner, args⟩, executing, rfl⟩
    exact ⟨tid, args, own, executing⟩
  · rintro ⟨tid, args, own, executing⟩
    exact ⟨tid, own, _, executing, rfl⟩

end Stories

section Steps

variable {Tid : Type} [DecidableEq Tid] {machine : Machine Tid} {happenings : List Happening}
  {nShards : ℕ}

/-- What a step of the store shows. -/
def shown (machine : Machine Tid) (label : Option (Option Tid × Observation))
    (counters : Counters) : List Happening :=
  (label.map fun observed =>
    .observed (machine.clientOf observed.1) observed.2 counters).toList

omit [DecidableEq Tid] in
theorem netEvents_shown (label : Option (Option Tid × Observation)) (counters : Counters) :
    netEvents (shown machine label counters) = [] := by
  cases label with
  | none => rfl
  | some observed => rfl

theorem observedBy_busy {id : ConnId} {tid : Tid} {args : List Bytes} (one : OneWorker machine)
    (executing : machine.server.pool tid = .executing ⟨id, args⟩)
    (label : Option (Option Tid × Observation)) (counters : Counters) :
    observedBy id (shown machine label counters) =
      (shownOf (some tid) label).map fun observation => (observation, counters) := by
  cases label with
  | none => rfl
  | some observed =>
      rcases observed with ⟨thread, observation⟩
      have own : machine.clientOf thread = some id ↔ thread = some tid := by
        rw [clientOf_eq_some]
        constructor
        · rintro ⟨other, otherArgs, rfl, there⟩
          rw [one other tid id otherArgs args there executing]
        · rintro rfl
          exact ⟨tid, args, rfl, executing⟩
      by_cases same : thread = some tid
      · have owner := own.mpr same
        subst same
        simp [observedBy, shown, shownOf, owner]
      · simp [observedBy, shown, shownOf, own, same]

omit [DecidableEq Tid] in
theorem observedBy_free {id : ConnId}
    (nobody : ∀ tid args, machine.server.pool tid ≠ .executing ⟨id, args⟩)
    (label : Option (Option Tid × Observation)) (counters : Counters) :
    observedBy id (shown machine label counters) = [] := by
  cases label with
  | none => rfl
  | some observed =>
      have other : machine.clientOf observed.1 ≠ some id := by
        rw [Ne, clientOf_eq_some]
        rintro ⟨tid, args, -, executing⟩
        exact nobody tid args executing
      simp [observedBy, shown, other]

omit [DecidableEq Tid] in
theorem executed_eq_nil {events : List Net.Event} (unexecuted : Net.executedTasks events = [])
    (id : ConnId) : executed (eventsOf id events) = [] := by
  apply List.filterMap_eq_nil_iff.mpr
  intro event mem
  rcases List.mem_filterMap.mp mem with ⟨⟨owner, found⟩, listed, own⟩
  have silent := List.filterMap_eq_nil_iff.mp unexecuted _ listed
  by_cases same : owner = id
  · simp only [same, if_true, Option.some.injEq] at own
    subst own
    cases found with
    | executed args resp => cases silent
    | queued | started | wrote => rfl
  · simp [same] at own

/-- Besides the execution of commands, workers only start with commands. -/
theorem executing_step {server after : Server Tid} {events : List Net.Event}
    (step : Net.PoolStep server events after) (unexecuted : Net.executedTasks events = []) :
    (∀ tid task, server.pool tid = .executing task → after.pool tid = .executing task) ∧
      ∀ tid task, after.pool tid = .executing task →
        server.pool tid = .executing task ∨ server.pool tid = .idle := by
  cases step with
  | reactor task handed inactive =>
      rw [handed.pool]
      exact ⟨fun _ _ => id, fun _ _ => Or.inl⟩
  | execute tid resp executing => cases unexecuted
  | @take tid taken tasks idle front =>
      refine ⟨?_, ?_⟩
      · intro other task executing
        have different : other ≠ tid := by
          rintro rfl
          rw [idle] at executing
          cases executing
        exact (Function.update_of_ne different _ _).trans executing
      · intro other task executing
        rcases eq_or_ne other tid with rfl | different
        · exact Or.inr idle
        · exact Or.inl ((Function.update_of_ne different _ _).symm.trans executing)
  | @report tid worker _ done undone pool tasks =>
      rw [pool]
      refine ⟨?_, ?_⟩
      · intro other task executing
        have different : other ≠ tid := by
          rintro rfl
          exact done task executing
        exact (Function.update_of_ne different _ _).trans executing
      · intro other task executing
        rcases eq_or_ne other tid with rfl | different
        · rw [Function.update_self] at executing
          exact absurd executing (undone task)
        · exact Or.inl ((Function.update_of_ne different _ _).symm.trans executing)

/-- What is seen of a thread is the label of the step. -/
theorem eq_some_of_shownOf {tid : Option Tid} {label : Option (Option Tid × Observation)}
    {observation : Observation} {rest : List Observation}
    (seen : shownOf tid label = observation :: rest) : label = some (tid, observation) := by
  cases label with
  | none => cases seen
  | some observed =>
      rcases observed with ⟨thread, found⟩
      by_cases same : thread = tid
      · simp only [shownOf, Option.bind_some, same, if_true, Option.toList_some,
          List.cons.injEq] at seen
        rw [same, seen.1]
      · simp [shownOf, same] at seen

theorem ready_of_started {sessions later : Sessions (Option Tid)} {thread : Option Tid}
    {action : Action} (step : SessionStep sessions (some (thread, .started action)) later) :
    sessions.clients thread = .ready := by
  generalize shown : some (thread, Observation.started action) = label at step
  cases step with
  | call tid op served ready | delStart tid keys ready | sizeStart tid ready =>
      cases shown
      exact ready
  | @advance tid _ _ _ effect move available =>
      cases effect with
      | none => cases shown
      | some point => cases shown
  | tick | ret | delCall | delReturn | delAnswer | sizeShard | sizeAnswer => cases shown

namespace Serving

variable {tid : Tid} {tail : List (Observation × Counters)}

omit [DecidableEq Tid] in
/-- Nothing has been observed of the worker. -/
theorem same (serving : Serving machine tid tail) {after : Machine Tid}
    (alike : after.sessions.clients (some tid) = machine.sessions.clients (some tid) ∧
      after.sessions.system.threads (some tid) = machine.sessions.system.threads (some tid))
    (began : after.began tid = machine.began tid) : Serving after tid tail := by
  rcases serving with ⟨underway, since⟩
  rw [← alike.1, ← alike.2] at underway
  rw [← began] at since
  exact ⟨underway, since⟩

/-- A step of the store that answers nothing leaves the action under way. -/
theorem store (serving : Serving machine tid tail) {label : Option (Option Tid × Observation)}
    {after : Sessions (Option Tid)} (step : SessionStep machine.sessions label after)
    (unanswered : ∀ observed, label = some observed → ∀ action answer,
      observed.2 ≠ .answered action answer)
    {began : Tid → Counters} {counters : Counters}
    (begins : ∀ action, label = some (some tid, .started action) → began tid = counters)
    (kept : (∀ action, label ≠ some (some tid, .started action)) →
      began tid = machine.began tid) :
    Serving { machine with sessions := after, began := began } tid
      (tail ++ (shownOf (some tid) label).map fun observation => (observation, counters)) := by
  have moved := underway_step step unanswered (some tid) serving.underway
  refine ⟨?_, ?_⟩
  · rw [List.map_append, List.map_map]
    exact (List.map_id _).symm ▸ moved
  · intro first rest parts
    cases tail with
    | nil =>
        rcases List.map_eq_cons_iff.mp parts with ⟨observation, others, seen, rfl, -⟩
        have labelled := eq_some_of_shownOf seen
        rcases underway_cases moved with ⟨empty, -⟩ | ⟨action, later, begun⟩
        · rw [seen] at empty
          cases empty
        · rw [seen] at begun
          cases begun
          exact (begins action labelled).symm
    | cons head front =>
        cases parts
        refine (serving.since _ _ rfl).trans (kept ?_).symm
        intro action labelled
        subst labelled
        have underway := serving.underway
        rw [ready_of_started step] at underway
        cases eq_nil_of_ready underway

omit [DecidableEq Tid] in
/-- The action, from its start to its answer, explains the reply that encodes the answer. -/
theorem explains (serving : Serving machine tid tail) {args : List Bytes} {resp : Bytes}
    {action : Action} {answer : Answer} {ended : Counters}
    (encodes : (onMessage args).Encodes nShards (machine.began tid) ended action answer resp)
    (whole : Whole nShards (tail.map Prod.fst ++ [.answered action answer])) :
    Explains nShards (args, resp) (tail ++ [(.answered action answer, ended)]) := by
  rcases exists_started whole with ⟨middle, begins⟩
  rcases List.map_eq_cons_iff.mp begins with ⟨⟨seen, began⟩, rest, rfl, rfl, rfl⟩
  have since := serving.since _ _ rfl
  rw [← since] at encodes
  exact .act encodes whole

end Serving

namespace Story

variable (story : Story nShards happenings machine)
include story

/-- A step of the store that answers nothing. -/
theorem store (one : OneWorker machine) {label : Option (Option Tid × Observation)}
    {after : Sessions (Option Tid)} (step : SessionStep machine.sessions label after)
    (unanswered : ∀ observed, label = some observed → ∀ action answer,
      observed.2 ≠ .answered action answer)
    (planned : ∀ tid action, label = some (some tid, .started action) →
      ∃ task, machine.server.pool tid = .executing task ∧ (onMessage task.args).action ≠ none)
    {began : Tid → Counters} {counters : Counters}
    (begins : ∀ tid action, label = some (some tid, .started action) → began tid = counters)
    (kept : ∀ tid, (∀ action, label ≠ some (some tid, .started action)) →
      began tid = machine.began tid) :
    Story nShards (happenings ++ shown machine label counters)
      { machine with sessions := after, began := began } := by
  refine ⟨?_, ?_⟩
  · intro tid unplanned
    rcases story.resting tid unplanned with ⟨ready, idle⟩
    have before : Underway (machine.sessions.clients (some tid))
        (machine.sessions.system.threads (some tid)) [] := by
      rw [ready, idle]
      exact .ready
    have later := underway_step step unanswered (some tid) before
    rcases underway_cases later with ⟨-, rested⟩ | ⟨action, rest, begun⟩
    · exact rested
    · rcases planned tid action (eq_some_of_shownOf begun) with ⟨task, executing, planned⟩
      exact absurd (unplanned task executing) planned
  · intro id
    rcases story.told id with ⟨wholes, tail, shape, explained, current⟩
    rw [observedBy_append, netEvents_append, netEvents_shown, List.append_nil]
    cases current with
    | busy tid executing serving =>
        refine ⟨wholes, _, ?_, explained, .busy tid executing
          (serving.store step unanswered (begins tid) (kept tid))⟩
        rw [shape, observedBy_busy one executing, List.append_assoc]
    | free nobody =>
        refine ⟨wholes, [], ?_, explained, .free nobody⟩
        rw [shape, observedBy_free nobody, List.append_nil]

omit [DecidableEq Tid] in
/-- The TTL thread has answered. -/
theorem aside {after : Sessions (Option Tid)} {observation : Observation} {counters : Counters}
    (others : ∀ tid, after.clients (some tid) = machine.sessions.clients (some tid) ∧
      after.system.threads (some tid) = machine.sessions.system.threads (some tid)) :
    Story nShards (happenings ++ [.observed none observation counters])
      { machine with sessions := after } := by
  refine ⟨?_, ?_⟩
  · intro tid unplanned
    rw [(others tid).1, (others tid).2]
    exact story.resting tid unplanned
  · intro id
    rcases story.told id with ⟨wholes, tail, shape, explained, current⟩
    refine ⟨wholes, tail, ?_, ?_, ?_⟩
    · simpa [observedBy] using shape
    · simpa [netEvents] using explained
    · cases current with
      | busy tid executing serving => exact .busy tid executing (serving.same (others tid) rfl)
      | free nobody => exact .free nobody

/-- A step of the server other than the execution of a command. -/
theorem serve {config : ReactorConfig} {arrival : Option Net.Arrival} {events : List Net.Event}
    {after : Server Tid} (step : Net.Step config machine.server events after)
    (unexecuted : Net.executedTasks events = []) :
    Story nShards (happenings ++ served arrival events) { machine with server := after } := by
  rcases executing_step step.poolStep unexecuted with ⟨kept, taken⟩
  refine ⟨?_, ?_⟩
  · intro tid unplanned
    exact story.resting tid fun task executing => unplanned task (kept tid task executing)
  · intro id
    rcases story.told id with ⟨wholes, tail, shape, explained, current⟩
    rw [observedBy_append, observedBy_served, List.append_nil, netEvents_append,
      netEvents_served, Net.eventsOf_append, SerialService.executed_append,
      executed_eq_nil unexecuted, List.append_nil]
    refine ⟨wholes, tail, shape, explained, ?_⟩
    cases current with
    | busy tid executing serving =>
        exact .busy tid (kept tid _ executing) (serving.same ⟨rfl, rfl⟩ rfl)
    | free nobody =>
        by_cases somebody : ∃ tid args, after.pool tid = .executing ⟨id, args⟩
        · rcases somebody with ⟨tid, args, executing⟩
          rcases taken tid _ executing with before | idle
          · exact absurd before (nobody tid args)
          · rcases story.resting tid (by rw [idle]; nofun) with ⟨ready, resting⟩
            exact .busy tid executing (.nil ready resting)
        · exact .free fun tid args executing => somebody ⟨tid, args, executing⟩

/-- A worker has executed its command. -/
theorem execute (one : OneWorker machine) {tid : Tid} {task : Task} {resp : Bytes}
    (executing : machine.server.pool tid = .executing task) {after : Sessions (Option Tid)}
    (last : List (Observation × Counters))
    (others : ∀ other, other ≠ tid → after.clients (some other) =
        machine.sessions.clients (some other) ∧
      after.system.threads (some other) = machine.sessions.system.threads (some other))
    (rested : after.clients (some tid) = .ready ∧ after.system.threads (some tid) = .idle)
    (explains : ∀ tail, Serving machine tid tail →
      Explains nShards (task.args, resp) (tail ++ last)) :
    Story nShards (happenings ++
        (last.map (fun seen => .observed (some task.id) seen.1 seen.2) ++
          [.net (task.id, .executed task.args resp)]))
      { machine with
        server := machine.server.setWorker tid (.sending task.id resp)
        sessions := after } := by
  have elsewhere : ∀ other, other ≠ tid →
      (machine.server.setWorker tid (.sending task.id resp)).pool other =
        machine.server.pool other :=
    fun other different => Function.update_of_ne different _ _
  have here : (machine.server.setWorker tid (.sending task.id resp)).pool tid =
      .sending task.id resp := Function.update_self _ _ _
  refine ⟨?_, ?_⟩
  · intro other unplanned
    rcases eq_or_ne other tid with rfl | different
    · exact rested
    · rw [(others other different).1, (others other different).2]
      apply story.resting other
      intro task executing
      exact unplanned task ((elsewhere other different).trans executing)
  · intro id
    rcases story.told id with ⟨wholes, tail, shape, explained, current⟩
    have event : netEvents (last.map (fun seen => .observed (some task.id) seen.1 seen.2) ++
        [.net (task.id, .executed task.args resp)]) = [(task.id, .executed task.args resp)] := by
      simp [netEvents, List.filterMap_map]
    rw [observedBy_append, netEvents_append, event, Net.eventsOf_append,
      SerialService.executed_append, shape]
    rcases eq_or_ne task.id id with rfl | different
    · have serving := current_of_executing one executing current
      have ran : executed (eventsOf task.id [(task.id, .executed task.args resp)]) =
          [(task.args, resp)] := by
        simp [eventsOf, executed]
      refine ⟨wholes ++ [tail ++ last], [], ?_, ?_, .free ?_⟩
      · simp [observedBy, List.filterMap_map]
      · rw [ran]
        exact List.rel_append explained (.cons (explains tail serving) .nil)
      · intro other args there
        rcases eq_or_ne other tid with rfl | apart
        · cases here.symm.trans there
        · exact apart (one other tid task.id args task.args
            ((elsewhere other apart).symm.trans there) executing)
    · have ran : executed (eventsOf id [(task.id, .executed task.args resp)]) = [] := by
        simp [eventsOf, executed, different]
      refine ⟨wholes, tail, ?_, ?_, ?_⟩
      · simp [observedBy, List.filterMap_map, different]
      · rw [ran, List.append_nil]
        exact explained
      · cases current with
        | @busy other args _ there serving =>
            have apart : other ≠ tid := by
              rintro rfl
              rw [executing] at there
              cases there
              exact different rfl
            exact .busy other ((elsewhere other apart).trans there)
              (serving.same (others other apart) rfl)
        | free nobody =>
            apply Current.free
            intro other args there
            rcases eq_or_ne other tid with rfl | apart
            · cases here.symm.trans there
            · exact nobody other args ((elsewhere other apart).symm.trans there)

end Story

variable {config : ReactorConfig} {after : Machine Tid} {added : List Happening}

/-- Every step continues the story of every connection. -/
theorem Story.step (story : Story nShards happenings machine) (one : OneWorker machine)
    (shards : machine.sessions.system.store.nShards = nShards)
    (kept : after.sessions.system.store.nShards = nShards)
    (step : Step config machine added after) : Story nShards (happenings ++ added) after := by
  cases step with
  | serve arrives unexecuted => exact story.serve arrives.step unexecuted
  | @reply tid task resp executing plan =>
      have unplanned : ∀ other, machine.server.pool tid = .executing other →
          (onMessage other.args).action = none := by
        intro other there
        cases executing.symm.trans there
        rw [plan]
        rfl
      rcases story.resting tid unplanned with ⟨ready, idle⟩
      apply story.execute one executing [] (fun _ _ => ⟨rfl, rfl⟩) ⟨ready, idle⟩
      intro tail serving
      have underway := serving.underway
      rw [ready] at underway
      rw [List.map_eq_nil_iff.mp (eq_nil_of_ready underway)]
      exact .reply plan
  | @start tid task action later executing plan step =>
      have owner : machine.clientOf (some tid) = some task.id :=
        clientOf_eq_some.mpr ⟨tid, task.args, rfl, executing⟩
      have continued : Story nShards
          (happenings ++ shown machine (some (some tid, .started action))
            (countersOf later.system.store))
          { machine with
            sessions := later
            began := Function.update machine.began tid (countersOf later.system.store) } := by
        apply story.store one step (by rintro _ ⟨⟩; nofun)
        · rintro other begun ⟨⟩
          exact ⟨task, executing, by rw [plan]; nofun⟩
        · rintro other begun ⟨⟩
          exact Function.update_self _ _ _
        · intro other silent
          apply Function.update_of_ne
          rintro rfl
          exact silent action rfl
      simpa [shown, owner] using continued
  | @answer tid task action answer resp later executing step encodes =>
      rcases story.told task.id with ⟨_, _, -, -, current⟩
      have serves := current_of_executing one executing current
      have rested := (answer_step step serves.underway).2
      apply story.execute one executing
        [(.answered action answer, countersOf later.system.store)] _ rested
      · intro tail serving
        have whole := (answer_step step serving.underway).1
        rw [shards] at whole
        rw [kept] at encodes
        exact serving.explains encodes whole
      · intro other different
        exact other_step step fun same => different (Option.some.inj same)
  | @inside label later step part =>
      have silent : ∀ tid action, label ≠ some (some tid, .started action) := by
        intro tid action labelled
        rcases part _ labelled with ⟨shown, shows⟩
        cases shows
      apply story.store one step
      · intro observed labelled action answer same
        rcases part observed labelled with ⟨shown, shows⟩
        rw [shows] at same
        cases same
      · exact fun tid action labelled => absurd labelled (silent tid action)
      · exact fun tid action labelled => absurd labelled (silent tid action)
      · exact fun _ _ => rfl
  | expireCall key step =>
      exact story.store one step (by rintro _ ⟨⟩; nofun) (by nofun) (by nofun) fun _ _ => rfl
  | expireReturn key step => exact story.aside fun tid => other_step step (by nofun)

section Runs

variable {powerOfTwo : nShards.isPowerOfTwo} {aof : Option AofWriter} {enableTtl : Bool}
  {clock : ℕ}

theorem oneWorker_run
    (run : Run config (.initial powerOfTwo aof enableTtl clock) happenings machine) :
    OneWorker machine := by
  intro left right id leftArgs rightArgs leftBusy rightBusy
  have left_client : (machine.server.pool left).client = some id := by
    rw [leftBusy]
    rfl
  have right_client : (machine.server.pool right).client = some id := by
    rw [rightBusy]
    rfl
  exact one_worker run left_client right_client

theorem Story.run
    (run : Run config (.initial powerOfTwo aof enableTtl clock) happenings machine) :
    Story nShards happenings machine := by
  induction run with
  | nil =>
      refine ⟨fun _ _ => ⟨rfl, rfl⟩, ?_⟩
      intro id
      exact ⟨[], [], rfl, .nil, .free (by intro tid args; nofun)⟩
  | snoc run step inductionHypothesis =>
      exact inductionHypothesis.step (oneWorker_run run) (agreement_run run).shards
        (agreement_run (run.snoc step)).shards step

/-- While one worker sets a key, another one reads it and does not find it.  The second command of
the first client has arrived in two chunks, without its line end, and the kernel has taken three
bytes of the reply to the first one. -/
theorem interleaved_run :
    ∃ (happenings : List Happening) (machine : Machine Bool) (conn : Net.Connection),
      Run {} (.initial KvStore.defaultShards none true 5) happenings machine ∧
        machine.server.HeldBy ⟨7, 1⟩ conn ∧
        chunksOf ⟨7, 1⟩ (arrivalsIn happenings) = [ascii "set k v\r\nge", ascii "t k"] ∧
        executed (eventsOf ⟨7, 1⟩ (netEvents happenings)) =
          [([ascii "SET", ascii "k", ascii "v"], ascii "+OK\r\n")] ∧
        executed (eventsOf ⟨8, 2⟩ (netEvents happenings)) =
          [([ascii "GET", ascii "k"], ascii "$-1\r\n")] ∧
        written (eventsOf ⟨7, 1⟩ (netEvents happenings)) = ascii "+OK" ∧
        partsIn happenings = [.op ⟨.get (ascii "k"), 5, 5⟩ (.value none),
          .op ⟨.set (ascii "k") (ascii "v"), 5, 5⟩ (.flag true)] := by
  have first := (@Run.nil Bool _ {} (.initial KvStore.defaultShards none true 5)).snoc
    (.serve (.other (.accept 7 0 rfl rfl) (.handleAccept 0)) rfl)
  have second := first.snoc (.serve (.other (.accept 8 0 rfl rfl) (.handleAccept 0)) rfl)
  have received := second.snoc
    (.serve (.read 7 [.read (ascii "set k v\r\nge") 0] rfl rfl rfl) rfl)
  have asked := received.snoc
    (.serve (.read 8 [.read (ascii "get k\r\n") 0] rfl rfl rfl) rfl)
  have taken := asked.snoc (.serve (.other (.take true rfl rfl)
    (.of_conns (by simp [Net.Unqueued]) rfl rfl)) rfl)
  have started := taken.snoc (.start true rfl rfl (.call (some true) _ trivial rfl rfl))
  have locked := started.snoc (.inside
    (.advance (some true) (.setLock (ascii "k") (ascii "v")) fun _ => rfl) (by rintro _ ⟨⟩))
  have other := locked.snoc (.serve (.other (.take false rfl rfl)
    (.of_conns (by simp [Net.Unqueued]) rfl rfl)) rfl)
  have begun := other.snoc (.start false rfl rfl (.call (some false) _ trivial rfl rfl))
  have logged := begun.snoc (.inside
    (.advance (some true) (.setLog (ascii "k") (ascii "v")) (by rintro ⟨⟩)) (by rintro _ ⟨⟩))
  have missed := logged.snoc (.inside
    (.advance (some false) (.getMissing (ascii "k") rfl) (by rintro ⟨⟩)) (by
      rintro _ ⟨⟩
      exact ⟨_, rfl⟩))
  have stored := missed.snoc (.inside
    (.advance (some true) (.setStore (ascii "k") (ascii "v")) (by rintro ⟨⟩)) (by
      rintro _ ⟨⟩
      exact ⟨_, rfl⟩))
  have unlocked := stored.snoc (.inside
    (.advance (some true) (.unlock (.flag true)) (by rintro ⟨⟩)) (by rintro _ ⟨⟩))
  have told := unlocked.snoc (.answer false rfl (.ret (some false) rfl rfl) (.act _ _))
  have answered := told.snoc (.answer true rfl (.ret (some true) rfl rfl) (.act _ _))
  have continued := answered.snoc
    (.serve (.read 7 [.read (ascii "t k") 0] rfl rfl rfl) rfl)
  have sent := continued.snoc (.serve (.other (.send true rfl)
    (.of_conns Net.unqueued_nil rfl rfl)) rfl)
  have swapped := sent.snoc (.serve (.other (.swapWrites rfl)
    (.of_conns Net.unqueued_nil rfl rfl)) rfl)
  have wrote := swapped.snoc (.serve (.other (.processWrite [.wrote 3] rfl)
    (.of_untouched (Net.unqueued_processWrite _ _ _) rfl
      fun fd => .processWrite _ fd _ _)) rfl)
  exact ⟨_, _, _, wrote, ⟨rfl, rfl⟩, rfl, rfl, rfl, rfl, rfl⟩

end Runs

end Steps

/-- What a client of the server gets, whatever the interleaving of the reactor, the workers and
the TTL thread.  The commands of a connection are those of its stream as it arrives, except for
the chunk with which it is closed; as long as it is open, what is left of the stream is in its
receive buffer.  The bytes on its socket are an initial part of the replies to these commands, in
order.  Each of them is explained by what the store did for it, one after the other, and at most
one command is still under way.  And the parts of all commands of all connections are a serial
execution on one map from keys to values with deadlines. -/
theorem served_by_one_map {Tid : Type} [DecidableEq Tid] {config : ReactorConfig} {nShards : ℕ}
    {powerOfTwo : nShards.isPowerOfTwo} {aof : Option AofWriter} {enableTtl : Bool} {clock : ℕ}
    {happenings : List Happening} {machine : Machine Tid}
    (run : Run config (.initial powerOfTwo aof enableTtl clock) happenings machine) :
    SerialParts powerOfTwo (partsIn happenings) ∧
      ∀ id,
        (∃ kept dropped rest, chunksOf id (arrivalsIn happenings) = kept ++ dropped ∧
          dropped.length ≤ 1 ∧
          Net.Decoded config kept (queued (eventsOf id (netEvents happenings))) rest ∧
          ∀ conn, machine.server.HeldBy id conn → dropped = [] ∧ conn.recvBuf = rest) ∧
        (executed (eventsOf id (netEvents happenings))).map Prod.fst <+:
          queued (eventsOf id (netEvents happenings)) ∧
        written (eventsOf id (netEvents happenings)) <+:
          replies (eventsOf id (netEvents happenings)) ∧
        ∃ (wholes : List (List (Observation × Counters))) (tail : List (Observation × Counters)),
          observedBy id happenings = wholes.flatten ++ tail ∧
            List.Forall₂ (Explains nShards)
              (executed (eventsOf id (netEvents happenings))) wholes ∧
            (∃ client pc, Underway client pc (tail.map Prod.fst)) ∧
            ∀ action answer counters, (.answered action answer, counters) ∉ tail := by
  refine ⟨(agreement_run run).serial, ?_⟩
  intro id
  rcases Net.serves_run (server_run run) id with ⟨line, served, -⟩
  have accounted := SerialService.Accounted.run served
  rcases (Net.taken_run (reception_run run) id).stream with
    ⟨kept, dropped, rest, split, last, decoded, held⟩
  rcases (Story.run run).told id with ⟨wholes, tail, shape, explained, current⟩
  exact ⟨⟨kept, dropped, rest, split, last, decoded, held⟩,
    accounted.executed_isPrefix.trans accounted.started_isPrefix, accounted.written_isPrefix,
    wholes, tail, shape, explained, current_underway current, current_unobserved current⟩

theorem served_by_one_map_interleaved :
    ∃ (happenings : List Happening) (machine : Machine Bool),
      Run {} (.initial KvStore.defaultShards none true 5) happenings machine ∧
        written (eventsOf ⟨7, 1⟩ (netEvents happenings)) = ascii "+OK" ∧
        partsIn happenings = [.op ⟨.get (ascii "k"), 5, 5⟩ (.value none),
          .op ⟨.set (ascii "k") (ascii "v"), 5, 5⟩ (.flag true)] ∧
        SerialParts KvStore.defaultShards (partsIn happenings) ∧
        ∃ rest, Net.Decoded {} [ascii "set k v\r\nge", ascii "t k"]
          (queued (eventsOf ⟨7, 1⟩ (netEvents happenings))) rest := by
  rcases interleaved_run with
    ⟨happenings, machine, conn, run, held, arrived, -, -, told, parts⟩
  have served := served_by_one_map run
  rcases (served.2 ⟨7, 1⟩).1 with ⟨kept, dropped, rest, split, -, decoded, still⟩
  rcases still conn held with ⟨rfl, -⟩
  rw [arrived, List.append_nil] at split
  rw [← split] at decoded
  exact ⟨happenings, machine, run, told, parts, served.1, rest, decoded⟩

/-- A client that sends valid frames.  What has been executed for it are the first of its
commands, in order, and what has been written to it are the first bytes of their replies.  As
long as its connection is open, every frame that is there as a whole has been queued, and the
receive buffer holds what has arrived behind these frames, the beginning of the next one. -/
theorem requests_answered {Tid : Type} [DecidableEq Tid] {config : ReactorConfig} {nShards : ℕ}
    {powerOfTwo : nShards.isPowerOfTwo} {aof : Option AofWriter} {enableTtl : Bool} {clock : ℕ}
    {happenings : List Happening} {machine : Machine Tid}
    (run : Run config (.initial powerOfTwo aof enableTtl clock) happenings machine) (id : ConnId)
    {frames : List Bytes} {commands : List (Option (List Bytes))}
    (valid : Protocol.ValidFrames frames commands)
    (sent : (chunksOf id (arrivalsIn happenings)).flatten <+: frames.flatten) :
    (executed (eventsOf id (netEvents happenings))).map Prod.fst <+: Server.queueable commands ∧
      written (eventsOf id (netEvents happenings)) <+:
        replies (eventsOf id (netEvents happenings)) ∧
      ∀ conn, machine.server.HeldBy id conn →
        let arrived := (chunksOf id (arrivalsIn happenings)).flatten
        let whole := Net.wholeFrames frames arrived.length
        queued (eventsOf id (netEvents happenings)) = Server.queueable (commands.take whole) ∧
          arrived = (frames.take whole).flatten ++ conn.recvBuf ∧
          Protocol.Begun conn.recvBuf (frames.drop whole) ∧
          conn.recvBuf.length = Net.unfinished frames arrived.length := by
  rcases Net.serves_run (server_run run) id with ⟨line, served, -⟩
  have accounted := SerialService.Accounted.run served
  rcases (Net.taken_run (reception_run run) id).stream with
    ⟨kept, dropped, rest, split, -, decoded, held⟩
  rw [split, List.flatten_append] at sent
  rcases Protocol.receiveChunks_begun valid ((List.prefix_append _ _).trans sent) with
    ⟨done, later, doneCommands, laterCommands, part, rfl, rfl, doneValid, -, kept_eq, begun,
      received⟩
  rcases decoded.received with ⟨found, alike, queued_eq⟩
  rw [received, StreamDecoder.Extraction.mk.injEq] at alike
  rcases alike with ⟨rfl, rfl, -⟩
  refine ⟨?_, accounted.written_isPrefix, ?_⟩
  · rw [Net.queueable_append, ← queued_eq]
    exact (accounted.executed_isPrefix.trans accounted.started_isPrefix).trans
      (List.prefix_append _ _)
  · intro conn open' arrived whole
    rcases held conn open' with ⟨rfl, buffered⟩
    have arrived_eq : arrived = done.flatten ++ part := by
      simp only [arrived]
      rw [split, List.append_nil, kept_eq]
    have whole_eq : whole = done.length := by
      simp only [whole]
      rw [arrived_eq, (Net.split_eq begun).1]
    rw [whole_eq, arrived_eq, (Net.split_eq begun).2, List.take_left, List.drop_left, buffered,
      queued_eq, doneValid.length_eq, List.take_left]
    exact ⟨rfl, rfl, begun, rfl⟩

/-- Of the second frame, only the line end has not yet arrived. -/
theorem requests_answered_interleaved :
    ∃ (happenings : List Happening) (machine : Machine Bool) (conn : Net.Connection),
      Run {} (.initial KvStore.defaultShards none true 5) happenings machine ∧
        machine.server.HeldBy ⟨7, 1⟩ conn ∧
        chunksOf ⟨7, 1⟩ (arrivalsIn happenings) = [ascii "set k v\r\nge", ascii "t k"] ∧
        (executed (eventsOf ⟨7, 1⟩ (netEvents happenings))).map Prod.fst <+:
          [[ascii "SET", ascii "k", ascii "v"], [ascii "GET", ascii "k"]] ∧
        queued (eventsOf ⟨7, 1⟩ (netEvents happenings)) =
          [[ascii "SET", ascii "k", ascii "v"]] ∧
        conn.recvBuf = ascii "get k" := by
  rcases interleaved_run with ⟨happenings, machine, conn, run, held, arrived, -⟩
  have set : Protocol.ValidFrame (ascii "set k v\r\n")
      (some [ascii "SET", ascii "k", ascii "v"]) :=
    @Protocol.ValidFrame.line (ascii "set k v") (by decide) (by decide)
  have get : Protocol.ValidFrame (ascii "get k\r\n") (some [ascii "GET", ascii "k"]) :=
    @Protocol.ValidFrame.line (ascii "get k") (by decide) (by decide)
  have answered := requests_answered run ⟨7, 1⟩ (.cons set (.cons get .nil)) (by
    rw [arrived]
    exact ⟨ascii "\r\n", rfl⟩)
  rcases answered.2.2 conn held with ⟨whole, buffered, -⟩
  rw [arrived] at whole buffered
  have behind : ascii "set k v\r\n" ++ ascii "get k" = ascii "set k v\r\n" ++ conn.recvBuf :=
    buffered
  exact ⟨happenings, machine, conn, run, held, arrived, answered.1, whole,
    (List.append_cancel_left behind).symm⟩

/-! ## Replies as a stream of values -/

/-- A command with an action is registered. -/
theorem safeArgs_of_action {args : List Bytes} {action : Action}
    (planned : (onMessage args).action = some action) : SafeArgs (upperName args) := by
  have alone := dispatchPlan_execute (upperName args)
    (KvStore.empty KvStore.defaultShards none true) 0 0
  apply (@oneValue_dispatch_iff _ (KvStore.empty KvStore.defaultShards none true) 0 0).mp
  rw [← alone]
  simp only [onMessage] at planned
  cases plan : dispatchPlan (upperName args) with
  | reply resp =>
      rw [plan] at planned
      cases planned
  | act action => exact oneValue_encode _ _
  | info => exact Protocol.oneValue_bulkString _

/-- A reply is one value if and only if the arguments of its command are safe. -/
theorem oneValue_explained {nShards : ℕ} {command : List Bytes × Bytes}
    {whole : List (Observation × Counters)} (explained : Explains nShards command whole) :
    Protocol.OneValue command.2 ↔ SafeArgs (upperName command.1) := by
  cases explained with
  | @reply args resp plan =>
      have alone := dispatchPlan_execute (upperName args)
        (KvStore.empty KvStore.defaultShards none true) 0 0
      have same : (dispatch (upperName args)
          (KvStore.empty KvStore.defaultShards none true) 0 0).1 = resp := by
        rw [← alone]
        simp only [onMessage] at plan
        rw [plan]
        rfl
      rw [← oneValue_dispatch_iff, same]
  | @act args resp action answer began ended middle encodes whole =>
      generalize plan : onMessage args = planned at encodes
      cases encodes with
      | act => exact iff_of_true (oneValue_encode _ _) (safeArgs_of_action (by rw [plan]; rfl))
      | info =>
          exact iff_of_true (Protocol.oneValue_bulkString _)
            (safeArgs_of_action (by rw [plan]; rfl))

/-- The replies on a connection stay in step with its commands exactly if the arguments of all
commands executed are safe: then all replies together decode to one value for each command, in
order. -/
theorem replies_in_step_iff {Tid : Type} [DecidableEq Tid] {config : ReactorConfig} {nShards : ℕ}
    {powerOfTwo : nShards.isPowerOfTwo} {aof : Option AofWriter} {enableTtl : Bool} {clock : ℕ}
    {happenings : List Happening} {machine : Machine Tid}
    (run : Run config (.initial powerOfTwo aof enableTtl clock) happenings machine)
    (id : ConnId) :
    ((∀ command ∈ executed (eventsOf id (netEvents happenings)), Protocol.OneValue command.2) ∧
      ∃ values, Protocol.decodeReplies (replies (eventsOf id (netEvents happenings))) =
          some values ∧
        List.Forall₂ (fun command value => Protocol.decodeReply command.2 = some (value, []))
          (executed (eventsOf id (netEvents happenings))) values) ↔
      ∀ command ∈ executed (eventsOf id (netEvents happenings)),
        SafeArgs (upperName command.1) := by
  rcases (Story.run run).told id with ⟨wholes, -, -, explained, -⟩
  have each : ∀ command ∈ executed (eventsOf id (netEvents happenings)),
      (Protocol.OneValue command.2 ↔ SafeArgs (upperName command.1)) :=
    ((List.forall₂_and_left _ _).mp (explained.imp fun _ _ shows =>
      ⟨oneValue_explained shows, shows⟩)).1
  constructor
  · rintro ⟨values, -⟩ command mem
    exact (each command mem).mp (values command mem)
  · intro safe
    have values : ∀ command ∈ executed (eventsOf id (netEvents happenings)),
        Protocol.OneValue command.2 :=
      fun command mem => (each command mem).mpr (safe command mem)
    refine ⟨values, ?_⟩
    rcases Protocol.decodeLoop_flatten (List.forall_mem_map.mpr values) (le_refl _) with
      ⟨found, decoded, matched⟩
    exact ⟨found, decoded, List.forall₂_map_left_iff.mp matched⟩

theorem replies_in_step_iff_interleaved :
    ∃ (happenings : List Happening) (machine : Machine Bool),
      Run {} (.initial KvStore.defaultShards none true 5) happenings machine ∧
        replies (eventsOf ⟨8, 2⟩ (netEvents happenings)) = ascii "$-1\r\n" ∧
        ∃ values, Protocol.decodeReplies (replies (eventsOf ⟨8, 2⟩ (netEvents happenings))) =
          some values := by
  rcases interleaved_run with ⟨happenings, machine, -, run, -, -, -, commands, -⟩
  have safe : ∀ command ∈ executed (eventsOf ⟨8, 2⟩ (netEvents happenings)),
      SafeArgs (upperName command.1) := by
    rw [commands]
    intro command mem
    rw [List.mem_singleton.mp mem]
    exact Or.inl rfl
  rcases ((replies_in_step_iff run ⟨8, 2⟩).mpr safe).2 with ⟨values, decoded, -⟩
  refine ⟨happenings, machine, run, ?_, values, decoded⟩
  rw [replies, commands]
  rfl

end RedisCpp.Service
