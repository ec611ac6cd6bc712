import RedisCpp.Net.EpollReactor

/-!
# What the server holds for one connection

A view gathers what the server holds for one connection, wherever it is kept.  The service
of the connection as a client served one command at a time explains the view: it says
which task, which worker and which completion there is, and which bytes are still to be
written.
-/

namespace RedisCpp.Net

open SerialService (Stage Line)

variable {Tid : Type}

/-! ## The view of one connection -/

/-- The connection that a worker works for. -/
def Worker.client : Worker → Option ConnId
  | .idle => none
  | .executing task => some task.id
  | .sending id _ => some id
  | .notifying id => some id

/-- A worker as one connection sees it. -/
def Worker.seenBy (id : ConnId) (worker : Worker) : Worker :=
  if worker.client = some id then worker else .idle

/-- The writes of the batch that is being drained. -/
def Phase.writes : Phase → List PendingWrite
  | .writing writes => writes
  | _ => []

/-- The completions of the batch that is being drained. -/
def Phase.completes : Phase → List ConnId
  | .completing completes => completes
  | _ => []

/-- The bytes of one connection in a list of pending writes. -/
def dataOf (id : ConnId) (writes : List PendingWrite) : Bytes :=
  (writes.filter fun write => write.id = id).flatMap PendingWrite.data

/-- What the server holds for one connection. -/
structure View (Tid : Type) where
  unused : Prop
  conn : Option Connection
  tasks : List Task
  workers : Tid → Worker
  data : Bytes
  completes : List ConnId

/-- A generation that has not been given out is unused.  A connection is open if it is the
one stored under its descriptor. -/
def Server.view (server : Server Tid) (id : ConnId) : View Tid where
  unused := server.genCounter < id.gen
  conn := (server.conns id.fd).filter fun conn => conn.generation = id.gen
  tasks := server.tasks.filter fun task => task.id = id
  workers := fun tid => (server.pool tid).seenBy id
  data := dataOf id (server.phase.writes ++ server.pendingWrites)
  completes := (server.phase.completes ++ server.completedCommands).filter fun done => done = id

/-- The tasks of a connection in the pool queue. -/
def tasksAt (id : ConnId) : Stage Tid (List Bytes) UInt8 → List Task
  | .waiting args => [⟨id, args⟩]
  | _ => []

/-- The worker that has the command of a connection, and what it does with it. -/
def workAt (id : ConnId) : Stage Tid (List Bytes) UInt8 → Option (Tid × Worker)
  | .executing worker args => some (worker, .executing ⟨id, args⟩)
  | .replying worker resp => some (worker, .sending id resp)
  | .notifying worker => some (worker, .notifying id)
  | _ => none

/-- What each worker does for a connection. -/
def workerAt [DecidableEq Tid] (id : ConnId) (tid : Tid) (stage : Stage Tid (List Bytes) UInt8) :
    Worker :=
  match workAt id stage with
  | none => .idle
  | some (worker, work) => if tid = worker then work else .idle

/-- The completions of a connection not yet processed. -/
def completesAt (id : ConnId) : Stage Tid (List Bytes) UInt8 → List ConnId
  | .completed => [id]
  | _ => []

/-- An open connection has the queue, the flag and the unwritten bytes of its service. -/
structure Stores (conn : Connection) (data : Bytes) (line : Line Tid (List Bytes) UInt8) :
    Prop where
  queue : conn.commandQueue = line.queue
  processing : conn.processing = true ↔ line.stage ≠ .ready
  outgoing : line.outgoing = conn.send.unsent ++ data

/-- The view of a connection agrees with its service. -/
structure Serves [DecidableEq Tid] (id : ConnId) (view : View Tid)
    (line : Line Tid (List Bytes) UInt8) : Prop where
  tasks : view.tasks = tasksAt id line.stage
  workers : ∀ tid, view.workers tid = workerAt id tid line.stage
  completes : view.completes = completesAt id line.stage
  stored : ∀ conn, view.conn = some conn → Stores conn view.data line
  untouched : view.unused → line = .initial ∧ view.conn = none ∧ view.data = []

/-- The events of one connection. -/
def eventsOf (id : ConnId) (events : List Event) :
    List (SerialService.Event (List Bytes) UInt8) :=
  events.filterMap fun event => if event.1 = id then some event.2 else none

@[simp]
theorem eventsOf_append (id : ConnId) (front back : List Event) :
    eventsOf id (front ++ back) = eventsOf id front ++ eventsOf id back :=
  List.filterMap_append

/-! ## Where the command in service is -/

section Stages

variable {id done : ConnId} {stage : Stage Tid (List Bytes) UInt8} {args : List Bytes}
  {resp : Bytes}

theorem waiting_of_tasksAt {task : Task} {rest : List Task}
    (front : tasksAt id stage = task :: rest) :
    stage = .waiting task.args ∧ rest = [] := by
  cases stage with
  | waiting args =>
      cases front
      exact ⟨rfl, rfl⟩
  | _ => cases front

theorem completed_of_completesAt {rest : List ConnId}
    (front : completesAt id stage = done :: rest) :
    stage = .completed ∧ rest = [] := by
  cases stage with
  | completed =>
      cases front
      exact ⟨rfl, rfl⟩
  | _ => cases front

theorem executing_of_workAt {tid : Tid}
    (works : workAt id stage = some (tid, .executing ⟨id, args⟩)) :
    stage = .executing tid args := by
  cases stage with
  | executing worker command =>
      cases works
      rfl
  | _ => cases works

theorem replying_of_workAt {tid : Tid} (works : workAt id stage = some (tid, .sending id resp)) :
    stage = .replying tid resp := by
  cases stage with
  | replying worker reply =>
      cases works
      rfl
  | _ => cases works

theorem notifying_of_workAt {tid : Tid} (works : workAt id stage = some (tid, .notifying id)) :
    stage = .notifying tid := by
  cases stage with
  | notifying worker =>
      cases works
      rfl
  | _ => cases works

variable [DecidableEq Tid] {tid : Tid}

/-- Only one worker is busy for a connection. -/
theorem workAt_of_busy (busy : workerAt id tid stage ≠ .idle) :
    workAt id stage = some (tid, workerAt id tid stage) := by
  simp only [workerAt] at busy ⊢
  cases works : workAt id stage with
  | none =>
      rw [works] at busy
      exact absurd rfl busy
  | some holder =>
      rw [works] at busy
      by_cases same : tid = holder.1
      · simp [same]
      · simp [same] at busy

theorem workAt_of_worker {worker work : Worker} (agrees : worker = workerAt id tid stage)
    (working : worker = work) (busy : work ≠ .idle) : workAt id stage = some (tid, work) := by
  subst working
  rw [agrees] at busy ⊢
  exact workAt_of_busy busy

theorem workerAt_of_ne {holder other : Tid} {work : Worker}
    (works : workAt id stage = some (holder, work)) (ne : other ≠ holder) :
    workerAt id other stage = .idle := by
  simp [workerAt, works, ne]

/-- A worker goes on with the command of a connection, all others being idle for it. -/
theorem workerAt_update {workers : Tid → Worker} {work : Worker}
    (others : ∀ other, other ≠ tid → workers other = .idle)
    (works : workAt id stage = some (tid, work)) (other : Tid) :
    Function.update workers tid work other = workerAt id other stage := by
  by_cases same : other = tid
  · subst same
    simp [workerAt, works]
  · rw [Function.update_of_ne same, others other same, workerAt_of_ne works same]

end Stages

/-- While a command is in service its stage does not show in the connection. -/
theorem Stores.move {conn : Connection} {data : Bytes} {line : Line Tid (List Bytes) UInt8}
    {stage : Stage Tid (List Bytes) UInt8} (stores : Stores conn data line)
    (before : line.stage ≠ .ready) (after : stage ≠ .ready) :
    Stores conn data { line with stage := stage } :=
  ⟨stores.queue, ⟨fun _ => after, fun _ => stores.processing.mpr before⟩, stores.outgoing⟩

/-! ## Following the service -/

section Follows

variable [DecidableEq Tid]

/-- From a view that agrees with the service, the service can go on by the events given and
agree with the later view. -/
def Follows (id : ConnId) (view : View Tid)
    (events : List (SerialService.Event (List Bytes) UInt8)) (after : View Tid) : Prop :=
  ∀ line, Serves id view line →
    ∃ later, SerialService.Run line events later ∧ Serves id after later

/-- The change of the server is one that every connection can follow. -/
def Tracks (server : Server Tid) (events : List Event) (after : Server Tid) : Prop :=
  ∀ id, Follows id (server.view id) (eventsOf id events) (after.view id)

variable {id : ConnId} {view after : View Tid} {server middle next : Server Tid}
  {events later : List Event}

theorem Follows.refl (id : ConnId) (view : View Tid) : Follows id view [] view :=
  fun line serves => ⟨line, .nil, serves⟩

theorem Follows.of_eq (same : after = view) : Follows id view [] after := by
  rw [same]
  exact .refl id view

/-- A connection that is closed keeps its tasks and completions until they are used up. -/
theorem Follows.dropped (id : ConnId) (view : View Tid) :
    Follows id view [] { view with conn := none } := by
  intro line serves
  refine ⟨line, .nil, serves.tasks, serves.workers, serves.completes, ?_, ?_⟩
  · intro conn stored
    cases stored
  · intro unused
    rcases serves.untouched unused with ⟨fresh, _, silent⟩
    exact ⟨fresh, rfl, silent⟩

/-- One step of the service. -/
theorem Follows.of_step {events : List (SerialService.Event (List Bytes) UInt8)}
    (step : ∀ line, Serves id view line →
      ∃ later, SerialService.Step line events later ∧ Serves id after later) :
    Follows id view events after := by
  intro line serves
  rcases step line serves with ⟨later, moved, agrees⟩
  exact ⟨later, moved.run, agrees⟩

theorem Tracks.trans (first : Tracks server events middle) (second : Tracks middle later next) :
    Tracks server (events ++ later) next := by
  intro id line serves
  rcases first id line serves with ⟨reached, run, agrees⟩
  rcases second id reached agrees with ⟨final, continued, settled⟩
  rw [eventsOf_append]
  exact ⟨final, run.trans continued, settled⟩

theorem Tracks.of_view (same : ∀ id, next.view id = server.view id) : Tracks server [] next :=
  fun id => Follows.of_eq (same id)

/-- A change that only one connection sees. -/
theorem Tracks.of_owner {owner : ConnId}
    {events : List (SerialService.Event (List Bytes) UInt8)}
    (others : ∀ id, owner ≠ id → next.view id = server.view id)
    (own : Follows owner (server.view owner) events (next.view owner)) :
    Tracks server (events.map (Prod.mk owner)) next := by
  intro id
  by_cases same : owner = id
  · subst same
    simpa [eventsOf, List.filterMap_map, Function.comp_def] using own
  · have silent : eventsOf id (events.map (Prod.mk owner)) = [] := by
      simp [eventsOf, same]
    rw [silent]
    exact Follows.of_eq (others id same)

/-- A connection that is open has a generation that was given out. -/
theorem Serves.used {line : Line Tid (List Bytes) UInt8} {conn : Connection}
    (serves : Serves id view line) (stored : view.conn = some conn) : ¬view.unused := by
  intro unused
  have absent := (serves.untouched unused).2.1
  rw [stored] at absent
  cases absent

theorem Serves.used_of_busy {line : Line Tid (List Bytes) UInt8} (serves : Serves id view line)
    (busy : line.stage ≠ .ready) : ¬view.unused := by
  intro unused
  rcases serves.untouched unused with ⟨rfl, _, _⟩
  exact busy rfl

section Open

variable {conn : Connection}

/-- A connection that is open stays one that is served, with what it then stores. -/
theorem Serves.of_stored {line after : Line Tid (List Bytes) UInt8} {later : View Tid}
    {next : Connection} (serves : Serves id view line) (stored : view.conn = some conn)
    (same : later.unused = view.unused) (tasks : later.tasks = tasksAt id after.stage)
    (workers : ∀ tid, later.workers tid = workerAt id tid after.stage)
    (completes : later.completes = completesAt id after.stage)
    (restored : later.conn = some next) (stores : Stores next later.data after) :
    Serves id later after := by
  refine ⟨tasks, workers, completes, ?_, ?_⟩
  · intro other found
    rw [restored] at found
    cases found
    exact stores
  · intro unused
    rw [same] at unused
    exact absurd unused (serves.used stored)

/-- A change of the connection that its service does not see. -/
theorem Follows.silent (stored : view.conn = some conn) (recvBuf : Bytes) (lastActive : ℤ) :
    Follows id view []
      { view with conn := some { conn with recvBuf := recvBuf, lastActive := lastActive } } := by
  intro line serves
  have stores := serves.stored conn stored
  refine ⟨line, .nil,
    serves.of_stored stored rfl serves.tasks serves.workers serves.completes rfl ?_⟩
  exact ⟨stores.queue, stores.processing, stores.outgoing⟩

theorem Follows.enqueue (stored : view.conn = some conn) (cmds : List (List Bytes)) :
    Follows id view (cmds.map .queued)
      { view with conn := some { conn with commandQueue := conn.commandQueue ++ cmds } } := by
  apply Follows.of_step
  intro line serves
  have stores := serves.stored conn stored
  refine ⟨_, .enqueue cmds,
    serves.of_stored stored rfl serves.tasks serves.workers serves.completes rfl ?_⟩
  exact ⟨congrArg (· ++ cmds) stores.queue, stores.processing, stores.outgoing⟩

theorem Follows.dispatch {args : List Bytes} {rest : List (List Bytes)}
    (stored : view.conn = some conn) (idle : conn.processing = false)
    (front : conn.commandQueue = args :: rest) :
    Follows id view []
      { view with
        conn := some { conn with processing := true, commandQueue := rest }
        tasks := view.tasks ++ [⟨id, args⟩] } := by
  apply Follows.of_step
  intro line serves
  have stores := serves.stored conn stored
  have ready : line.stage = .ready := by
    by_contra busy
    have processing := stores.processing.mpr busy
    rw [idle] at processing
    cases processing
  have tasks := serves.tasks
  have workers := serves.workers
  have completes := serves.completes
  rw [ready] at tasks workers completes
  refine ⟨_, .dispatch ready (stores.queue.symm.trans front),
    serves.of_stored stored rfl ?_ workers completes rfl ⟨rfl, by simp, stores.outgoing⟩⟩
  simp only [tasks, tasksAt, List.nil_append]

/-- Some bytes of the send buffer are written to the socket. -/
theorem Follows.flush (stored : view.conn = some conn) (results : List WriteResult) :
    Follows id view [.wrote (conn.send.flush results).2.2]
      { view with conn := some { conn with send := (conn.send.flush results).2.1 } } := by
  apply Follows.of_step
  intro line serves
  have stores := serves.stored conn stored
  have front : line.outgoing = (conn.send.flush results).2.2 ++
      ((conn.send.flush results).2.1.unsent ++ view.data) := by
    rw [stores.outgoing, SendBuffer.unsent_flush results, List.append_assoc]
  refine ⟨_, .write front,
    serves.of_stored stored rfl serves.tasks serves.workers serves.completes rfl ?_⟩
  exact ⟨stores.queue, stores.processing, rfl⟩

/-- A reply moves from the queue to the send buffer. -/
theorem Follows.sendEnqueue {data rest : Bytes} (stored : view.conn = some conn)
    (front : view.data = data ++ rest) :
    Follows id view [] { view with conn := some (conn.sendEnqueue data), data := rest } := by
  intro line serves
  have stores := serves.stored conn stored
  refine ⟨line, .nil,
    serves.of_stored stored rfl serves.tasks serves.workers serves.completes rfl ?_⟩
  refine ⟨stores.queue, stores.processing, ?_⟩
  simp only [stores.outgoing, front, Connection.sendEnqueue, SendBuffer.unsent_enqueue,
    List.append_assoc]

/-- The completion of the command in service is processed. -/
theorem Follows.complete {rest : List ConnId} (stored : view.conn = some conn)
    (front : view.completes = id :: rest) :
    Follows id view []
      { view with conn := some { conn with processing := false }, completes := rest } := by
  apply Follows.of_step
  intro line serves
  have stores := serves.stored conn stored
  rcases completed_of_completesAt (serves.completes.symm.trans front) with ⟨completed, rfl⟩
  have tasks := serves.tasks
  have workers := serves.workers
  rw [completed] at tasks workers
  refine ⟨_, .complete completed, serves.of_stored stored rfl tasks workers rfl rfl ?_⟩
  exact ⟨stores.queue, by simp, stores.outgoing⟩

end Open

/-- The completion of a connection that is closed is dropped. -/
theorem Follows.completeClosed {rest : List ConnId} (closed : view.conn = none)
    (front : view.completes = id :: rest) : Follows id view [] { view with completes := rest } := by
  apply Follows.of_step
  intro line serves
  rcases completed_of_completesAt (serves.completes.symm.trans front) with ⟨completed, rfl⟩
  have tasks := serves.tasks
  have workers := serves.workers
  rw [completed] at tasks workers
  refine ⟨_, .complete completed, tasks, workers, rfl, ?_, ?_⟩
  · intro conn stored
    rw [closed] at stored
    cases stored
  · intro unused
    exact absurd unused (serves.used_of_busy (by simp [completed]))

/-- A reply to a connection that is closed is dropped. -/
theorem Follows.skipWrite {data rest : Bytes} (closed : view.conn = none)
    (front : view.data = data ++ rest) : Follows id view [] { view with data := rest } := by
  intro line serves
  refine ⟨line, .nil, serves.tasks, serves.workers, serves.completes, ?_, ?_⟩
  · intro conn stored
    rw [closed] at stored
    cases stored
  · intro unused
    rcases serves.untouched unused with ⟨fresh, absent, silent⟩
    rw [front, List.append_eq_nil_iff] at silent
    exact ⟨fresh, absent, silent.2⟩

/-! ### Workers -/

section Working

variable {tid : Tid} {args : List Bytes} {resp : Bytes}

theorem Follows.take (tid : Tid) {rest : List Task} (front : view.tasks = ⟨id, args⟩ :: rest) :
    Follows id view [.started args]
      { view with
        tasks := rest
        workers := Function.update view.workers tid (.executing ⟨id, args⟩) } := by
  apply Follows.of_step
  intro line serves
  rcases waiting_of_tasksAt (serves.tasks.symm.trans front) with ⟨waiting, rfl⟩
  have completes := serves.completes
  rw [waiting] at completes
  have busy : line.stage ≠ .ready := by simp [waiting]
  refine ⟨_, .start tid waiting, rfl, ?_, completes, ?_, ?_⟩
  · apply workerAt_update _ rfl
    intro other _
    rw [serves.workers other, waiting]
    rfl
  · intro conn stored
    exact (serves.stored conn stored).move busy (by simp)
  · intro unused
    exact absurd unused (serves.used_of_busy busy)

theorem Follows.execute (resp : Bytes) (executing : view.workers tid = .executing ⟨id, args⟩) :
    Follows id view [.executed args resp]
      { view with workers := Function.update view.workers tid (.sending id resp) } := by
  apply Follows.of_step
  intro line serves
  have works := workAt_of_worker (serves.workers tid) executing (by simp)
  have stage := executing_of_workAt works
  have tasks := serves.tasks
  have completes := serves.completes
  rw [stage] at tasks completes
  have busy : line.stage ≠ .ready := by simp [stage]
  refine ⟨_, .execute resp stage, tasks, ?_, completes, ?_, ?_⟩
  · apply workerAt_update _ rfl
    intro other ne
    exact (serves.workers other).trans (workerAt_of_ne works ne)
  · intro conn stored
    exact (serves.stored conn stored).move busy (by simp)
  · intro unused
    exact absurd unused (serves.used_of_busy busy)

theorem Follows.send (sending : view.workers tid = .sending id resp) :
    Follows id view []
      { view with
        workers := Function.update view.workers tid (.notifying id)
        data := view.data ++ resp } := by
  apply Follows.of_step
  intro line serves
  have works := workAt_of_worker (serves.workers tid) sending (by simp)
  have stage := replying_of_workAt works
  have tasks := serves.tasks
  have completes := serves.completes
  rw [stage] at tasks completes
  have busy : line.stage ≠ .ready := by simp [stage]
  refine ⟨_, .send stage, tasks, ?_, completes, ?_, ?_⟩
  · apply workerAt_update _ rfl
    intro other ne
    exact (serves.workers other).trans (workerAt_of_ne works ne)
  · intro conn stored
    have stores := (serves.stored conn stored).move busy
      (by simp : (Stage.notifying tid : Stage Tid (List Bytes) UInt8) ≠ .ready)
    refine ⟨stores.queue, stores.processing, ?_⟩
    simp only [(serves.stored conn stored).outgoing, List.append_assoc]
  · intro unused
    exact absurd unused (serves.used_of_busy busy)

theorem Follows.notify (notifying : view.workers tid = .notifying id) :
    Follows id view []
      { view with
        workers := Function.update view.workers tid .idle
        completes := view.completes ++ [id] } := by
  apply Follows.of_step
  intro line serves
  have works := workAt_of_worker (serves.workers tid) notifying (by simp)
  have stage := notifying_of_workAt works
  have tasks := serves.tasks
  have completes := serves.completes
  rw [stage] at tasks completes
  have busy : line.stage ≠ .ready := by simp [stage]
  refine ⟨_, .notify stage, tasks, ?_, ?_, ?_, ?_⟩
  · intro other
    by_cases same : other = tid
    · subst same
      simp [workerAt, workAt]
    · simp only [Function.update_of_ne same]
      exact (serves.workers other).trans (workerAt_of_ne works same)
  · simp only [completes, completesAt, List.nil_append]
  · intro conn stored
    exact (serves.stored conn stored).move busy (by simp)
  · intro unused
    exact absurd unused (serves.used_of_busy busy)

end Working

end Follows

end RedisCpp.Net
