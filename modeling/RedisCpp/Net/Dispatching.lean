import RedisCpp.Lib.WorkQueue
import RedisCpp.Net.OrderedService

/-!
# Handing commands to the pool

The reactor uses the thread pool as a queue of work: `dispatch_next_command` is the only place
that puts a task into it, and the workers take tasks off its front.  A worker is done with a
task when it has executed the command; it takes the next one when it has reported that.

So the commands of all connections start in the order in which the reactor has handed them
out, and those of one connection have been handed out in the order of their arrival.
-/

namespace RedisCpp.Net

open SerialService (queued started executed Accounted)

variable {Tid : Type}

/-! ## What the handlers do with the pool -/

/-- The workers are left alone, and at most one task is added to those that wait. -/
structure HandsOut (server after : Server Tid) (task : Option Task) : Prop where
  pool : after.pool = server.pool
  tasks : after.tasks = server.tasks ++ task.toList

namespace HandsOut

variable {server after later : Server Tid} {fd : ℕ} {conn : Connection} {task : Option Task}

theorem nothing (pool : after.pool = server.pool) (tasks : after.tasks = server.tasks) :
    HandsOut server after none :=
  ⟨pool, by rw [tasks, Option.toList_none, List.append_nil]⟩

theorem of_same (handed : HandsOut after later task) (pool : after.pool = server.pool)
    (tasks : after.tasks = server.tasks) : HandsOut server later task :=
  ⟨handed.pool.trans pool, by rw [handed.tasks, tasks]⟩

theorem handleClose (server : Server Tid) (fd : ℕ) :
    HandsOut server (server.handleClose fd) none := by
  simp only [Server.handleClose]
  split
  · exact nothing rfl rfl
  · exact nothing rfl rfl

theorem dispatchNextCommand (server : Server Tid) (fd : ℕ) (conn : Connection) :
    ∃ task, HandsOut server (server.dispatchNextCommand fd conn) task := by
  simp only [Server.dispatchNextCommand]
  split
  · exact ⟨none, nothing rfl rfl⟩
  · exact ⟨some _, rfl, rfl⟩

theorem queueCommands (server : Server Tid) (fd : ℕ) (conn : Connection)
    (cmds : List (List Bytes)) :
    ∃ task, HandsOut server (server.queueCommands fd conn cmds) task := by
  simp only [Server.queueCommands]
  split
  · rcases dispatchNextCommand
      (server.setConn fd { conn with commandQueue := conn.commandQueue ++ cmds }) fd
      { conn with commandQueue := conn.commandQueue ++ cmds } with ⟨task, handed⟩
    exact ⟨task, handed.of_same rfl rfl⟩
  · exact ⟨none, nothing rfl rfl⟩

theorem handleRead {config : ReactorConfig} {reads : List ReadResult} {events : List Event}
    (handled : server.handleRead config fd reads = some (after, events)) :
    ∃ task, HandsOut server after task := by
  cases Server.handledRead handled with
  | absent free => exact ⟨none, nothing rfl rfl⟩
  | hungUp held ended => exact ⟨none, handleClose server fd⟩
  | failed held received error => exact ⟨none, handleClose server fd⟩
  | queued held received clean => exact queueCommands server fd _ _

theorem handleWrite (server : Server Tid) (fd : ℕ) (results : List WriteResult) :
    HandsOut server (server.handleWrite fd results).1 none := by
  simp only [Server.handleWrite]
  split
  · exact nothing rfl rfl
  · split
    · exact (handleClose _ fd).of_same rfl rfl
    · exact nothing rfl rfl
    · exact nothing rfl rfl

theorem processWrite (server : Server Tid) (write : PendingWrite) (results : List WriteResult) :
    HandsOut server (server.processWrite write results).1 none := by
  simp only [Server.processWrite]
  split
  · exact nothing rfl rfl
  · split
    · exact nothing rfl rfl
    · split
      · exact (handleClose _ write.id.fd).of_same rfl rfl
      · exact nothing rfl rfl
      · exact nothing rfl rfl

theorem processComplete (server : Server Tid) (id : ConnId) :
    ∃ task, HandsOut server (server.processComplete id) task := by
  simp only [Server.processComplete]
  split
  · exact ⟨none, nothing rfl rfl⟩
  · split
    · exact ⟨none, nothing rfl rfl⟩
    · rename_i conn held current
      rcases dispatchNextCommand (server.setConn id.fd { conn with processing := false }) id.fd
        { conn with processing := false } with ⟨task, handed⟩
      exact ⟨task, handed.of_same rfl rfl⟩

end HandsOut

/-- Nothing is started and nothing is executed. -/
def Inactive (events : List Event) : Prop :=
  ∀ event ∈ events, (∀ args, event.2 ≠ .started args) ∧ ∀ args resp, event.2 ≠ .executed args resp

theorem inactive_nil : Inactive [] := by
  simp [Inactive]

theorem inactive_flushConn (server : Server Tid) (fd : ℕ) (conn : Connection)
    (results : List WriteResult) : Inactive (server.flushConn fd conn results).2.2 := by
  simp [Inactive, Server.flushConn]

theorem inactive_handleRead {server after : Server Tid} {config : ReactorConfig} {fd : ℕ}
    {reads : List ReadResult} {events : List Event}
    (handled : server.handleRead config fd reads = some (after, events)) : Inactive events := by
  cases Server.handledRead handled with
  | absent | hungUp | failed => exact inactive_nil
  | queued held received clean => simp [Inactive]

theorem inactive_handleWrite (server : Server Tid) (fd : ℕ) (results : List WriteResult) :
    Inactive (server.handleWrite fd results).2 := by
  simp only [Server.handleWrite]
  split
  · exact inactive_nil
  · rename_i conn held
    have flushed := inactive_flushConn server fd conn results
    split
    · exact flushed
    · exact flushed
    · exact flushed

theorem inactive_processWrite (server : Server Tid) (write : PendingWrite)
    (results : List WriteResult) : Inactive (server.processWrite write results).2 := by
  simp only [Server.processWrite]
  split
  · exact inactive_nil
  · rename_i conn held
    have flushed := inactive_flushConn server write.id.fd (conn.sendEnqueue write.data) results
    split
    · exact inactive_nil
    · split
      · exact flushed
      · exact flushed
      · exact flushed

/-- What a step does with the pool: the reactor hands out at most one task, or a worker goes on
with the task that it has. -/
inductive PoolStep [DecidableEq Tid] (server : Server Tid) : List Event → Server Tid → Prop where
  | reactor {events : List Event} {after : Server Tid} (task : Option Task)
      (handed : HandsOut server after task) (inactive : Inactive events) :
      PoolStep server events after
  | take (tid : Tid) {task : Task} {tasks : List Task} (idle : server.pool tid = .idle)
      (front : server.tasks = task :: tasks) :
      PoolStep server [(task.id, .started task.args)]
        (({ server with tasks := tasks } : Server Tid).setWorker tid (.executing task))
  | execute (tid : Tid) {task : Task} (resp : Bytes)
      (executing : server.pool tid = .executing task) :
      PoolStep server [(task.id, .executed task.args resp)]
        (server.setWorker tid (.sending task.id resp))
  | report (tid : Tid) {worker : Worker} {after : Server Tid}
      (done : ∀ task, server.pool tid ≠ .executing task) (undone : ∀ task, worker ≠ .executing task)
      (pool : after.pool = Function.update server.pool tid worker)
      (tasks : after.tasks = server.tasks) : PoolStep server [] after

section Steps

variable [DecidableEq Tid] {config : ReactorConfig} {server after : Server Tid}
  {events : List Event}

theorem Step.poolStep (step : Step config server events after) : PoolStep server events after := by
  cases step with
  | accept fd now => exact .reactor none (HandsOut.nothing rfl rfl) inactive_nil
  | read fd reads polling handled =>
      rcases HandsOut.handleRead handled with ⟨task, handed⟩
      exact .reactor task handed (inactive_handleRead handled)
  | write fd results =>
      exact .reactor none (HandsOut.handleWrite server fd results)
        (inactive_handleWrite server fd results)
  | close fd => exact .reactor none (HandsOut.handleClose server fd) inactive_nil
  | idle | swapWrites | writesDone | swapCompletes | completesDone =>
      exact .reactor none (HandsOut.nothing rfl rfl) inactive_nil
  | @processWrite write writes results =>
      have handed := HandsOut.processWrite (server.setPhase (.writing writes)) write results
      exact .reactor none (handed.of_same rfl rfl) (inactive_processWrite _ write results)
  | @processComplete id completes =>
      rcases HandsOut.processComplete (server.setPhase (.completing completes)) id with
        ⟨task, handed⟩
      exact .reactor task (handed.of_same rfl rfl) inactive_nil
  | take tid idle front => exact .take tid idle front
  | execute tid resp executing => exact .execute tid resp executing
  | send tid sending =>
      exact .report tid (by rw [sending]; nofun) (by nofun) rfl rfl
  | notify tid notifying =>
      exact .report tid (by rw [notifying]; nofun) (by nofun) rfl rfl

end Steps

/-! ## The work queue -/

/-- The task that a worker has yet to execute. -/
def Worker.task : Worker → Option Task
  | .executing task => some task
  | _ => none

/-- The tasks that wait and those at which the workers are. -/
def Server.workQueue (server : Server Tid) : WorkQueue Tid Task where
  waiting := server.tasks
  closed := false
  current := fun tid => (server.pool tid).task

/-- The tasks that the workers have started. -/
def startedTasks (events : List Event) : List Task :=
  events.filterMap fun event =>
    match event.2 with
    | .started args => some ⟨event.1, args⟩
    | _ => none

/-- The tasks that the workers have executed. -/
def executedTasks (events : List Event) : List Task :=
  events.filterMap fun event =>
    match event.2 with
    | .executed args _ => some ⟨event.1, args⟩
    | _ => none

@[simp]
theorem startedTasks_append (front back : List Event) :
    startedTasks (front ++ back) = startedTasks front ++ startedTasks back :=
  List.filterMap_append

@[simp]
theorem executedTasks_append (front back : List Event) :
    executedTasks (front ++ back) = executedTasks front ++ executedTasks back :=
  List.filterMap_append

theorem Inactive.startedTasks {events : List Event} (inactive : Inactive events) :
    startedTasks events = [] := by
  apply List.filterMap_eq_nil_iff.mpr
  rintro ⟨id, event⟩ mem
  cases event with
  | started args => exact absurd rfl ((inactive _ mem).1 args)
  | queued | executed | wrote => rfl

theorem Inactive.executedTasks {events : List Event} (inactive : Inactive events) :
    executedTasks events = [] := by
  apply List.filterMap_eq_nil_iff.mpr
  rintro ⟨id, event⟩ mem
  cases event with
  | executed args resp => exact absurd rfl ((inactive _ mem).2 args resp)
  | queued | started | wrote => rfl

section Queue

open WorkQueue (Activity)

variable [DecidableEq Tid] {config : ReactorConfig} {server after : Server Tid}
  {events : List Event}

theorem task_update (pool : Tid → Worker) (tid : Tid) (worker : Worker) :
    (fun other => (Function.update pool tid worker other).task) =
      Function.update (fun other => (pool other).task) tid worker.task := by
  funext other
  exact Function.apply_update (fun _ worker => worker.task) pool tid worker other

/-- What the events of a step show of an activity of the queue. -/
structure Shows (events : List Event) (activity : Activity Tid Task) : Prop where
  taken : activity.taken.map Prod.snd = startedTasks events
  finished : activity.finished.map Prod.snd = executedTasks events

/-- A step of the server is one of its work queue. -/
theorem PoolStep.workQueue (step : PoolStep server events after) :
    ∃ activity : Activity Tid Task, WorkQueue.Step server.workQueue activity after.workQueue ∧
      Shows events activity := by
  cases step with
  | reactor task handed inactive =>
      have same : after.workQueue =
          { server.workQueue with waiting := server.tasks ++ task.toList } := by
        simp only [Server.workQueue, handed.pool, handed.tasks]
      have started := inactive.startedTasks
      have executed := inactive.executedTasks
      rw [same]
      cases task with
      | none =>
          simp only [Option.toList_none, List.append_nil]
          exact ⟨.quiet, .stay, started.symm, executed.symm⟩
      | some task => exact ⟨.accept task, .accept task rfl, started.symm, executed.symm⟩
  | @take tid task tasks idle front =>
      refine ⟨.take tid task, ?_, ⟨rfl, rfl⟩⟩
      have free : server.workQueue.current tid = none := by
        simp only [Server.workQueue, idle, Worker.task]
      have taken := WorkQueue.Step.take free front
      have current := task_update server.pool tid (.executing task)
      simp only [Server.workQueue, Server.setWorker, current]
      exact taken
  | @execute tid task resp executing =>
      refine ⟨.finish tid task, ?_, ⟨rfl, rfl⟩⟩
      have busy : server.workQueue.current tid = some task := by
        simp only [Server.workQueue, executing, Worker.task]
      have finished := WorkQueue.Step.finish busy
      have current := task_update server.pool tid (.sending task.id resp)
      simp only [Server.workQueue, Server.setWorker, current]
      exact finished
  | @report tid worker _ done undone pool tasks =>
      refine ⟨.quiet, ?_, ⟨rfl, rfl⟩⟩
      have taskless : ∀ work : Worker, (∀ task, work ≠ .executing task) → work.task = none := by
        intro work other
        cases work with
        | executing task => exact absurd rfl (other task)
        | idle | sending | notifying => rfl
      have same : after.workQueue = server.workQueue := by
        simp only [Server.workQueue, pool, tasks, task_update, taskless worker undone]
        congr 1
        rw [← taskless _ done]
        exact Function.update_eq_self tid _
      rw [same]
      exact .stay

/-- The tasks that the reactor hands out in a step: those by which it lengthens the line. -/
def handedOut (move : Transition.Move (Server Tid) (List Event)) : List Task :=
  move.target.tasks.drop move.source.tasks.length

/-- The events of a run. -/
def eventsIn (moves : List (Transition.Move (Server Tid) (List Event))) : List Event :=
  moves.flatMap Transition.Move.label

section Followed

variable {moves : List (Transition.Move (Server Tid) (List Event))}
  {queue : List (Transition.Move (WorkQueue Tid Task) (Activity Tid Task))}

variable (alike : List.Forall₂ (Transition.Follows Server.workQueue Shows) moves queue)
include alike

omit [DecidableEq Tid] in
/-- Where each move of the queue has what the move of the server has, the runs have the same. -/
theorem flatMap_of_follows {Item : Type}
    {ofServer : Transition.Move (Server Tid) (List Event) → List Item}
    {ofQueue : Transition.Move (WorkQueue Tid Task) (Activity Tid Task) → List Item}
    (same : ∀ move seen, Transition.Follows Server.workQueue Shows move seen →
      ofServer move = ofQueue seen) : moves.flatMap ofServer = queue.flatMap ofQueue := by
  have parts : List.Forall₂ Eq (moves.flatMap ofServer) (queue.flatMap ofQueue) := by
    apply List.rel_flatMap alike
    intro move seen follows
    rw [same move seen follows]
    exact List.forall₂_refl _
  rwa [List.forall₂_eq_eq_eq] at parts

omit [DecidableEq Tid] in
theorem handedOut_of_follows : moves.flatMap handedOut = queue.flatMap WorkQueue.joined := by
  apply flatMap_of_follows alike
  intro move seen follows
  rw [handedOut, WorkQueue.joined, follows.source, follows.target]
  rfl

omit [DecidableEq Tid] in
theorem started_of_follows : startedTasks (eventsIn moves) =
    (WorkQueue.taken (queue.map Transition.Move.label)).map Prod.snd := by
  rw [startedTasks, eventsIn, List.filterMap_flatMap, WorkQueue.taken, List.flatMap_map,
    List.map_flatMap]
  exact flatMap_of_follows alike fun move seen follows => follows.shows.taken.symm

omit [DecidableEq Tid] in
theorem executed_of_follows : executedTasks (eventsIn moves) =
    (WorkQueue.finished (queue.map Transition.Move.label)).map Prod.snd := by
  rw [executedTasks, eventsIn, List.filterMap_flatMap, WorkQueue.finished, List.flatMap_map,
    List.map_flatMap]
  exact flatMap_of_follows alike fun move seen follows => follows.shows.finished.symm

end Followed

theorem run_of_moves {moves : List (Transition.Move (Server Tid) (List Event))}
    (run : Transition.Run (Step config) .initial moves server) :
    Run config (eventsIn moves) server := by
  induction run with
  | nil => exact .nil
  | snoc _ step inductionHypothesis =>
      rw [eventsIn, List.flatMap_append, List.flatMap_singleton]
      exact inductionHypothesis.snoc step

omit [DecidableEq Tid] in
theorem startedTasks_filter (id : ConnId) (events : List Event) :
    ((startedTasks events).filter fun task => task.id = id).map Task.args =
      started (eventsOf id events) := by
  induction events with
  | nil => rfl
  | cons event events inductionHypothesis =>
      rcases event with ⟨owner, event⟩
      by_cases same : owner = id
      · cases event with
        | started args =>
            simpa [startedTasks, eventsOf, started, same] using inductionHypothesis
        | queued | executed | wrote =>
            simpa [startedTasks, eventsOf, started, same] using inductionHypothesis
      · cases event with
        | started args =>
            simpa [startedTasks, eventsOf, started, same] using inductionHypothesis
        | queued | executed | wrote =>
            simpa [startedTasks, eventsOf, started, same] using inductionHypothesis

/-- The commands of a connection that have been handed out are the first ones queued. -/
theorem handedOut_isPrefix (run : Run config events server) (id : ConnId) :
    ((startedTasks events ++ server.tasks).filter fun task => task.id = id).map Task.args <+:
      queued (eventsOf id events) := by
  rcases serves_run run id with ⟨line, served, serves⟩
  have accounted := Accounted.run served
  have waiting : server.tasks.filter (fun task => task.id = id) = tasksAt id line.stage :=
    serves.tasks
  have stage : line.stage.running ++ (tasksAt id line.stage).map Task.args =
      line.stage.commands := by
    cases line.stage with
    | ready | waiting | executing | replying | notifying | completed => rfl
  rw [List.filter_append, List.map_append, startedTasks_filter, waiting, accounted.starts,
    List.append_assoc, stage, accounted.commands]
  exact List.prefix_append _ _

end Queue

/-- The pool of the server is a work queue, move by move: whenever the reactor lengthens the line of
the tasks that wait, it enqueues one, and whenever a worker starts a task, it takes the one that has
waited longest.  So the tasks handed out so far are those started, in this order, and those that
wait; a worker has executed those that it has started, up to the one it is at; and the commands of a
connection have been handed out in the order of their arrival. -/
theorem dispatched_in_order {Tid : Type} [DecidableEq Tid] {config : ReactorConfig}
    {moves : List (Transition.Move (Server Tid) (List Event))} {server : Server Tid}
    (run : Transition.Run (Step config) .initial moves server) :
    ∃ queue : List (Transition.Move (WorkQueue Tid Task) (WorkQueue.Activity Tid Task)),
      Transition.Run WorkQueue.Step WorkQueue.empty queue server.workQueue ∧
        List.Forall₂ (Transition.Follows Server.workQueue Shows) moves queue ∧
        WorkQueue.accepted (queue.map Transition.Move.label) = moves.flatMap handedOut ∧
        moves.flatMap handedOut = startedTasks (eventsIn moves) ++ server.tasks ∧
        (WorkQueue.taken (queue.map Transition.Move.label)).map Prod.snd =
          startedTasks (eventsIn moves) ∧
        (WorkQueue.finished (queue.map Transition.Move.label)).map Prod.snd =
          executedTasks (eventsIn moves) ∧
        (∀ tid, WorkQueue.ofWorker tid (WorkQueue.taken (queue.map Transition.Move.label)) =
          WorkQueue.ofWorker tid (WorkQueue.finished (queue.map Transition.Move.label)) ++
            (server.pool tid).task.toList) ∧
        ∀ id, ((moves.flatMap handedOut).filter fun task => task.id = id).map Task.args <+:
          queued (eventsOf id (eventsIn moves)) := by
  rcases run.follow Server.workQueue fun _ _ _ step => step.poolStep.workQueue with
    ⟨queue, followed, alike⟩
  have accepted := (WorkQueue.accepted_eq_joined followed).trans (handedOut_of_follows alike).symm
  have taken := (started_of_follows alike).symm
  have accounted := WorkQueue.Accounted.run followed
  have conserved := accounted.conserved
  rw [accepted, taken] at conserved
  refine ⟨queue, followed, alike, accepted, conserved, taken, (executed_of_follows alike).symm,
    accounted.served, ?_⟩
  intro id
  rw [conserved]
  exact handedOut_isPrefix (run_of_moves run) id

/-- Two connections whose first commands are handed out, and a worker that starts the first one. -/
theorem dispatched_in_order_two :
    ∃ (moves : List (Transition.Move (Server Unit) (List Event))) (server : Server Unit),
      Transition.Run (Step {}) .initial moves server ∧
        moves.flatMap handedOut =
          [⟨⟨8, 2⟩, [ascii "PING"]⟩, ⟨⟨7, 1⟩, [ascii "INFO"]⟩] ∧
        startedTasks (eventsIn moves) = [⟨⟨8, 2⟩, [ascii "PING"]⟩] ∧
        ∃ queue : List (Transition.Move (WorkQueue Unit Task) (WorkQueue.Activity Unit Task)),
          List.Forall₂ (Transition.Follows Server.workQueue Shows) moves queue ∧
            WorkQueue.accepted (queue.map Transition.Move.label) =
              startedTasks (eventsIn moves) ++ [⟨⟨7, 1⟩, [ascii "INFO"]⟩] := by
  have accepted := ((@Transition.Run.nil _ _ (@Step Unit _ {}) .initial).snoc
    (Step.accept 7 0 rfl rfl)).snoc (Step.accept 8 0 rfl rfl)
  have second := accepted.snoc (Step.read 8 [.read (ascii "PING\r\n") 0] rfl rfl)
  have first := second.snoc (Step.read 7 [.read (ascii "INFO\r\n") 0] rfl rfl)
  have taken := first.snoc (Step.take () rfl rfl)
  rcases dispatched_in_order taken with ⟨queue, -, alike, enqueued, conserved, -⟩
  exact ⟨_, _, taken, conserved, rfl, queue, alike, enqueued.trans conserved⟩

end RedisCpp.Net
