import Mathlib.Data.List.Basic

/-!
# Serving a client one command at a time

The commands of a client wait in a queue.  One of them at a time is handed to a worker,
which executes it, gives the reply away and then reports that it is done; only after
that the next command is handed out.  The replies collect in an outgoing buffer, from
which any number of bytes may be written at any time.

However these steps follow one another, commands are executed in the order in which they
were queued, and what has been written is an initial part of their replies in that order.
-/

namespace SerialService

variable {Worker Command Byte : Type*}

/-- Where the command in service is. -/
inductive Stage (Worker Command Byte : Type*) where
  | ready
  | waiting (command : Command)
  | executing (worker : Worker) (command : Command)
  | replying (worker : Worker) (reply : List Byte)
  | notifying (worker : Worker)
  | completed

/-- The service of one client: the commands not yet handed out, the command in service
and the bytes not yet written. -/
structure Line (Worker Command Byte : Type*) where
  queue : List Command
  stage : Stage Worker Command Byte
  outgoing : List Byte

/-- What can be observed of the service of one client. -/
inductive Event (Command Byte : Type*) where
  | queued (command : Command)
  | started (command : Command)
  | executed (command : Command) (reply : List Byte)
  | wrote (data : List Byte)
deriving DecidableEq, Repr

/-- Before the first command. -/
def Line.initial : Line Worker Command Byte where
  queue := []
  stage := .ready
  outgoing := []

/-- One step of the service. -/
inductive Step (line : Line Worker Command Byte) :
    List (Event Command Byte) → Line Worker Command Byte → Prop where
  | enqueue (commands : List Command) :
      Step line (commands.map .queued) { line with queue := line.queue ++ commands }
  | dispatch {command : Command} {rest : List Command} (ready : line.stage = .ready)
      (front : line.queue = command :: rest) :
      Step line [] { line with queue := rest, stage := .waiting command }
  | start (worker : Worker) {command : Command} (waiting : line.stage = .waiting command) :
      Step line [.started command] { line with stage := .executing worker command }
  | execute {worker : Worker} {command : Command} (reply : List Byte)
      (executing : line.stage = .executing worker command) :
      Step line [.executed command reply] { line with stage := .replying worker reply }
  | send {worker : Worker} {reply : List Byte} (replying : line.stage = .replying worker reply) :
      Step line []
        { line with stage := .notifying worker, outgoing := line.outgoing ++ reply }
  | notify {worker : Worker} (notifying : line.stage = .notifying worker) :
      Step line [] { line with stage := .completed }
  | complete (completed : line.stage = .completed) : Step line [] { line with stage := .ready }
  | write {data rest : List Byte} (front : line.outgoing = data ++ rest) :
      Step line [.wrote data] { line with outgoing := rest }

/-- The runs from a given state of the service, with their events. -/
inductive Run (start : Line Worker Command Byte) :
    List (Event Command Byte) → Line Worker Command Byte → Prop where
  | nil : Run start [] start
  | snoc {events added : List (Event Command Byte)} {line after : Line Worker Command Byte}
      (run : Run start events line) (step : Step line added after) :
      Run start (events ++ added) after

theorem Step.run {line after : Line Worker Command Byte} {events : List (Event Command Byte)}
    (step : Step line events after) : Run line events after :=
  Run.nil.snoc step

theorem Run.trans {start line after : Line Worker Command Byte}
    {events later : List (Event Command Byte)} (run : Run start events line)
    (continued : Run line later after) : Run start (events ++ later) after := by
  induction continued with
  | nil =>
      simp only [List.append_nil]
      exact run
  | snoc _ step inductionHypothesis =>
      simp only [← List.append_assoc]
      exact inductionHypothesis.snoc step

/-! ## The account of a run -/

section Account

variable (events : List (Event Command Byte))

/-- The commands queued so far. -/
def queued : List Command :=
  events.filterMap fun
    | .queued command => some command
    | _ => none

/-- The commands whose execution has begun. -/
def started : List Command :=
  events.filterMap fun
    | .started command => some command
    | _ => none

/-- The commands executed so far, with their replies. -/
def executed : List (Command × List Byte) :=
  events.filterMap fun
    | .executed command reply => some (command, reply)
    | _ => none

/-- The bytes written so far. -/
def written : List Byte :=
  events.flatMap fun
    | .wrote data => data
    | _ => []

/-- The replies given so far, one after the other. -/
def replies : List Byte :=
  ((executed events).map Prod.snd).flatten

@[simp]
theorem queued_append (later : List (Event Command Byte)) :
    queued (events ++ later) = queued events ++ queued later :=
  List.filterMap_append

@[simp]
theorem started_append (later : List (Event Command Byte)) :
    started (events ++ later) = started events ++ started later :=
  List.filterMap_append

@[simp]
theorem executed_append (later : List (Event Command Byte)) :
    executed (events ++ later) = executed events ++ executed later :=
  List.filterMap_append

@[simp]
theorem written_append (later : List (Event Command Byte)) :
    written (events ++ later) = written events ++ written later :=
  List.flatMap_append

@[simp]
theorem replies_append (later : List (Event Command Byte)) :
    replies (events ++ later) = replies events ++ replies later := by
  simp [replies]

end Account

section Enqueued

variable (commands : List Command)

@[simp]
theorem queued_map_queued :
    queued (commands.map .queued : List (Event Command Byte)) = commands := by
  simp [queued]

@[simp]
theorem started_map_queued : started (commands.map .queued : List (Event Command Byte)) = [] := by
  simp [started]

@[simp]
theorem executed_map_queued :
    executed (commands.map .queued : List (Event Command Byte)) = [] := by
  simp [executed]

@[simp]
theorem written_map_queued : written (commands.map .queued : List (Event Command Byte)) = [] := by
  simp [written]

@[simp]
theorem replies_map_queued : replies (commands.map .queued : List (Event Command Byte)) = [] := by
  simp [replies]

end Enqueued

/-- The commands handed out and not yet executed. -/
def Stage.commands : Stage Worker Command Byte → List Command
  | .waiting command => [command]
  | .executing _ command => [command]
  | _ => []

/-- The commands being executed. -/
def Stage.running : Stage Worker Command Byte → List Command
  | .executing _ command => [command]
  | _ => []

/-- The reply that a worker still holds. -/
def Stage.reply : Stage Worker Command Byte → List Byte
  | .replying _ reply => reply
  | _ => []

/-- Every command and every byte is in one place. -/
structure Accounted (events : List (Event Command Byte)) (line : Line Worker Command Byte) :
    Prop where
  commands : queued events = (executed events).map Prod.fst ++ line.stage.commands ++ line.queue
  starts : started events = (executed events).map Prod.fst ++ line.stage.running
  bytes : replies events = written events ++ line.outgoing ++ line.stage.reply

namespace Accounted

variable {events added : List (Event Command Byte)} {line after : Line Worker Command Byte}

theorem initial : Accounted [] (Line.initial : Line Worker Command Byte) :=
  ⟨rfl, rfl, rfl⟩

/-- What moves within the line without an event is still accounted for. -/
theorem silent (accounted : Accounted events line)
    (commands : after.stage.commands ++ after.queue = line.stage.commands ++ line.queue)
    (running : after.stage.running = line.stage.running)
    (bytes : after.outgoing ++ after.stage.reply = line.outgoing ++ line.stage.reply) :
    Accounted (events ++ []) after := by
  refine ⟨?_, ?_, ?_⟩
  · rw [List.append_nil, List.append_assoc, commands, ← List.append_assoc]
    exact accounted.commands
  · rw [List.append_nil, running]
    exact accounted.starts
  · rw [List.append_nil, List.append_assoc, bytes, ← List.append_assoc]
    exact accounted.bytes

/-- One step keeps the account. -/
theorem step (accounted : Accounted events line) (step : Step line added after) :
    Accounted (events ++ added) after := by
  have commands := accounted.commands
  have starts := accounted.starts
  have bytes := accounted.bytes
  cases step with
  | enqueue more =>
      refine ⟨?_, ?_, ?_⟩
      · simp [commands]
      · simpa using starts
      · simpa using bytes
  | dispatch ready front =>
      apply accounted.silent
      · rw [ready, front]
        rfl
      · rw [ready]
        rfl
      · rw [ready]
        rfl
  | @start worker command waiting =>
      rw [waiting] at commands starts bytes
      have silent : executed ([.started command] : List (Event Command Byte)) = [] := rfl
      refine ⟨?_, ?_, ?_⟩
      · simpa [Stage.commands, queued, executed] using commands
      · simp only [started_append, executed_append, silent, starts, Stage.running,
          List.append_nil]
        rfl
      · simpa [Stage.reply, replies, executed, written] using bytes
  | execute reply executing =>
      rw [executing] at commands starts bytes
      refine ⟨?_, ?_, ?_⟩
      · simpa [Stage.commands, queued, executed] using commands
      · simpa [Stage.running, started, executed] using starts
      · simp only [replies_append, written_append, bytes, Stage.reply, List.append_nil]
        simp [replies, executed, written]
  | send replying =>
      apply accounted.silent
      · rw [replying]
        rfl
      · rw [replying]
        rfl
      · rw [replying]
        exact List.append_nil _
  | notify notifying =>
      apply accounted.silent
      · rw [notifying]
        rfl
      · rw [notifying]
        rfl
      · rw [notifying]
        rfl
  | complete completed =>
      apply accounted.silent
      · rw [completed]
        rfl
      · rw [completed]
        rfl
      · rw [completed]
        rfl
  | write front =>
      rw [front] at bytes
      refine ⟨?_, ?_, ?_⟩
      · simpa [queued, executed] using commands
      · simpa [started, executed] using starts
      · simpa [replies, executed, written] using bytes

theorem run (run : Run Line.initial events line) : Accounted events line := by
  induction run with
  | nil => exact initial
  | snoc _ step inductionHypothesis => exact inductionHypothesis.step step

theorem started_isPrefix (accounted : Accounted events line) :
    started events <+: queued events := by
  have running : line.stage.running <+: line.stage.commands := by
    cases line.stage with
    | executing worker command => exact List.prefix_refl _
    | _ => exact List.nil_prefix
  rw [accounted.starts, accounted.commands, List.append_assoc]
  exact (List.prefix_append_right_inj _).mpr (running.trans (List.prefix_append _ _))

theorem executed_isPrefix (accounted : Accounted events line) :
    (executed events).map Prod.fst <+: started events := by
  rw [accounted.starts]
  exact List.prefix_append _ _

theorem length_started_le (accounted : Accounted events line) :
    (started events).length ≤ (executed events).length + 1 := by
  have running : line.stage.running.length ≤ 1 := by
    cases line.stage with
    | executing worker command => exact Nat.le_refl _
    | _ => exact Nat.zero_le _
  rw [accounted.starts, List.length_append, List.length_map]
  omega

theorem written_isPrefix (accounted : Accounted events line) :
    written events <+: replies events := by
  rw [accounted.bytes, List.append_assoc]
  exact List.prefix_append _ _

end Accounted

end SerialService
