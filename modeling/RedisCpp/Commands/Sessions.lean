import RedisCpp.Commands.CommandDispatcher
import RedisCpp.Lib.Transition
import RedisCpp.Store.Linearizable

/-!
# Commands on several keys

`DEL` calls the store once for every key and `DBSIZE` counts one shard after the other, each
time under a lock of its own.  Here any number of clients run such commands and operations
on single keys on one store, interleaved section by section.

What is observed of a client is a sequence of commands, each put together from parts: one
call of the store for an operation on a single key, one for every key of a `DEL`, and one
count for every shard of a `DBSIZE`.
-/

namespace RedisCpp.Store.System

variable {Tid : Type} [DecidableEq Tid]

/-- A thread calls an operation. -/
def enter (system : System Tid) (tid : Tid) (op : Op) : System Tid :=
  { system with
    threads := Function.update system.threads tid (.called op)
    nextId := system.nextId + 1
    current := Function.update system.current tid system.nextId }

/-- A thread executes a section. -/
def proceed (system : System Tid) (tid : Tid) (store : KvStore) (pc : Pc) (use : LockUse) :
    System Tid :=
  { system with
    store := store
    mutex := use.after tid system.mutex
    threads := Function.update system.threads tid pc }

/-- A thread returns from an operation. -/
def leave (system : System Tid) (tid : Tid) : System Tid :=
  { system with threads := Function.update system.threads tid .idle }

variable (system : System Tid) (tid : Tid) {store after : KvStore} {pc next : Pc} {use : LockUse}

@[simp]
theorem threads_enter (op : Op) : (system.enter tid op).threads tid = .called op :=
  Function.update_self _ _ _

@[simp]
theorem threads_proceed : (system.proceed tid store pc use).threads tid = pc :=
  Function.update_self _ _ _

/-- Of the sections of a thread that ends by releasing the mutex only the last one shows. -/
theorem proceed_release :
    (system.proceed tid store pc use).proceed tid after next .release =
      system.proceed tid after next .release := by
  simp only [proceed, Function.update_idem]
  rfl

end RedisCpp.Store.System

namespace RedisCpp.Commands

open Protocol Store

/-- What a client asks for: an operation on a single key, `DEL` or `DBSIZE`. -/
inductive Action where
  | single (op : Op)
  | del (keys : List Bytes)
  | dbSize
deriving DecidableEq, Repr

/-- What a client is told. -/
inductive Answer where
  | result (result : Result)
  | deleted (count : ℤ)
  | size (count : ℕ)
deriving DecidableEq, Repr

/-- A whole command executed by itself. -/
def Action.execute (store : KvStore) (now later : ℤ) : Action → Answer × KvStore
  | .single op => Prod.map .result id (store.exec ⟨op, now, later⟩)
  | .del keys => Prod.map .deleted id (deleteAll store keys)
  | .dbSize => (.size (store.count now), store)

/-- The answers, listed for each client in its own order, are those of a serial execution of
whole commands. -/
inductive Serial {Tid : Type} [DecidableEq Tid] :
    KvStore → (Tid → List (Action × Answer)) → Prop where
  | nil {store : KvStore} {answers : Tid → List (Action × Answer)}
      (done : ∀ tid, answers tid = []) : Serial store answers
  | cons {store : KvStore} {answers : Tid → List (Action × Answer)} (tid : Tid) (now later : ℤ)
      {action : Action} {answer : Answer} {rest : List (Action × Answer)}
      (front : answers tid = (action, answer) :: rest)
      (same : (action.execute store now later).1 = answer)
      (continued : Serial (action.execute store now later).2 (Function.update answers tid rest)) :
      Serial store answers

/-! ## The machine -/

/-- Where a client is.  During a `DEL`, `deleting` is between two calls of the store, with the
number of keys deleted so far and the keys left; `erasing` is inside the call for a key. -/
inductive Client where
  | ready
  | single (op : Op)
  | deleting (keys : List Bytes) (deleted : ℤ) (left : List Bytes)
  | erasing (keys : List Bytes) (deleted : ℤ) (key : Bytes) (left : List Bytes)
  | counting (now : ℤ) (total : ℕ) (index : ℕ)
deriving DecidableEq, Repr

/-- The clients and the store with their threads. -/
structure Sessions (Tid : Type) where
  system : System Tid
  clients : Tid → Client

/-- A part of a command: an operation of the store, or the count of one shard with the clock
reading of the command, the clock at the section and the number of keys. -/
inductive Part where
  | op (call : TimedOp) (result : Result)
  | shard (index : ℕ) (now clock : ℤ) (count : ℕ)
deriving DecidableEq, Repr

/-- What happens to a client. -/
inductive Observation where
  | started (action : Action)
  | part (part : Part)
  | answered (action : Action) (answer : Answer)
deriving DecidableEq, Repr

namespace Sessions

variable {Tid : Type}

/-- A store before its first operation, with all clients ready. -/
def initial {nShards : ℕ} (powerOfTwo : nShards.isPowerOfTwo) (aof : Option AofWriter)
    (enableTtl : Bool) (clock : ℕ) : Sessions Tid where
  system := .initial powerOfTwo aof enableTtl clock
  clients := fun _ => .ready

def setClient [DecidableEq Tid] (sessions : Sessions Tid) (tid : Tid) (system : System Tid)
    (client : Client) : Sessions Tid where
  system := system
  clients := Function.update sessions.clients tid client

end Sessions

/-- One step of the clock or of a client. -/
inductive SessionStep {Tid : Type} [DecidableEq Tid] (sessions : Sessions Tid) :
    Option (Tid × Observation) → Sessions Tid → Prop where
  | tick (elapsed : ℕ) :
      SessionStep sessions none
        { sessions with
          system := { sessions.system with clock := sessions.system.clock + elapsed } }
  | advance (tid : Tid) {store : KvStore} {pc : Pc} {use : LockUse}
      {effect : Option (TimedOp × Result)}
      (move : Move sessions.system.store sessions.system.clock (sessions.system.threads tid)
        store pc use effect)
      (available : use = .acquire → sessions.system.mutex = none) :
      SessionStep sessions (effect.map fun point => (tid, .part (.op point.1 point.2)))
        { sessions with system := sessions.system.proceed tid store pc use }
  -- an operation on a single key
  | call (tid : Tid) (op : Op) (served : op.Served) (ready : sessions.clients tid = .ready)
      (idle : sessions.system.threads tid = .idle) :
      SessionStep sessions (some (tid, .started (.single op)))
        (sessions.setClient tid (sessions.system.enter tid op) (.single op))
  | ret (tid : Tid) {op : Op} {result : Result} (called : sessions.clients tid = .single op)
      (returning : sessions.system.threads tid = .returning result) :
      SessionStep sessions (some (tid, .answered (.single op) (.result result)))
        (sessions.setClient tid (sessions.system.leave tid) .ready)
  -- `DEL`
  | delStart (tid : Tid) (keys : List Bytes) (ready : sessions.clients tid = .ready) :
      SessionStep sessions (some (tid, .started (.del keys)))
        (sessions.setClient tid sessions.system (.deleting keys 0 keys))
  | delCall (tid : Tid) {keys : List Bytes} {deleted : ℤ} {key : Bytes} {left : List Bytes}
      (deleting : sessions.clients tid = .deleting keys deleted (key :: left))
      (idle : sessions.system.threads tid = .idle) :
      SessionStep sessions none
        (sessions.setClient tid (sessions.system.enter tid (.del key))
          (.erasing keys deleted key left))
  | delReturn (tid : Tid) {keys : List Bytes} {deleted : ℤ} {key : Bytes} {left : List Bytes}
      {success : Bool} (erasing : sessions.clients tid = .erasing keys deleted key left)
      (returning : sessions.system.threads tid = .returning (.flag success)) :
      SessionStep sessions none
        (sessions.setClient tid (sessions.system.leave tid)
          (.deleting keys (if success then deleted + 1 else deleted) left))
  | delAnswer (tid : Tid) {keys : List Bytes} {deleted : ℤ}
      (deleting : sessions.clients tid = .deleting keys deleted []) :
      SessionStep sessions (some (tid, .answered (.del keys) (.deleted deleted)))
        (sessions.setClient tid sessions.system .ready)
  -- `DBSIZE`
  | sizeStart (tid : Tid) (ready : sessions.clients tid = .ready) :
      SessionStep sessions (some (tid, .started .dbSize))
        (sessions.setClient tid sessions.system (.counting sessions.system.clock 0 0))
  | sizeShard (tid : Tid) {now : ℤ} {total : ℕ} (index : Fin sessions.system.store.nShards)
      (counting : sessions.clients tid = .counting now total index) :
      SessionStep sessions
        (some (tid, .part (.shard index now sessions.system.clock
          (KvStore.liveCount (sessions.system.store.shards index) now))))
        (sessions.setClient tid sessions.system
          (.counting now
            (total + KvStore.liveCount (sessions.system.store.shards index) now) (index + 1)))
  | sizeAnswer (tid : Tid) {now : ℤ} {total : ℕ}
      (counting : sessions.clients tid = .counting now total sessions.system.store.nShards) :
      SessionStep sessions (some (tid, .answered .dbSize (.size total)))
        (sessions.setClient tid sessions.system .ready)

/-- The runs of the clients on a store. -/
abbrev SessionRun {Tid : Type} [DecidableEq Tid] {nShards : ℕ}
    (powerOfTwo : nShards.isPowerOfTwo) (aof : Option AofWriter) (enableTtl : Bool) (clock : ℕ) :=
  Transition.Run (@SessionStep Tid _) (.initial powerOfTwo aof enableTtl clock)

/-! ## The parts of the commands of one client -/

/-- The beginning of a `DEL`: the calls so far, each with its key and whether it succeeded. -/
def delFront (keys : List Bytes) (calls : List (TimedOp × Bool)) : List Observation :=
  .started (.del keys) :: calls.map fun call => .part (.op call.1 (.flag call.2))

/-- The beginning of a `DBSIZE`: the counts so far, each with the clock at its section. -/
def sizeFront (now : ℤ) (counts : List (ℤ × ℕ)) : List Observation :=
  .started .dbSize :: counts.zipIdx.map fun count => .part (.shard count.2 now count.1.1 count.1.2)

/-- The observations of a command that has been answered.  An operation on a single key has
one part.  A `DEL` has one part for each key, in order, and its answer is the number of parts
that found theirs.  A `DBSIZE` has one part for each shard, in order, all with the reading at
its start, and its answer is the sum. -/
inductive Whole (nShards : ℕ) : List Observation → Prop where
  | single (call : TimedOp) (result : Result) :
      Whole nShards [.started (.single call.op), .part (.op call result),
        .answered (.single call.op) (.result result)]
  | del {keys : List Bytes} {calls : List (TimedOp × Bool)}
      (own : calls.map (fun call => call.1.op) = keys.map .del) :
      Whole nShards (delFront keys calls ++
        [.answered (.del keys) (.deleted (calls.countP fun call => call.2))])
  | dbSize (now : ℤ) {counts : List (ℤ × ℕ)} (all : counts.length = nShards) :
      Whole nShards (sizeFront now counts ++
        [.answered .dbSize (.size (counts.map Prod.snd).sum)])

/-- A call of the store, with what has been observed before it: it has yet to take effect, or
it has taken effect and its result is on its way back. -/
def Calling (pc : Pc) (op : Op) (front tail : List Observation) : Prop :=
  (∃ reading, pc.running = some (op, reading) ∧ tail = front) ∨
    ∃ call result, pc.outcome = some result ∧ call.op = op ∧
      tail = front ++ [.part (.op call result)]

/-- The observations of a command that is under way. -/
inductive Underway : Client → Pc → List Observation → Prop where
  | ready : Underway .ready .idle []
  | single {op : Op} {pc : Pc} {tail : List Observation}
      (calling : Calling pc op [.started (.single op)] tail) : Underway (.single op) pc tail
  | deleting {keys left : List Bytes} {calls : List (TimedOp × Bool)}
      (own : calls.map (fun call => call.1.op) ++ left.map .del = keys.map .del) :
      Underway (.deleting keys (calls.countP fun call => call.2) left) .idle (delFront keys calls)
  | erasing {keys left : List Bytes} {key : Bytes} {calls : List (TimedOp × Bool)} {pc : Pc}
      {tail : List Observation}
      (own : calls.map (fun call => call.1.op) ++ (key :: left).map .del = keys.map .del)
      (calling : Calling pc (.del key) (delFront keys calls) tail) :
      Underway (.erasing keys (calls.countP fun call => call.2) key left) pc tail
  | counting {now : ℤ} {counts : List (ℤ × ℕ)} :
      Underway (.counting now (counts.map Prod.snd).sum counts.length) .idle (sizeFront now counts)

/-- What has been observed of a client: answered commands, and one that is under way. -/
def Progress (nShards : ℕ) (client : Client) (pc : Pc) (own : List Observation) : Prop :=
  ∃ (wholes : List (List Observation)) (tail : List Observation),
    own = wholes.flatten ++ tail ∧ (∀ whole ∈ wholes, Whole nShards whole) ∧
      Underway client pc tail

namespace Calling

variable {pc next : Pc} {op : Op} {front tail : List Observation}

theorem outcome_of_running {reading : Op × Option ℤ} (running : pc.running = some reading) :
    pc.outcome = none := by
  cases pc with
  | called | setLocked | setLogged | setExTimed | setExLocked | setExLogged | delLocked
  | delLogged | expireLocked | expireTimed | persistLocked => rfl
  | idle | setExStored | expireAssigned | expireLogged | persistCleared | getStale | unlocking
  | returning => cases running

theorem start (op : Op) (front : List Observation) : Calling (.called op) op front front :=
  Or.inl ⟨none, rfl, rfl⟩

theorem advance (calling : Calling pc op front tail) {store after : KvStore} {clock : ℤ}
    {use : LockUse} {effect : Option (TimedOp × Result)}
    (move : Move store clock pc after next use effect) :
    Calling next op front (tail ++ (effect.map fun point =>
      Observation.part (.op point.1 point.2)).toList) := by
  rcases calling with ⟨reading, running, rfl⟩ | ⟨call, result, outcome, own, rfl⟩
  · rcases move.phases with ⟨rfl, later, _, reached, before, after, -⟩ |
        ⟨later, _, result, before, rfl, after, -⟩ | ⟨-, result, before, -⟩
    · rw [running] at before
      cases before
      exact Or.inl ⟨reached, after, List.append_nil _⟩
    · rw [running] at before
      cases before
      exact Or.inr ⟨_, result, after, rfl, rfl⟩
    · rw [outcome_of_running running] at before
      cases before
  · rcases move.phases with ⟨-, _, _, _, before, -⟩ | ⟨_, _, _, before, -⟩ |
        ⟨rfl, delivered, before, after, -⟩
    · rw [outcome_of_running before] at outcome
      cases outcome
    · rw [outcome_of_running before] at outcome
      cases outcome
    · rw [outcome] at before
      cases before
      exact Or.inr ⟨call, result, after, own, List.append_nil _⟩

theorem returned {result : Result} (calling : Calling (.returning result) op front tail) :
    ∃ call : TimedOp, call.op = op ∧ tail = front ++ [.part (.op call result)] := by
  rcases calling with ⟨_, running, -⟩ | ⟨call, delivered, outcome, own, shape⟩
  · cases running
  · cases outcome
    exact ⟨call, own, shape⟩

end Calling

namespace Progress

variable {nShards : ℕ} {client next : Client} {pc reached : Pc} {own : List Observation}

theorem extend (progress : Progress nShards client pc own) {added : List Observation}
    (step : ∀ tail, Underway client pc tail → Underway next reached (tail ++ added)) :
    Progress nShards next reached (own ++ added) := by
  rcases progress with ⟨wholes, tail, rfl, each, underway⟩
  exact ⟨wholes, tail ++ added, List.append_assoc _ _ _, each, step tail underway⟩

theorem answer (progress : Progress nShards client pc own) {last : Observation}
    (idle : ∀ tail, Underway client pc tail → reached = .idle)
    (step : ∀ tail, Underway client pc tail → Whole nShards (tail ++ [last])) :
    Progress nShards .ready reached (own ++ [last]) := by
  rcases progress with ⟨wholes, tail, rfl, each, underway⟩
  rw [idle tail underway]
  refine ⟨wholes ++ [tail ++ [last]], [], ?_, ?_, .ready⟩
  · simp
  · intro whole listed
    rcases List.mem_append.mp listed with earlier | newest
    · exact each whole earlier
    · rw [List.mem_singleton.mp newest]
      exact step tail underway

end Progress

namespace Underway

variable {nShards : ℕ} {client : Client} {pc next : Pc} {tail : List Observation}

theorem advance (underway : Underway client pc tail) {store after : KvStore} {clock : ℤ}
    {use : LockUse} {effect : Option (TimedOp × Result)}
    (move : Move store clock pc after next use effect) :
    Underway client next (tail ++ (effect.map fun point =>
      Observation.part (.op point.1 point.2)).toList) := by
  cases underway with
  | ready | deleting | counting => cases move
  | single calling => exact .single (calling.advance move)
  | erasing own calling => exact .erasing own (calling.advance move)

theorem call (underway : Underway .ready pc tail) (op : Op) :
    Underway (.single op) (.called op) (tail ++ [.started (.single op)]) := by
  cases underway with
  | ready => exact .single (Calling.start op _)

theorem ret {op : Op} {result : Result}
    (underway : Underway (.single op) (.returning result) tail) :
    Whole nShards (tail ++ [.answered (.single op) (.result result)]) := by
  cases underway with
  | single calling =>
      rcases calling.returned with ⟨call, rfl, rfl⟩
      exact .single call result

theorem delStart (underway : Underway .ready pc tail) (keys : List Bytes) :
    Underway (.deleting keys 0 keys) pc (tail ++ [.started (.del keys)]) := by
  cases underway with
  | ready => exact @deleting keys keys [] rfl

theorem delCall {keys left : List Bytes} {deleted : ℤ} {key : Bytes}
    (underway : Underway (.deleting keys deleted (key :: left)) pc tail) :
    Underway (.erasing keys deleted key left) (.called (.del key)) tail := by
  cases underway with
  | deleting own => exact .erasing own (Calling.start _ _)

theorem delReturn {keys left : List Bytes} {deleted : ℤ} {key : Bytes} {success : Bool}
    (underway : Underway (.erasing keys deleted key left) (.returning (.flag success)) tail) :
    Underway (.deleting keys (if success then deleted + 1 else deleted) left) .idle tail := by
  cases underway with
  | @erasing _ _ _ calls _ _ own calling =>
      rcases calling.returned with ⟨call, same, rfl⟩
      have shape : delFront keys (calls ++ [(call, success)]) =
          delFront keys calls ++ [.part (.op call (.flag success))] := by
        simp [delFront]
      have count : (if success then (calls.countP fun call => call.2 : ℤ) + 1
          else (calls.countP fun call => call.2 : ℤ)) =
          ((calls ++ [(call, success)]).countP fun call => call.2 : ℕ) := by
        cases success with
        | false => simp
        | true => simp
      rw [← shape, count]
      apply deleting
      simpa [same] using own

theorem idle_of_deleting {keys left : List Bytes} {deleted : ℤ}
    (underway : Underway (.deleting keys deleted left) pc tail) : pc = .idle := by
  cases underway with
  | deleting => rfl

theorem idle_of_counting {now : ℤ} {total index : ℕ}
    (underway : Underway (.counting now total index) pc tail) : pc = .idle := by
  cases underway with
  | counting => rfl

theorem delAnswer {keys : List Bytes} {deleted : ℤ}
    (underway : Underway (.deleting keys deleted []) pc tail) :
    Whole nShards (tail ++ [.answered (.del keys) (.deleted deleted)]) := by
  cases underway with
  | deleting own => exact .del (by simpa using own)

theorem sizeStart (underway : Underway .ready pc tail) (now : ℤ) :
    Underway (.counting now 0 0) pc (tail ++ [.started .dbSize]) := by
  cases underway with
  | ready => exact @counting now []

theorem sizeShard {now : ℤ} {total index : ℕ}
    (underway : Underway (.counting now total index) pc tail) (clock : ℤ) (count : ℕ) :
    Underway (.counting now (total + count) (index + 1)) pc
      (tail ++ [.part (.shard index now clock count)]) := by
  cases underway with
  | @counting _ counts =>
      have shape : sizeFront now (counts ++ [(clock, count)]) =
          sizeFront now counts ++ [.part (.shard counts.length now clock count)] := by
        simp [sizeFront, List.zipIdx_append]
      have added := @counting now (counts ++ [(clock, count)])
      rw [shape] at added
      simpa using added

theorem sizeAnswer {now : ℤ} {total : ℕ}
    (underway : Underway (.counting now total nShards) pc tail) :
    Whole nShards (tail ++ [.answered .dbSize (.size total)]) := by
  cases underway with
  | counting => exact .dbSize now rfl

/-- A command that is under way has not been answered. -/
theorem unanswered (underway : Underway client pc tail) (action : Action) (answer : Answer) :
    .answered action answer ∉ tail := by
  have calling : ∀ {op : Op} {front tail : List Observation}, Calling pc op front tail →
      .answered action answer ∉ front → .answered action answer ∉ tail := by
    rintro op front tail (⟨-, -, rfl⟩ | ⟨call, result, -, -, rfl⟩) before
    · exact before
    · simpa using before
  cases underway with
  | ready => simp
  | single called => exact calling called (by simp)
  | deleting own => simp [delFront]
  | erasing own called => exact calling called (by simp [delFront])
  | counting => simp [sizeFront]

end Underway

/-! ### Steps -/

section Steps

variable {Tid : Type} [DecidableEq Tid] {nShards : ℕ}

/-- What has been observed of one client. -/
def observationsOf (tid : Tid) (moves : List (Transition.Move (Sessions Tid)
    (Option (Tid × Observation)))) : List Observation :=
  moves.filterMap fun move => move.label.bind fun observed =>
    if observed.1 = tid then some observed.2 else none

theorem observationsOf_snoc (tid : Tid) (moves : List (Transition.Move (Sessions Tid)
    (Option (Tid × Observation)))) (move : Transition.Move (Sessions Tid)
    (Option (Tid × Observation))) :
    observationsOf tid (moves ++ [move]) = observationsOf tid moves ++
      (move.label.bind fun observed =>
        if observed.1 = tid then some observed.2 else none).toList := by
  simp only [observationsOf, List.filterMap_append]
  congr 1

variable {moves : List (Transition.Move (Sessions Tid) (Option (Tid × Observation)))}
  {sessions after : Sessions Tid} {label : Option (Tid × Observation)} {tid : Tid}

/-- A step of one client, whose observations it continues. -/
structure Acts (nShards : ℕ) (sessions after : Sessions Tid) (label : Option (Tid × Observation))
    (tid : Tid) : Prop where
  own : ∀ observed, label = some observed → observed.1 = tid
  clients : ∀ other, other ≠ tid → after.clients other = sessions.clients other
  threads : ∀ other, other ≠ tid → after.system.threads other = sessions.system.threads other
  progress : ∀ seen, Progress nShards (sessions.clients tid) (sessions.system.threads tid) seen →
    Progress nShards (after.clients tid) (after.system.threads tid)
      (seen ++ (label.map Prod.snd).toList)

/-- A step that takes the client to another place of its command. -/
theorem Acts.of_client {system : System Tid} {client : Client} {pc : Pc}
    (own : ∀ observed, label = some observed → observed.1 = tid)
    (threads : system.threads = Function.update sessions.system.threads tid pc)
    (progress : ∀ seen, Progress nShards (sessions.clients tid) (sessions.system.threads tid) seen →
      Progress nShards client pc (seen ++ (label.map Prod.snd).toList)) :
    Acts nShards sessions (sessions.setClient tid system client) label tid := by
  refine ⟨own, ?_, ?_, ?_⟩
  · intro other different
    exact Function.update_of_ne different _ _
  · intro other different
    simp only [Sessions.setClient, threads]
    exact Function.update_of_ne different _ _
  · intro seen before
    have after := progress seen before
    simpa [Sessions.setClient, threads] using after

/-- A step inside the command, without a section of the store. -/
theorem Acts.of_place {client : Client}
    (own : ∀ observed, label = some observed → observed.1 = tid)
    (progress : ∀ tail, Underway (sessions.clients tid) (sessions.system.threads tid) tail →
      Underway client (sessions.system.threads tid) (tail ++ (label.map Prod.snd).toList)) :
    Acts nShards sessions (sessions.setClient tid sessions.system client) label tid := by
  apply Acts.of_client own (Function.update_eq_self tid _).symm
  intro seen before
  exact before.extend progress

/-- The last step of a command. -/
theorem Acts.of_answer {system : System Tid} {observation : Observation} {pc : Pc}
    (threads : system.threads = Function.update sessions.system.threads tid pc)
    (idle : ∀ tail, Underway (sessions.clients tid) (sessions.system.threads tid) tail →
      pc = .idle)
    (whole : ∀ tail, Underway (sessions.clients tid) (sessions.system.threads tid) tail →
      Whole nShards (tail ++ [observation])) :
    Acts nShards sessions (sessions.setClient tid system .ready) (some (tid, observation)) tid := by
  apply Acts.of_client _ threads
  · intro seen before
    exact before.answer idle whole
  · rintro _ ⟨⟩
    rfl

theorem SessionStep.acts (step : SessionStep sessions label after)
    (shards : sessions.system.store.nShards = nShards) :
    (label = none ∧ after.clients = sessions.clients ∧
        after.system.threads = sessions.system.threads) ∨
      ∃ tid, Acts nShards sessions after label tid := by
  cases step with
  | tick elapsed => exact Or.inl ⟨rfl, rfl, rfl⟩
  | @advance tid _ _ _ effect move available =>
      refine Or.inr ⟨tid, ?_, ?_, ?_, ?_⟩
      · intro observed labelled
        simp only [Option.map_eq_some_iff] at labelled
        rcases labelled with ⟨_, -, rfl⟩
        rfl
      · intro other different
        rfl
      · intro other different
        exact Function.update_of_ne different _ _
      · intro seen before
        have later := before.extend fun tail underway => underway.advance move
        simpa [System.proceed, Function.comp_def] using later
  | call tid op served ready idle =>
      refine Or.inr ⟨tid, Acts.of_client (by simp) rfl ?_⟩
      rw [ready]
      intro seen before
      exact before.extend fun tail underway => underway.call op
  | ret tid called returning =>
      refine Or.inr ⟨tid, Acts.of_answer rfl (fun _ _ => rfl) ?_⟩
      rw [called, returning]
      exact fun tail underway => underway.ret
  | delStart tid keys ready =>
      refine Or.inr ⟨tid, Acts.of_place (by simp) ?_⟩
      rw [ready]
      exact fun tail underway => underway.delStart keys
  | delCall tid deleting idle =>
      refine Or.inr ⟨tid, Acts.of_client (by simp) rfl ?_⟩
      rw [deleting]
      intro seen before
      apply before.extend
      intro tail underway
      simp only [Option.map_none, Option.toList_none, List.append_nil]
      exact underway.delCall
  | delReturn tid erasing returning =>
      refine Or.inr ⟨tid, Acts.of_client (by simp) rfl ?_⟩
      rw [erasing, returning]
      intro seen before
      apply before.extend
      intro tail underway
      simp only [Option.map_none, Option.toList_none, List.append_nil]
      exact underway.delReturn
  | delAnswer tid deleting =>
      refine Or.inr ⟨tid, Acts.of_answer (Function.update_eq_self tid _).symm ?_ ?_⟩
      · rw [deleting]
        exact fun tail underway => underway.idle_of_deleting
      · rw [deleting]
        exact fun tail underway => underway.delAnswer
  | sizeStart tid ready =>
      refine Or.inr ⟨tid, Acts.of_place (by simp) ?_⟩
      rw [ready]
      exact fun tail underway => underway.sizeStart _
  | sizeShard tid index counting =>
      refine Or.inr ⟨tid, Acts.of_place (by simp) ?_⟩
      rw [counting]
      exact fun tail underway => underway.sizeShard _ _
  | sizeAnswer tid counting =>
      rw [shards] at counting
      refine Or.inr ⟨tid, Acts.of_answer (Function.update_eq_self tid _).symm ?_ ?_⟩
      · rw [counting]
        exact fun tail underway => underway.idle_of_counting
      · rw [counting]
        exact fun tail underway => underway.sizeAnswer

/-- A command ends with the return of its call, behind the last of its keys, or behind the last
shard. -/
theorem SessionStep.answered_cases {tid : Tid} {action : Action} {answer : Answer}
    (step : SessionStep sessions (some (tid, .answered action answer)) after) :
    (∃ op result, action = .single op ∧ answer = .result result ∧
        sessions.clients tid = .single op ∧ sessions.system.threads tid = .returning result ∧
        after = sessions.setClient tid (sessions.system.leave tid) .ready) ∨
      (∃ keys deleted, action = .del keys ∧ answer = .deleted deleted ∧
        sessions.clients tid = .deleting keys deleted [] ∧
        after = sessions.setClient tid sessions.system .ready) ∨
      ∃ now total, action = .dbSize ∧ answer = .size total ∧
        sessions.clients tid = .counting now total sessions.system.store.nShards ∧
        after = sessions.setClient tid sessions.system .ready := by
  generalize shown : some (tid, Observation.answered action answer) = label at step
  cases step with
  | tick | delCall | delReturn => cases shown
  | call | delStart | sizeStart | sizeShard => cases shown
  | advance _ _ _ =>
      rcases Option.map_eq_some_iff.mp shown.symm with ⟨point, -, same⟩
      cases same
  | ret _ called returning =>
      cases shown
      exact Or.inl ⟨_, _, rfl, rfl, called, returning, rfl⟩
  | delAnswer _ deleting =>
      cases shown
      exact Or.inr (Or.inl ⟨_, _, rfl, rfl, deleting, rfl⟩)
  | sizeAnswer _ counting =>
      cases shown
      exact Or.inr (Or.inr ⟨_, _, rfl, rfl, counting, rfl⟩)

/-- The observations of every client are continued. -/
theorem SessionStep.progress (step : SessionStep sessions label after)
    (shards : sessions.system.store.nShards = nShards)
    (progress : ∀ tid, Progress nShards (sessions.clients tid) (sessions.system.threads tid)
      (observationsOf tid moves)) (tid : Tid) :
    Progress nShards (after.clients tid) (after.system.threads tid)
      (observationsOf tid (moves ++ [⟨sessions, label, after⟩])) := by
  rw [observationsOf_snoc]
  rcases step.acts shards with ⟨rfl, clients, threads⟩ | ⟨actor, acts⟩
  · rw [clients, threads]
    simpa using progress tid
  · cases label with
    | none =>
        rcases eq_or_ne tid actor with rfl | different
        · exact acts.progress _ (progress tid)
        · rw [acts.clients tid different, acts.threads tid different]
          simpa using progress tid
    | some observed =>
        have owner := acts.own observed rfl
        rcases eq_or_ne tid actor with rfl | different
        · simpa [owner] using acts.progress _ (progress tid)
        · rw [acts.clients tid different, acts.threads tid different]
          have elsewhere : observed.1 ≠ tid := by
            rw [owner]
            exact different.symm
          simpa [elsewhere] using progress tid

end Steps

end RedisCpp.Commands
