import RedisCpp.Store.KvStore
import RedisCpp.Lib.Linearizability

/-!
# The concurrent machine

Any number of threads run the operations of one store, interleaved at the
granularity of the lock-protected sections.  A thread is described by its program
counter: what it has read so far and which section comes next.  `Move` is one step
of a single thread on the shared store; `Step` adds the clock, the mutation mutex
and the calls and returns.

The clock counts milliseconds since the epoch.  A deadline is a signed sum, which
the language leaves undefined when it overflows, so the machine has a step that
computes one only if it fits.
-/

namespace RedisCpp.Store

/-- Program counters.  The parameters are the locals of the running operation. -/
inductive Pc where
  | idle
  | called (op : Op)
  | setLocked (key value : Bytes)
  | setLogged (key value : Bytes)
  | setExTimed (key value : Bytes) (ttlS now : ℤ)
  | setExLocked (key value : Bytes) (ttlS now : ℤ)
  | setExLogged (key value : Bytes) (ttlS now : ℤ)
  | setExStored (key : Bytes) (expireAtMs : ℤ)
  | delLocked (key : Bytes)
  | delLogged (key : Bytes)
  | expireLocked (key : Bytes) (ttlS : ℤ)
  | expireTimed (key : Bytes) (ttlS now : ℤ)
  | expireAssigned (key : Bytes) (expireAtMs : ℤ)
  | expireLogged (key : Bytes) (expireAtMs : ℤ)
  | persistLocked (key : Bytes)
  | persistCleared (key value : Bytes)
  | getStale (key : Bytes)
  | unlocking (result : Result)
  | returning (result : Result)
deriving DecidableEq, Repr

/-- What a move does with `mutation_mutex_`. -/
inductive LockUse where
  | keep
  | acquire
  | release
deriving DecidableEq, Repr

/-- The signed sum `epoch_ms() + ttl_s * 1000` is defined. -/
def DeadlineDefined (clock ttlS : ℤ) : Prop :=
  InInt64 (ttlS * 1000) ∧ InInt64 (clock + ttlS * 1000)

/-- One step of one thread.  A move at which the operation takes effect carries the
call, stamped with the clock readings it used, and its result. -/
inductive Move (store : KvStore) (clock : ℤ) :
    Pc → KvStore → Pc → LockUse → Option (TimedOp × Result) → Prop where
  | setLock (key value : Bytes) :
      Move store clock (.called (.set key value)) store (.setLocked key value) .acquire none
  | setLog (key value : Bytes) :
      Move store clock (.setLocked key value) (store.addSet.log (.set key value))
        (.setLogged key value) .keep none
  | setStore (key value : Bytes) :
      Move store clock (.setLogged key value) (store.put key { value })
        (.unlocking (.flag true)) .keep (some (⟨.set key value, clock, clock⟩, .flag true))
  | setExRefuse (key value : Bytes) (ttlS : ℤ) (refused : ttlS ≤ 0) :
      Move store clock (.called (.setEx key value ttlS)) store (.returning (.flag false)) .keep
        (some (⟨.setEx key value ttlS, clock, clock⟩, .flag false))
  | setExTime (key value : Bytes) (ttlS : ℤ) (accepted : 0 < ttlS)
      (defined : DeadlineDefined clock ttlS) :
      Move store clock (.called (.setEx key value ttlS)) store
        (.setExTimed key value ttlS clock) .keep none
  | setExLock (key value : Bytes) (ttlS now : ℤ) :
      Move store clock (.setExTimed key value ttlS now) store
        (.setExLocked key value ttlS now) .acquire none
  | setExLog (key value : Bytes) (ttlS now : ℤ) :
      Move store clock (.setExLocked key value ttlS now)
        (store.addSet.log (.setEx key value (KvStore.deadlineAt now ttlS)))
        (.setExLogged key value ttlS now) .keep none
  | setExStore (key value : Bytes) (ttlS now : ℤ) :
      Move store clock (.setExLogged key value ttlS now)
        (store.put key { value, expireAtMs := KvStore.deadlineAt now ttlS })
        (.setExStored key (KvStore.deadlineAt now ttlS)) .keep
        (some (⟨.setEx key value ttlS, now, clock⟩, .flag true))
  | setExSchedule (key : Bytes) (expireAtMs : ℤ) :
      Move store clock (.setExStored key expireAtMs)
        (if 0 < expireAtMs then store.schedule key expireAtMs else store)
        (.unlocking (.flag true)) .keep none
  | delLock (key : Bytes) :
      Move store clock (.called (.del key)) store (.delLocked key) .acquire none
  | delLog (key : Bytes) :
      Move store clock (.delLocked key) (store.addDel.log (.del key)) (.delLogged key) .keep none
  | delErase (key : Bytes) :
      Move store clock (.delLogged key) (store.erase key)
        (.unlocking (.flag (store.find key).isSome)) .keep
        (some (⟨.del key, clock, clock⟩, .flag (store.find key).isSome))
  | expireRefuse (key : Bytes) (ttlS : ℤ) (refused : ttlS ≤ 0) :
      Move store clock (.called (.expire key ttlS)) store (.returning (.flag false)) .keep
        (some (⟨.expire key ttlS, clock, clock⟩, .flag false))
  | expireLock (key : Bytes) (ttlS : ℤ) (accepted : 0 < ttlS) :
      Move store clock (.called (.expire key ttlS)) store (.expireLocked key ttlS) .acquire none
  | expireTime (key : Bytes) (ttlS : ℤ) (defined : DeadlineDefined clock ttlS) :
      Move store clock (.expireLocked key ttlS) store (.expireTimed key ttlS clock) .keep none
  | expireFail (key : Bytes) (ttlS now : ℤ)
      (failed : (store.assignDeadline key (KvStore.deadlineAt now ttlS) clock).1 = false) :
      Move store clock (.expireTimed key ttlS now)
        (store.assignDeadline key (KvStore.deadlineAt now ttlS) clock).2
        (.unlocking (.flag false)) .keep (some (⟨.expire key ttlS, now, clock⟩, .flag false))
  | expireAssign (key : Bytes) (ttlS now : ℤ)
      (succeeded : (store.assignDeadline key (KvStore.deadlineAt now ttlS) clock).1 = true) :
      Move store clock (.expireTimed key ttlS now)
        (store.assignDeadline key (KvStore.deadlineAt now ttlS) clock).2
        (.expireAssigned key (KvStore.deadlineAt now ttlS)) .keep
        (some (⟨.expire key ttlS, now, clock⟩, .flag true))
  | expireLog (key : Bytes) (expireAtMs : ℤ) :
      Move store clock (.expireAssigned key expireAtMs) (store.log (.expire key expireAtMs))
        (.expireLogged key expireAtMs) .keep none
  | expireSchedule (key : Bytes) (expireAtMs : ℤ) :
      Move store clock (.expireLogged key expireAtMs) (store.schedule key expireAtMs)
        (.unlocking (.flag true)) .keep none
  | persistLock (key : Bytes) :
      Move store clock (.called (.persist key)) store (.persistLocked key) .acquire none
  | persistFail (key : Bytes) (failed : (store.clearDeadline key clock).1 = none) :
      Move store clock (.persistLocked key) (store.clearDeadline key clock).2
        (.unlocking (.flag false)) .keep (some (⟨.persist key, clock, clock⟩, .flag false))
  | persistClear (key value : Bytes) (cleared : (store.clearDeadline key clock).1 = some value) :
      Move store clock (.persistLocked key) (store.clearDeadline key clock).2
        (.persistCleared key value) .keep (some (⟨.persist key, clock, clock⟩, .flag true))
  | persistLog (key value : Bytes) :
      Move store clock (.persistCleared key value) (store.log (.set key value))
        (.unlocking (.flag true)) .keep none
  | getMissing (key : Bytes) (missing : store.getShared key clock = .missing) :
      Move store clock (.called (.get key)) store.addGet (.returning (.value none)) .keep
        (some (⟨.get key, clock, clock⟩, .value none))
  | getHit (key value : Bytes) (hit : store.getShared key clock = .hit value) :
      Move store clock (.called (.get key)) store.addGet (.returning (.value (some value))) .keep
        (some (⟨.get key, clock, clock⟩, .value (some value)))
  | getStale (key : Bytes) (stale : store.getShared key clock = .stale) :
      Move store clock (.called (.get key)) store.addGet (.getStale key) .keep
        (some (⟨.get key, clock, clock⟩, .value none))
  | getReap (key : Bytes) :
      Move store clock (.getStale key) (store.reap key clock) (.returning (.value none)) .keep none
  | ttl (key : Bytes) :
      Move store clock (.called (.ttl key)) store (.returning (.seconds (store.ttl key clock)))
        .keep (some (⟨.ttl key, clock, clock⟩, .seconds (store.ttl key clock)))
  | onTtlExpired (key : Bytes) :
      Move store clock (.called (.onTtlExpired key)) (store.onTtlExpired key clock)
        (.returning .void) .keep (some (⟨.onTtlExpired key, clock, clock⟩, .void))
  | unlock (result : Result) :
      Move store clock (.unlocking result) store (.returning result) .release none

/-- The operations that client threads and the TTL thread run. -/
def Op.Served : Op → Prop
  | .setAbsolute _ _ _ | .expireAt _ _ | .count => False
  | _ => True

/-- The threads are named by an arbitrary type.  Every call gets a fresh number;
`current` holds the number of the call a thread is running. -/
structure System (Tid : Type) where
  store : KvStore
  clock : ℕ
  mutex : Option Tid
  threads : Tid → Pc
  nextId : ℕ
  current : Tid → ℕ

/-- The events of a run.  Calls and returns are stamped with the clock. -/
abbrev Event := Linearizability.Event (Op × ℤ) TimedOp (Result × ℤ) Result

namespace System

variable {Tid : Type}

/-- A store before its first operation, with all threads idle. -/
def initial {nShards : ℕ} (powerOfTwo : nShards.isPowerOfTwo) (aof : Option AofWriter)
    (enableTtl : Bool) (clock : ℕ) : System Tid where
  store := KvStore.empty powerOfTwo aof enableTtl
  clock := clock
  mutex := none
  threads := fun _ => .idle
  nextId := 0
  current := fun _ => 0

end System

/-- The mutex after a move of a thread. -/
def LockUse.after {Tid : Type} (tid : Tid) (mutex : Option Tid) : LockUse → Option Tid
  | .keep => mutex
  | .acquire => some tid
  | .release => none

/-- One step of the system, with the events it contributes to the run. -/
inductive Step {Tid : Type} [DecidableEq Tid] (system : System Tid) :
    List Event → System Tid → Prop where
  | tick (elapsed : ℕ) : Step system [] { system with clock := system.clock + elapsed }
  | call (tid : Tid) (op : Op) (served : op.Served) (idle : system.threads tid = .idle) :
      Step system [.call system.nextId (op, system.clock)]
        { system with
          threads := Function.update system.threads tid (.called op)
          nextId := system.nextId + 1
          current := Function.update system.current tid system.nextId }
  | advance (tid : Tid) {store : KvStore} {pc : Pc} {use : LockUse}
      {effect : Option (TimedOp × Result)}
      (move : Move system.store system.clock (system.threads tid) store pc use effect)
      (available : use = .acquire → system.mutex = none) :
      Step system
        (effect.map fun point => .commit (system.current tid) point.1 point.2).toList
        { system with
          store := store
          mutex := use.after tid system.mutex
          threads := Function.update system.threads tid pc }
  | ret (tid : Tid) (result : Result) (returning : system.threads tid = .returning result) :
      Step system [.ret (system.current tid) (result, system.clock)]
        { system with threads := Function.update system.threads tid .idle }

/-- The runs from a given system, with their events. -/
inductive Run {Tid : Type} [DecidableEq Tid] (start : System Tid) :
    List Event → System Tid → Prop where
  | nil : Run start [] start
  | snoc {events added : List Event} {system after : System Tid}
      (run : Run start events system) (step : Step system added after) :
      Run start (events ++ added) after

end RedisCpp.Store
