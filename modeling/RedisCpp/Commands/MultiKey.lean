import RedisCpp.Commands.BackgroundExpiry
import RedisCpp.Commands.Sessions

/-!
# What commands on several keys promise

The parts of the commands of all clients, in the order in which they take effect, are a
serial execution on the reference map.  A count of one shard is not exact when deadlines
pass between the clock reading of the `DBSIZE` and the count: entries that expire in between
may or may not have been removed.  Together with the shape of an answered command this is
what several clients can rely on.  They cannot rely on more: two runs have answers that no
serial execution of whole commands gives.
-/

namespace RedisCpp.Store

/-- Every section keeps the number of shards. -/
theorem Move.nShards_eq {store after : KvStore} {clock : ℤ} {pc next : Pc} {use : LockUse}
    {effect : Option (TimedOp × Result)} (move : Move store clock pc after next use effect) :
    after.nShards = store.nShards := by
  have reaped : ∀ key, (store.reap key clock).nShards = store.nShards := by
    intro key
    unfold KvStore.reap
    split
    · rfl
    · split <;> rfl
  have assigned : ∀ key deadline,
      (store.assignDeadline key deadline clock).2.nShards = store.nShards := by
    intro key deadline
    unfold KvStore.assignDeadline
    split
    · rfl
    · split <;> rfl
  cases move with
  | setLock | setLog | setStore | setExRefuse | setExTime | setExLock | setExLog | setExStore
  | delLock | delLog | delErase | expireRefuse | expireLock | expireTime | expireLog
  | expireSchedule | persistLock | persistLog | getMissing | getHit | getStale | ttl | unlock => rfl
  | setExSchedule key expireAtMs => split <;> rfl
  | expireFail key ttlS now | expireAssign key ttlS now => exact assigned key _
  | persistFail key | persistClear key =>
      unfold KvStore.clearDeadline
      split
      · rfl
      · split
        · rfl
        · split <;> rfl
  | getReap key | onTtlExpired key => exact reaped key

end RedisCpp.Store

namespace RedisCpp.Commands

open Protocol Store

variable {nShards : ℕ}

/-! ## Serial executions of parts -/

namespace Part

/-- The clock at the section of the part. -/
def clock : Part → ℤ
  | .op call _ => call.later
  | .shard _ _ clock _ => clock

/-- The reference map after the part. -/
def next (map : RefMap) : Part → RefMap
  | .op call _ => map.guardedNext call
  | .shard _ _ _ _ => map

/-- What the reference map allows.  The count of a shard is that of a set of keys of the
shard: they are live at the clock reading of the command, which is not later than the
section, and those that are still live at the section are among them. -/
def Allowed (powerOfTwo : nShards.isPowerOfTwo) (map : RefMap) : Part → Prop
  | .op call result => map.Allows call result
  | .shard index now clock count => now ≤ clock ∧ ∃ keys : Finset Bytes, keys.card = count ∧
      (∀ key ∈ keys, (shardIndex powerOfTwo key : ℕ) = index ∧ (map.see key now).isSome) ∧
      ∀ key, (shardIndex powerOfTwo key : ℕ) = index → (map.see key clock).isSome → key ∈ keys

end Part

/-- A serial execution of parts on the reference map. -/
def LegalParts (powerOfTwo : nShards.isPowerOfTwo) : RefMap → List Part → Prop
  | _, [] => True
  | map, part :: rest => part.Allowed powerOfTwo map ∧ LegalParts powerOfTwo (part.next map) rest

theorem legalParts_append_singleton {powerOfTwo : nShards.isPowerOfTwo} {map : RefMap}
    {parts : List Part} {part : Part} :
    LegalParts powerOfTwo map (parts ++ [part]) ↔
      LegalParts powerOfTwo map parts ∧ part.Allowed powerOfTwo (parts.foldl Part.next map) := by
  induction parts generalizing map with
  | nil => simp [LegalParts]
  | cons first rest inductionHypothesis =>
      simp only [List.cons_append, LegalParts, inductionHypothesis, List.foldl_cons, and_assoc]

/-- A serial execution from the empty map in which the parts follow the clock. -/
def SerialParts (powerOfTwo : nShards.isPowerOfTwo) (parts : List Part) : Prop :=
  LegalParts powerOfTwo RefMap.empty parts ∧
    parts.Pairwise fun earlier later => earlier.clock ≤ later.clock

/-- The count of one shard is what the reference allows. -/
theorem shard_allowed {store : KvStore} {map : RefMap} {now clock : ℤ}
    (refines : Refines clock store map) (read : now ≤ clock) (index : Fin store.nShards) :
    (Part.shard index now clock (KvStore.liveCount (store.shards index) now)).Allowed
      store.powerOfTwo map := by
  refine ⟨read, liveKeys (store.shards index) now, card_liveKeys _ _, ?_, ?_⟩
  · intro key mem
    have placed := shardIndex_of_mem_liveKeys mem
    refine ⟨congrArg Fin.val placed, ?_⟩
    subst placed
    rcases mem_liveKeys.mp mem with ⟨entry, present, alive⟩
    have held : store.slots key = some entry.toSlot := by
      simp [KvStore.slots, KvStore.find, KvStore.shardFor, present]
    simp [RefMap.see, refines.purged.reference_eq held, ExpiringMap.visible, Option.filter, alive]
  · intro key placed visible
    have same : index = shardIndex store.powerOfTwo key := (Fin.ext placed).symm
    subst same
    cases present : store.find key with
    | none => simp [refines.see_of_none present] at visible
    | some entry =>
        cases alive : entry.live clock with
        | false => simp [refines.see_of_expired present alive] at visible
        | true =>
            have earlier : Slot.live entry.toSlot now = true :=
              Slot.antitone_live entry.toSlot now clock read (by simpa using alive)
            exact mem_liveKeys.mpr ⟨entry, present, by simpa using earlier⟩

/-! ## Runs -/

/-- The part of a command that an observation shows. -/
def Observation.toPart : Observation → Option Part
  | .part shown => some shown
  | .started _ | .answered _ _ => none

section Runs

variable {Tid : Type} {powerOfTwo : nShards.isPowerOfTwo}

/-- The parts of a run, of all clients. -/
def partsOf (moves : List (Transition.Move (Sessions Tid) (Option (Tid × Observation)))) :
    List Part :=
  moves.filterMap fun move => move.label.bind fun observed => observed.2.toPart

theorem partsOf_snoc (moves : List (Transition.Move (Sessions Tid) (Option (Tid × Observation))))
    (move : Transition.Move (Sessions Tid) (Option (Tid × Observation))) :
    partsOf (moves ++ [move]) = partsOf moves ++
      (move.label.bind fun observed => observed.2.toPart).toList := by
  simp only [partsOf, List.filterMap_append]
  congr 1

/-- The store agrees with the serial execution of the parts. -/
structure Agreement (powerOfTwo : nShards.isPowerOfTwo) (parts : List Part)
    (sessions : Sessions Tid) : Prop where
  shards : sessions.system.store.nShards = nShards
  refines : Refines sessions.system.clock sessions.system.store
    (parts.foldl Part.next RefMap.empty)
  serial : SerialParts powerOfTwo parts
  bounded : ∀ part ∈ parts, part.clock ≤ sessions.system.clock
  timely : ∀ tid, (sessions.system.threads tid).Timely
  read : ∀ tid now total index, sessions.clients tid = .counting now total index →
    now ≤ sessions.system.clock

namespace Agreement

variable {parts : List Part} {sessions : Sessions Tid}

theorem initial (powerOfTwo : nShards.isPowerOfTwo) (aof : Option AofWriter) (enableTtl : Bool)
    (clock : ℕ) :
    Agreement powerOfTwo [] (.initial powerOfTwo aof enableTtl clock : Sessions Tid) where
  shards := rfl
  refines := Refines.empty powerOfTwo aof enableTtl clock
  serial := ⟨trivial, List.Pairwise.nil⟩
  bounded := by simp
  timely := fun _ => trivial
  read := by
    intro tid now total index counting
    cases counting

theorem tick (agreement : Agreement powerOfTwo parts sessions) (elapsed : ℕ) :
    Agreement powerOfTwo parts { sessions with
      system := { sessions.system with clock := sessions.system.clock + elapsed } } := by
  have le : (sessions.system.clock : ℤ) ≤ ((sessions.system.clock + elapsed : ℕ) : ℤ) := by simp
  exact
    { agreement with
      refines := agreement.refines.later le
      bounded := fun part mem => (agreement.bounded part mem).trans le
      read := fun tid now total index counting =>
        (agreement.read tid now total index counting).trans le }

/-- A part takes effect. -/
theorem serial_part (agreement : Agreement powerOfTwo parts sessions) {part : Part}
    (current : part.clock = sessions.system.clock)
    (allowed : part.Allowed powerOfTwo (parts.foldl Part.next RefMap.empty)) :
    SerialParts powerOfTwo (parts ++ [part]) ∧
      ∀ found ∈ parts ++ [part], found.clock ≤ sessions.system.clock := by
  refine ⟨⟨legalParts_append_singleton.mpr ⟨agreement.serial.1, allowed⟩, ?_⟩, ?_⟩
  · apply List.pairwise_append.mpr
    refine ⟨agreement.serial.2, List.pairwise_singleton _ _, ?_⟩
    intro earlier mem last lastMem
    rw [List.mem_singleton.mp lastMem, current]
    exact agreement.bounded earlier mem
  · intro found mem
    rcases List.mem_append.mp mem with earlier | newest
    · exact agreement.bounded found earlier
    · rw [List.mem_singleton.mp newest, current]

variable [DecidableEq Tid]

/-- A section of an operation. -/
theorem advance (agreement : Agreement powerOfTwo parts sessions) (tid : Tid) {store : KvStore}
    {pc : Pc} {use : LockUse} {effect : Option (TimedOp × Result)}
    (move : Move sessions.system.store sessions.system.clock (sessions.system.threads tid) store pc
      use effect) :
    Agreement powerOfTwo (parts ++ (effect.map fun point => Part.op point.1 point.2).toList)
      { sessions with system := sessions.system.proceed tid store pc use } := by
  rcases move.refines (agreement.timely tid) agreement.refines with ⟨refines, allowed⟩
  have shards := move.nShards_eq.trans agreement.shards
  have timely := Pc.forall_update agreement.timely tid
    (move.timely (by simp) (agreement.timely tid))
  cases effect with
  | none =>
      simp only [Option.map_none, Option.toList_none, List.append_nil]
      exact ⟨shards, refines, agreement.serial, agreement.bounded, timely, agreement.read⟩
  | some point =>
      have current : (Part.op point.1 point.2).clock = sessions.system.clock := move.later_eq rfl
      rcases agreement.serial_part current (allowed point.1 point.2 rfl) with ⟨serial, bounded⟩
      refine ⟨shards, ?_, serial, bounded, timely, agreement.read⟩
      simp only [Option.map_some, Option.toList_some, List.foldl_append, List.foldl_cons,
        List.foldl_nil]
      exact refines

/-- A step of a client outside the sections of its operation. -/
theorem place (agreement : Agreement powerOfTwo parts sessions) (tid : Tid) {system : System Tid}
    {client : Client} {pc : Pc} (store : system.store = sessions.system.store)
    (clock : system.clock = sessions.system.clock)
    (threads : system.threads = Function.update sessions.system.threads tid pc)
    (timely : pc.Timely)
    (read : ∀ now total index, client = .counting now total index → now ≤ sessions.system.clock) :
    Agreement powerOfTwo parts (sessions.setClient tid system client) where
  shards := by
    simp only [Sessions.setClient, store]
    exact agreement.shards
  refines := by
    simp only [Sessions.setClient, store, clock]
    exact agreement.refines
  serial := agreement.serial
  bounded := by
    simp only [Sessions.setClient, clock]
    exact agreement.bounded
  timely := by
    simp only [Sessions.setClient, threads]
    exact Pc.forall_update agreement.timely tid timely
  read := by
    intro other now total index counting
    simp only [Sessions.setClient, clock] at counting ⊢
    rcases eq_or_ne other tid with rfl | different
    · rw [Function.update_self] at counting
      exact read now total index counting
    · rw [Function.update_of_ne different] at counting
      exact agreement.read other now total index counting

/-- A shard is counted. -/
theorem shard (agreement : Agreement powerOfTwo parts sessions) (tid : Tid) {now : ℤ} {total : ℕ}
    (index : Fin sessions.system.store.nShards)
    (counting : sessions.clients tid = .counting now total index) :
    Agreement powerOfTwo
      (parts ++ [.shard index now sessions.system.clock
        (KvStore.liveCount (sessions.system.store.shards index) now)])
      (sessions.setClient tid sessions.system
        (.counting now (total + KvStore.liveCount (sessions.system.store.shards index) now)
          (index + 1))) := by
  have read := agreement.read tid now total index counting
  have allowed := shard_allowed agreement.refines read index
  have moved : Agreement powerOfTwo parts (sessions.setClient tid sessions.system
      (.counting now (total + KvStore.liveCount (sessions.system.store.shards index) now)
        (index + 1))) := by
    apply agreement.place tid rfl rfl (Function.update_eq_self tid _).symm (agreement.timely tid)
    rintro _ _ _ ⟨⟩
    exact read
  have shards := agreement.shards
  subst shards
  rcases agreement.serial_part rfl allowed with ⟨serial, bounded⟩
  refine { moved with refines := ?_, serial := serial, bounded := bounded }
  simpa only [List.foldl_append, List.foldl_cons, List.foldl_nil, Part.next] using moved.refines

/-- Every step continues the serial execution by the part it shows. -/
theorem step (agreement : Agreement powerOfTwo parts sessions) {after : Sessions Tid}
    {label : Option (Tid × Observation)} (step : SessionStep sessions label after) :
    Agreement powerOfTwo
      (parts ++ (label.bind fun observed => observed.2.toPart).toList) after := by
  -- all but the clock, the sections and the counts show no part and leave the store as it is
  cases step with
  | tick elapsed =>
      simp only [Option.bind_none, Option.toList_none, List.append_nil]
      exact agreement.tick elapsed
  | @advance tid _ _ _ effect move available =>
      have shown : ((effect.map fun point => (tid, Observation.part (.op point.1 point.2))).bind
          fun observed => observed.2.toPart) =
          effect.map fun point => Part.op point.1 point.2 := by
        cases effect with
        | none => rfl
        | some point => rfl
      rw [shown]
      exact agreement.advance tid move
  | sizeShard tid index counting => exact agreement.shard tid index counting
  | call tid | delCall tid =>
      simp only [Option.bind_some, Option.bind_none, Observation.toPart, Option.toList_none,
        List.append_nil]
      exact agreement.place tid rfl rfl rfl trivial (by simp)
  | ret tid | delReturn tid =>
      simp only [Option.bind_some, Option.bind_none, Observation.toPart, Option.toList_none,
        List.append_nil]
      exact agreement.place tid rfl rfl rfl trivial (by simp)
  | delStart tid | delAnswer tid | sizeStart tid | sizeAnswer tid =>
      simp only [Option.bind_some, Observation.toPart, Option.toList_none, List.append_nil]
      exact agreement.place tid rfl rfl (Function.update_eq_self tid _).symm (agreement.timely tid)
        (by simp)

end Agreement

end Runs

/-! ## Whole commands are not atomic -/

/-- The command and its answer that an observation shows. -/
def Observation.toAnswer : Observation → Option (Action × Answer)
  | .answered action answer => some (action, answer)
  | .started _ | .part _ => none

section Histories

variable {Tid : Type} [DecidableEq Tid]

/-- The commands of a client that have been answered. -/
def historyOf (tid : Tid)
    (moves : List (Transition.Move (Sessions Tid) (Option (Tid × Observation)))) :
    List (Action × Answer) :=
  (observationsOf tid moves).filterMap Observation.toAnswer

/-- A run leads to the sessions, and the clients have been told what the history says. -/
def Attains (start : Sessions Tid) (history : Tid → List (Action × Answer))
    (sessions : Sessions Tid) : Prop :=
  ∃ moves, Transition.Run SessionStep start moves sessions ∧
    (fun tid => historyOf tid moves) = history

namespace Attains

variable {start sessions after : Sessions Tid} {history : Tid → List (Action × Answer)} {tid : Tid}

theorem silent (attains : Attains start history sessions) {label : Option (Tid × Observation)}
    (step : SessionStep sessions label after)
    (unanswered : ∀ observed ∈ label, observed.2.toAnswer = none) :
    Attains start history after := by
  rcases attains with ⟨moves, run, rfl⟩
  refine ⟨_, run.snoc step, ?_⟩
  funext tid
  rw [historyOf, observationsOf_snoc, List.filterMap_append, historyOf]
  cases label with
  | none => simp
  | some observed =>
      have none := unanswered observed rfl
      simp only [Option.bind_some]
      split
      · simp [none]
      · simp

theorem answered (attains : Attains start history sessions) {action : Action} {answer : Answer}
    (step : SessionStep sessions (some (tid, .answered action answer)) after) :
    Attains start (Function.update history tid (history tid ++ [(action, answer)])) after := by
  rcases attains with ⟨moves, run, rfl⟩
  refine ⟨_, run.snoc step, ?_⟩
  funext other
  rw [historyOf, observationsOf_snoc, List.filterMap_append]
  rcases eq_or_ne tid other with rfl | different
  · simp [historyOf, Observation.toAnswer]
  · simp [historyOf, different, different.symm]

/-- A section of an operation tells the clients nothing. -/
theorem advance (attains : Attains start history sessions) {pc next : Pc} {store : KvStore}
    {use : LockUse} {effect : Option (TimedOp × Result)}
    (reached : sessions.system.threads tid = pc)
    (move : Move sessions.system.store sessions.system.clock pc store next use effect)
    (available : use = .acquire → sessions.system.mutex = none) :
    Attains start history
      { sessions with system := sessions.system.proceed tid store next use } := by
  subst reached
  apply attains.silent (SessionStep.advance tid move available)
  intro observed labelled
  rcases Option.mem_map.mp labelled with ⟨point, -, rfl⟩
  rfl

end Attains

/-- Undisturbed, the operation takes the one store to the other with the result. -/
def Completes (store : KvStore) (op : Op) (result : Result) (after : KvStore) : Prop :=
  ∀ {start sessions : Sessions Tid} {history : Tid → List (Action × Answer)} {tid : Tid},
    Attains start history sessions → sessions.system.mutex = none →
      sessions.system.store = store → sessions.system.threads tid = .called op →
      Attains start history
        { sessions with system := sessions.system.proceed tid after (.returning result) .release }

namespace Completes

theorem set (store : KvStore) (key value : Bytes) :
    @Completes Tid _ store (.set key value) (.flag true) (store.set key value).2 := by
  rintro start sessions history tid attains free rfl called
  have locked := attains.advance called (Move.setLock key value) fun _ => free
  have logged := locked.advance (System.threads_proceed _ _) (Move.setLog key value) (by simp)
  have stored := logged.advance (System.threads_proceed _ _) (Move.setStore key value) (by simp)
  have unlocked := stored.advance (System.threads_proceed _ _) (Move.unlock (.flag true)) (by simp)
  simp only [System.proceed_release] at unlocked
  exact unlocked

theorem del (store : KvStore) (key : Bytes) :
    @Completes Tid _ store (.del key) (.flag (store.find key).isSome) (store.del key).2 := by
  rintro start sessions history tid attains free rfl called
  have locked := attains.advance called (Move.delLock key) fun _ => free
  have logged := locked.advance (System.threads_proceed _ _) (Move.delLog key) (by simp)
  have erased := logged.advance (System.threads_proceed _ _) (Move.delErase key) (by simp)
  have unlocked := erased.advance (System.threads_proceed _ _) (Move.unlock _) (by simp)
  simp only [System.proceed_release] at unlocked
  exact unlocked

/-- A `get` of an entry without a deadline, or of none. -/
theorem get {store : KvStore} {key : Bytes} {entry : Option Entry}
    (found : store.find key = entry) (persistent : ∀ held ∈ entry, held.expireAtMs < 0) :
    @Completes Tid _ store (.get key) (.value (entry.map Entry.value)) store.addGet := by
  rintro start sessions history tid attains free rfl called
  have mutex : ∀ pc, sessions.system.proceed tid sessions.system.store.addGet pc .keep =
      sessions.system.proceed tid sessions.system.store.addGet pc .release := by
    intro pc
    simp [System.proceed, LockUse.after, free]
  rw [← mutex]
  cases entry with
  | none =>
      apply attains.advance called (Move.getMissing key _) (by simp)
      simp [KvStore.getShared, found]
  | some held =>
      apply attains.advance called (Move.getHit key held.value _) (by simp)
      simp [KvStore.getShared, found, Entry.live, persistent held rfl]

end Completes

/-- Between two operations: no thread is inside the store. -/
def Between (start : Sessions Tid) (history : Tid → List (Action × Answer)) (store : KvStore)
    (clients : Tid → Client) : Prop :=
  ∃ sessions, Attains start history sessions ∧ sessions.system.mutex = none ∧
    (∀ tid, sessions.system.threads tid = .idle) ∧ sessions.system.store = store ∧
    sessions.clients = clients

namespace Between

variable {start : Sessions Tid} {history : Tid → List (Action × Answer)} {store after : KvStore}
  {clients : Tid → Client}

/-- The threads are idle again when a thread has called an operation and has returned. -/
theorem idle_again {system : System Tid} (idle : ∀ tid, system.threads tid = .idle) (tid : Tid)
    (op : Op) (pc : Pc) (use : LockUse) (other : Tid) :
    (((system.enter tid op).proceed tid after pc use).leave tid).threads other = .idle := by
  simp only [System.leave, System.proceed, System.enter, Function.update_idem]
  rcases eq_or_ne other tid with rfl | different
  · exact Function.update_self _ _ _
  · rw [Function.update_of_ne different]
    exact idle other

/-- A client runs an operation and nobody else does anything. -/
theorem single (between : Between start history store clients) (tid : Tid)
    (ready : clients tid = .ready) {op : Op} {result : Result}
    (completes : @Completes Tid _ store op result after) (served : op.Served) :
    Between start (Function.update history tid (history tid ++ [(.single op, .result result)]))
      after clients := by
  rcases between with ⟨sessions, attains, free, idle, rfl, rfl⟩
  have called := attains.silent (SessionStep.call tid op served ready (idle tid)) (by
    rintro _ ⟨⟩
    rfl)
  have completed := completes called free rfl (System.threads_enter _ _ _)
  have returned := completed.answered (SessionStep.ret tid (Function.update_self _ _ _)
    (System.threads_proceed _ _))
  refine ⟨_, returned, rfl, idle_again idle tid op _ _, rfl, ?_⟩
  simp only [Sessions.setClient, Function.update_idem]
  rw [← ready]
  exact Function.update_eq_self tid _

theorem delStart (between : Between start history store clients) (tid : Tid)
    (ready : clients tid = .ready) (keys : List Bytes) :
    Between start history store (Function.update clients tid (.deleting keys 0 keys)) := by
  rcases between with ⟨sessions, attains, free, idle, rfl, rfl⟩
  have started := attains.silent (SessionStep.delStart tid keys ready) (by
    rintro _ ⟨⟩
    rfl)
  exact ⟨_, started, free, idle, rfl, rfl⟩

/-- One key of a `DEL`. -/
theorem delKey (between : Between start history store clients) (tid : Tid)
    {keys left : List Bytes} {deleted : ℤ} {key : Bytes}
    (deleting : clients tid = .deleting keys deleted (key :: left)) :
    Between start history (store.del key).2 (Function.update clients tid (.deleting keys
      (if (store.find key).isSome then deleted + 1 else deleted) left)) := by
  rcases between with ⟨sessions, attains, free, idle, rfl, rfl⟩
  have called := attains.silent (SessionStep.delCall tid deleting (idle tid)) (by simp)
  have completed := Completes.del _ key called free rfl (System.threads_enter _ _ _)
  have returned := completed.silent (SessionStep.delReturn tid (Function.update_self _ _ _)
    (System.threads_proceed _ _)) (by simp)
  refine ⟨_, returned, rfl, idle_again idle tid _ _ _, rfl, ?_⟩
  simp only [Sessions.setClient, Function.update_idem]
  rfl

theorem delAnswer (between : Between start history store clients) (tid : Tid)
    {keys : List Bytes} {deleted : ℤ} (deleting : clients tid = .deleting keys deleted []) :
    Between start (Function.update history tid (history tid ++ [(.del keys, .deleted deleted)]))
      store (Function.update clients tid .ready) := by
  rcases between with ⟨sessions, attains, free, idle, rfl, rfl⟩
  exact ⟨_, attains.answered (SessionStep.delAnswer tid deleting), free, idle, rfl, rfl⟩

/-- The live entries of the shards from one index up to another. -/
def countBetween (store : KvStore) (now : ℤ) (first last : ℕ) : ℕ :=
  ∑ index : Fin store.nShards with first ≤ index.val ∧ index.val < last,
    KvStore.liveCount (store.shards index) now

theorem countBetween_succ {store : KvStore} {now : ℤ} {first last : ℕ} (le : first ≤ last)
    (lt : last < store.nShards) :
    countBetween store now first (last + 1) =
      countBetween store now first last + KvStore.liveCount (store.shards ⟨last, lt⟩) now := by
  have shape : (Finset.univ.filter fun index : Fin store.nShards =>
      first ≤ index.val ∧ index.val < last + 1) =
      insert ⟨last, lt⟩ (Finset.univ.filter fun index : Fin store.nShards =>
        first ≤ index.val ∧ index.val < last) := by
    ext index
    simp only [Finset.mem_filter, Finset.mem_univ, true_and, Finset.mem_insert, Fin.ext_iff]
    omega
  rw [countBetween, shape, Finset.sum_insert (by simp), Nat.add_comm]
  rfl

theorem sizeStart (between : Between start history store clients) (tid : Tid)
    (ready : clients tid = .ready) :
    ∃ now, Between start history store (Function.update clients tid (.counting now 0 0)) := by
  rcases between with ⟨sessions, attains, free, idle, rfl, rfl⟩
  have started := attains.silent (SessionStep.sizeStart tid ready) (by
    rintro _ ⟨⟩
    rfl)
  exact ⟨_, _, started, free, idle, rfl, rfl⟩

theorem sizeShard (between : Between start history store clients) (tid : Tid) {now : ℤ}
    {total : ℕ} (index : Fin store.nShards)
    (counting : clients tid = .counting now total index) :
    Between start history store (Function.update clients tid
      (.counting now (total + KvStore.liveCount (store.shards index) now) (index + 1))) := by
  rcases between with ⟨sessions, attains, free, idle, rfl, rfl⟩
  have counted := attains.silent (SessionStep.sizeShard tid index counting) (by
    rintro _ ⟨⟩
    rfl)
  exact ⟨_, counted, free, idle, rfl, rfl⟩

/-- A client counts some of the shards. -/
theorem sizeShards (between : Between start history store clients) (tid : Tid) {now : ℤ}
    {total first last : ℕ} (counting : clients tid = .counting now total first)
    (le : first ≤ last) (bound : last ≤ store.nShards) :
    Between start history store (Function.update clients tid
      (.counting now (total + countBetween store now first last) last)) := by
  induction last, le using Nat.le_induction with
  | base =>
      have none : countBetween store now first first = 0 := by
        apply Finset.sum_eq_zero
        intro index mem
        simp only [Finset.mem_filter] at mem
        omega
      rw [none, Nat.add_zero, ← counting, Function.update_eq_self]
      exact between
  | succ last le inductionHypothesis =>
      have counted := (inductionHypothesis (Nat.le_of_lt bound)).sizeShard tid ⟨last, bound⟩
        (Function.update_self _ _ _)
      rw [Function.update_idem, Nat.add_assoc, ← countBetween_succ le bound] at counted
      exact counted

theorem sizeAnswer (between : Between start history store clients) (tid : Tid) {now : ℤ}
    {total : ℕ} (counting : clients tid = .counting now total store.nShards) :
    Between start (Function.update history tid (history tid ++ [(.dbSize, .size total)])) store
      (Function.update clients tid .ready) := by
  rcases between with ⟨sessions, attains, free, idle, rfl, rfl⟩
  exact ⟨_, attains.answered (SessionStep.sizeAnswer tid counting), free, idle, rfl, rfl⟩

end Between

/-- A run after which all clients are ready and have been told what the history says. -/
def Answered {nShards : ℕ} (powerOfTwo : nShards.isPowerOfTwo) (aof : Option AofWriter)
    (enableTtl : Bool) (clock : ℕ) (history : Tid → List (Action × Answer)) : Prop :=
  ∃ moves sessions, SessionRun powerOfTwo aof enableTtl clock moves sessions ∧
    (∀ tid, sessions.clients tid = .ready) ∧ (fun tid => historyOf tid moves) = history

theorem Between.initial (powerOfTwo : nShards.isPowerOfTwo) (aof : Option AofWriter)
    (enableTtl : Bool) (clock : ℕ) :
    Between (.initial powerOfTwo aof enableTtl clock : Sessions Tid) (fun _ => [])
      (KvStore.empty powerOfTwo aof enableTtl) fun _ => .ready :=
  ⟨_, ⟨[], .nil, rfl⟩, rfl, fun _ => rfl, rfl, rfl⟩

theorem Between.answered {aof : Option AofWriter} {enableTtl : Bool} {clock : ℕ}
    {powerOfTwo : nShards.isPowerOfTwo} {history told : Tid → List (Action × Answer)}
    {store : KvStore} {clients : Tid → Client}
    (between : Between (.initial powerOfTwo aof enableTtl clock) history store clients)
    (ready : ∀ tid, clients tid = .ready) (same : ∀ tid, history tid = told tid) :
    Answered powerOfTwo aof enableTtl clock told := by
  rcases between with ⟨sessions, ⟨moves, run, rfl⟩, -, -, -, rfl⟩
  exact ⟨moves, sessions, run, ready, funext same⟩

end Histories

/-! ### Two clients -/

/-- What two clients have been told. -/
def pair (left right : List (Action × Answer)) : Bool → List (Action × Answer)
  | true => left
  | false => right

theorem update_pair_true (left right told : List (Action × Answer)) :
    Function.update (pair left right) true told = pair told right := by
  funext tid
  cases tid with
  | true => rfl
  | false => rfl

theorem update_pair_false (left right told : List (Action × Answer)) :
    Function.update (pair left right) false told = pair left told := by
  funext tid
  cases tid with
  | true => rfl
  | false => rfl

/-- The next command of the list cannot be answered as it has been in this state. -/
def Stuck (store : KvStore) (pending : List (Action × Answer)) : Prop :=
  ∀ next ∈ pending.head?, ∀ now later, (next.1.execute store now later).1 ≠ next.2

namespace Serial

variable {store : KvStore} {left right : List (Action × Answer)} {action : Action} {answer : Answer}

theorem turn_left (serial : Serial store (pair ((action, answer) :: left) right))
    (stuck : Stuck store right) :
    ∃ now later, (action.execute store now later).1 = answer ∧
      Serial (action.execute store now later).2 (pair left right) := by
  cases serial with
  | nil done => cases done true
  | cons tid now later front same continued =>
      cases tid with
      | true =>
          cases front
          rw [update_pair_true] at continued
          exact ⟨now, later, same, continued⟩
      | false =>
          simp only [pair] at front
          subst front
          exact absurd same (stuck _ rfl now later)

theorem turn_right (serial : Serial store (pair left ((action, answer) :: right)))
    (stuck : Stuck store left) :
    ∃ now later, (action.execute store now later).1 = answer ∧
      Serial (action.execute store now later).2 (pair left right) := by
  cases serial with
  | nil done => cases done false
  | cons tid now later front same continued =>
      cases tid with
      | true =>
          simp only [pair] at front
          subst front
          exact absurd same (stuck _ rfl now later)
      | false =>
          cases front
          rw [update_pair_false] at continued
          exact ⟨now, later, same, continued⟩

end Serial

section Anomalies

variable {store : KvStore} {first second value : Bytes}

/-- A `DEL` of two keys that finds both. -/
theorem deleteAll_two (different : first ≠ second)
    (both : (deleteAll store [first, second]).1 = 2) :
    (store.find first).isSome ∧ (store.find second).isSome := by
  rw [deleteAll_cons, deleteAll_cons, KvStore.find_del,
    Function.update_of_ne different.symm] at both
  revert both
  cases (store.find first).isSome with
  | true =>
      cases (store.find second).isSome with
      | true => simp
      | false => simp [deleteAll]
  | false =>
      cases (store.find second).isSome with
      | true => simp [deleteAll]
      | false => simp [deleteAll]

theorem count_le_one {only : Bytes} (held : ∀ key, (store.find key).isSome → key = only) (now : ℤ) :
    store.count now ≤ 1 := by
  rw [store.count_eq_ncard, ← Set.ncard_singleton only]
  apply Set.ncard_le_ncard
  · rintro key ⟨entry, present, -⟩
    exact held key (by simp [present])
  · exact Set.finite_singleton only

theorem stuck_nil (store : KvStore) : Stuck store [] := by
  rintro _ ⟨⟩

theorem stuck_del (different : first ≠ second) (absent : store.find second = none) :
    Stuck store [(.del [first, second], .deleted 2)] := by
  rintro _ ⟨⟩ now later same
  have both := deleteAll_two different (Answer.deleted.inj same)
  simp [absent] at both

theorem stuck_size {only : Bytes} (held : ∀ key, (store.find key).isSome → key = only) :
    Stuck store [(.dbSize, .size 2)] := by
  rintro _ ⟨⟩ now later same
  have count := count_le_one held now
  rw [Answer.size.inj same] at count
  omega

theorem stuck_size_of_empty (empty : ∀ key, store.find key = none) :
    Stuck store [(.dbSize, .size 2)] := by
  apply @stuck_size store []
  intro key present
  rw [empty key] at present
  cases present

theorem get_of_none {key : Bytes} (absent : store.find key = none) (now later : ℤ) :
    store.get key now later = (none, store.addGet) := by
  simp [KvStore.get, KvStore.getShared, absent]

/-- The other client sees that only the first key of the `DEL` is gone. -/
theorem not_serial_del (different : first ≠ second) (empty : ∀ key, store.find key = none) :
    ¬ Serial store (pair [(.del [first, second], .deleted 2)]
      [(.single (.set first value), .result (.flag true)),
        (.single (.set second value), .result (.flag true)),
        (.single (.get first), .result (.value none)),
        (.single (.get second), .result (.value (some value)))]) := by
  intro serial
  -- the `DEL` needs both keys, so it comes after both have been set
  rcases serial.turn_right (stuck_del different (empty second)) with ⟨_, _, -, serial⟩
  have absent : (store.set first value).2.find second = none := by
    rw [KvStore.find_set, Function.update_of_ne different.symm, empty]
  rcases serial.turn_right (stuck_del different absent) with ⟨_, _, -, serial⟩
  -- and before the `get` that does not find the first one
  rcases serial.turn_left (by
    rintro _ ⟨⟩ now later same
    have present : ((store.set first value).2.set second value).2.find first = some { value } := by
      rw [KvStore.find_set, Function.update_of_ne different, KvStore.find_set, Function.update_self]
    simp [Action.execute, KvStore.exec, KvStore.get, KvStore.getShared, present,
      Entry.live] at same)
    with ⟨_, _, -, serial⟩
  have erased : ∀ key ∈ [first, second],
      (deleteAll ((store.set first value).2.set second value).2 [first, second]).2.find key =
        none := by
    intro key mem
    rw [find_deleteAll, if_pos mem]
  -- but then the second one is gone too
  rcases serial.turn_right (stuck_nil _) with ⟨now, later, -, serial⟩
  rcases serial.turn_right (stuck_nil _) with ⟨_, _, same, -⟩
  simp only [Action.execute, KvStore.exec, Prod.map_fst, Prod.map_snd, id_eq,
    get_of_none (erased first (by simp))] at same
  rw [get_of_none (by
    rw [KvStore.find_addGet]
    exact erased second (by simp))] at same
  simp at same

/-- At no moment are there two keys. -/
theorem not_serial_size (empty : ∀ key, store.find key = none) :
    ¬ Serial store (pair [(.dbSize, .size 2)]
      [(.single (.set first value), .result (.flag true)), (.del [first], .deleted 1),
        (.single (.set second value), .result (.flag true))]) := by
  have added : ∀ (other : KvStore) (key : Bytes), (∀ key, other.find key = none) →
      ∀ found, ((other.set key value).2.find found).isSome → found = key := by
    intro other key empty found present
    by_contra different
    rw [KvStore.find_set, Function.update_of_ne different, empty] at present
    cases present
  intro serial
  rcases serial.turn_right (stuck_size_of_empty empty) with ⟨_, _, -, serial⟩
  rcases serial.turn_right (stuck_size (added store first empty)) with ⟨_, _, -, serial⟩
  have erased : ∀ key, (deleteAll (store.set first value).2 [first]).2.find key = none := by
    intro key
    rw [find_deleteAll, KvStore.find_set]
    split
    · rfl
    · rw [Function.update_of_ne (by simp_all), empty]
  rcases serial.turn_right (stuck_size_of_empty erased) with ⟨_, _, -, serial⟩
  rcases serial.turn_left (stuck_nil _) with ⟨now, later, same, -⟩
  exact stuck_size (added _ second erased) _ rfl now later same

end Anomalies

/-- The answers of a `DEL` and of a client that sees it half done. -/
def halfDeleted : Bool → List (Action × Answer) :=
  pair [(.del [ascii "a", ascii "b"], .deleted 2)]
    [(.single (.set (ascii "a") (ascii "v")), .result (.flag true)),
      (.single (.set (ascii "b") (ascii "v")), .result (.flag true)),
      (.single (.get (ascii "a")), .result (.value none)),
      (.single (.get (ascii "b")), .result (.value (some (ascii "v"))))]

/-- The answers of a `DBSIZE` and of a client that never has more than one key. -/
def overcounted : Bool → List (Action × Answer) :=
  pair [(.dbSize, .size 2)]
    [(.single (.set (ascii "a") (ascii "v")), .result (.flag true)),
      (.del [ascii "a"], .deleted 1),
      (.single (.set (ascii "b") (ascii "v")), .result (.flag true))]

theorem answered_halfDeleted : Answered KvStore.defaultShards none true 5 halfDeleted := by
  have one := (Between.initial KvStore.defaultShards none true 5).single false rfl
    (Completes.set _ (ascii "a") (ascii "v")) trivial
  have both := one.single false rfl (Completes.set _ (ascii "b") (ascii "v")) trivial
  have started := both.delStart true rfl [ascii "a", ascii "b"]
  have half := started.delKey true rfl
  have missed := half.single false rfl
    (@Completes.get Bool _ _ (ascii "a") none rfl (by simp)) trivial
  have hit := missed.single false rfl
    (@Completes.get Bool _ _ (ascii "b") (some { value := ascii "v" }) rfl (by simp)) trivial
  have gone := hit.delKey true rfl
  apply (gone.delAnswer true rfl).answered
  · decide
  · decide

/-- The key `a` is in shard 4 and `b` in shard 7; the other client acts between the two. -/
theorem answered_overcounted : Answered KvStore.defaultShards none true 5 overcounted := by
  have one := (Between.initial KvStore.defaultShards none true 5).single false rfl
    (Completes.set _ (ascii "a") (ascii "v")) trivial
  rcases one.sizeStart true rfl with ⟨now, started⟩
  have front := started.sizeShards true rfl (by decide : 0 ≤ 5) (by decide)
  have deleting := (front.delStart false rfl [ascii "a"]).delKey false rfl
  have deleted := deleting.delAnswer false rfl
  have other := deleted.single false rfl (Completes.set _ (ascii "b") (ascii "v")) trivial
  have all := other.sizeShards true rfl (by decide : 5 ≤ 16) (by decide)
  apply (all.sizeAnswer true rfl).answered
  · intro tid
    cases tid with
    | true => rfl
    | false => rfl
  · intro tid
    cases tid with
    | true => rfl
    | false => rfl

/-- Whole commands are not atomic: between the two keys of a `DEL` another client sees that
only the first is gone, and a `DBSIZE` counts a key that is deleted behind it and a key that
is set in front of it. -/
theorem not_atomic :
    (Answered KvStore.defaultShards none true 5 halfDeleted ∧
        ¬ Serial (KvStore.empty KvStore.defaultShards none true) halfDeleted) ∧
      Answered KvStore.defaultShards none true 5 overcounted ∧
        ¬ Serial (KvStore.empty KvStore.defaultShards none true) overcounted := by
  refine ⟨⟨answered_halfDeleted, ?_⟩, answered_overcounted, ?_⟩
  · apply not_serial_del (by decide)
    exact KvStore.find_empty KvStore.defaultShards none true
  · apply not_serial_size
    exact KvStore.find_empty KvStore.defaultShards none true

/-! ## The parts are atomic -/

/-- What several clients can rely on: the parts of all commands follow one another in a
serial order, and what has been observed of each client are the commands that have been
answered, one after the other, each put together from its parts, and at most one that is under
way and not answered. -/
theorem parts_atomic {Tid : Type} [DecidableEq Tid] {powerOfTwo : nShards.isPowerOfTwo}
    {aof : Option AofWriter} {enableTtl : Bool} {clock : ℕ}
    {moves : List (Transition.Move (Sessions Tid) (Option (Tid × Observation)))}
    {sessions : Sessions Tid} (run : SessionRun powerOfTwo aof enableTtl clock moves sessions) :
    SerialParts powerOfTwo (partsOf moves) ∧
      ∀ tid, ∃ (wholes : List (List Observation)) (tail : List Observation),
        observationsOf tid moves = wholes.flatten ++ tail ∧
          (∀ whole ∈ wholes, Whole nShards whole) ∧
          Underway (sessions.clients tid) (sessions.system.threads tid) tail ∧
          ∀ action answer, .answered action answer ∉ tail := by
  have both : Agreement powerOfTwo (partsOf moves) sessions ∧
      ∀ tid, Progress nShards (sessions.clients tid) (sessions.system.threads tid)
        (observationsOf tid moves) := by
    apply run.invariant
    · exact ⟨Agreement.initial powerOfTwo aof enableTtl clock,
        fun _ => ⟨[], [], rfl, by simp, .ready⟩⟩
    · rintro _ _ _ _ - ⟨agreement, progress⟩ step
      rw [partsOf_snoc]
      exact ⟨agreement.step step, step.progress agreement.shards progress⟩
  refine ⟨both.1.serial, ?_⟩
  intro tid
  rcases both.2 tid with ⟨wholes, tail, shape, each, underway⟩
  exact ⟨wholes, tail, shape, each, underway, underway.unanswered⟩

theorem parts_atomic_halfDeleted :
    ∃ moves sessions, SessionRun KvStore.defaultShards none true 5 moves sessions ∧
      (fun tid => historyOf tid moves) = halfDeleted ∧
      SerialParts KvStore.defaultShards (partsOf moves) ∧
      ∀ tid, ∃ (wholes : List (List Observation)) (tail : List Observation),
        observationsOf tid moves = wholes.flatten ++ tail ∧
          (∀ whole ∈ wholes, Whole 16 whole) ∧
          Underway (sessions.clients tid) (sessions.system.threads tid) tail ∧
          ∀ action answer, .answered action answer ∉ tail := by
  rcases answered_halfDeleted with ⟨moves, sessions, run, -, told⟩
  exact ⟨moves, sessions, run, told, parts_atomic run⟩

end RedisCpp.Commands
