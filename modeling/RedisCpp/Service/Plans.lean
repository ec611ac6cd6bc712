import RedisCpp.Commands.Sessions

/-!
# What a worker does for a command

A worker answers some commands by itself, among them all that it refuses.  For the others it
runs one action on the store and encodes the answer.  `INFO` and `KEYS` count the keys like
`DBSIZE` and put the counters of the store next to the number.

The plan of a command is what is left of its body without the store.  A plan executed by
itself is `dispatch`; the workers of the server execute theirs section by section, each among
the sections of the others.
-/

namespace RedisCpp.Service

open Protocol Store Commands

/-- What a worker does for a command. -/
inductive Plan where
  | reply (resp : Bytes)
  | act (action : Action)
  | info
deriving DecidableEq, Repr

/-! ## The plans of the commands -/

def getPlan (args : List Bytes) : Plan :=
  .act (.single (.get (arg args 1)))

def setPlan (args : List Bytes) : Plan :=
  if args.length = 3 then .act (.single (.set (arg args 1) (arg args 2)))
  else if args.length = 5 then
    if toUpper (arg args 3) = ascii "EX" then
      match fromChars (arg args 4) with
      | none => .reply (error (ascii "invalid expire time in 'set' command"))
      | some (secs, _) =>
          if secs ≤ 0 then .reply (error (ascii "invalid expire time in 'set' command"))
          else .act (.single (.setEx (arg args 1) (arg args 2) secs))
    else if toUpper (arg args 3) = ascii "PX" then
      match fromChars (arg args 4) with
      | none => .reply (error (ascii "invalid expire time in 'set' command"))
      | some (ms, _) =>
          if ms ≤ 0 then .reply (error (ascii "invalid expire time in 'set' command"))
          else .act (.single (.setEx (arg args 1) (arg args 2) (max 1 (ms.tdiv 1000))))
    else .reply (error (ascii "syntax error"))
  else .reply (error (ascii "syntax error"))

def delPlan (args : List Bytes) : Plan :=
  .act (.del (args.drop 1))

def expirePlan (args : List Bytes) : Plan :=
  match fromChars (arg args 2) with
  | none => .reply (error (ascii "value is not an integer or out of range"))
  | some (secs, _) =>
      if secs ≤ 0 then .reply (error (ascii "value is not an integer or out of range"))
      else .act (.single (.expire (arg args 1) secs))

def ttlPlan (args : List Bytes) : Plan :=
  .act (.single (.ttl (arg args 1)))

def persistPlan (args : List Bytes) : Plan :=
  .act (.single (.persist (arg args 1)))

def pingPlan (args : List Bytes) : Plan :=
  .reply (if 1 < args.length then bulkString (arg args 1) else simpleString (ascii "PONG"))

def infoPlan (_ : List Bytes) : Plan :=
  .info

def dbSizePlan (_ : List Bytes) : Plan :=
  .act .dbSize

def commandPlan (_ : List Bytes) : Plan :=
  .reply (ascii "*0\r\n")

/-- The registered commands with their plans. -/
def plans : List (Command × (List Bytes → Plan)) :=
  [(getCommand, getPlan), (setCommand, setPlan), (delCommand, delPlan),
    (expireCommand, expirePlan), (ttlCommand, ttlPlan), (persistCommand, persistPlan),
    (pingCommand, pingPlan), (infoCommand, infoPlan), (keysCommand, infoPlan),
    (dbSizeCommand, dbSizePlan), (commandCmd, commandPlan)]

/-- `commands_.find(name)`, with the plan. -/
def findPlan (name : Bytes) : Option (Command × (List Bytes → Plan)) :=
  plans.find? fun entry => entry.1.name = name

/-- The plan of `dispatch`. -/
def dispatchPlan (args : List Bytes) : Plan :=
  match args with
  | [] => .reply (error (ascii "empty command"))
  | name :: rest =>
      match findPlan name with
      | none => .reply (unknownCommand name rest)
      | some (command, plan) =>
          let argc := wrap32 args.length
          if argc < command.minArgs then .reply (wrongArity command)
          else if 0 ≤ command.maxArgs ∧ command.maxArgs < argc then .reply (wrongArity command)
          else plan args

/-- `on_message` puts the name of the command in upper case. -/
def upperName : List Bytes → List Bytes
  | [] => []
  | name :: rest => toUpper name :: rest

/-- The plan of `on_message`. -/
def onMessage (args : List Bytes) : Plan :=
  dispatchPlan (upperName args)

/-! ## Answers -/

/-- The reply to an action.  No command asks for `on_ttl_expired`, which answers nothing. -/
def encode (action : Action) : Answer → Bytes
  | .result (.flag success) =>
      match action with
      | .single (.set _ _) | .single (.setEx _ _ _) =>
          if success then simpleString (ascii "OK") else error (ascii "out of memory")
      | _ => integer (if success then 1 else 0)
  | .result (.value (some value)) => bulkString value
  | .result (.value none) => nilBulk
  | .result (.seconds remaining) => integer remaining
  | .result (.size keys) => integer (wrap64 keys)
  | .result .void => nilBulk
  | .deleted count => integer count
  | .size keys => integer (wrap64 keys)

/-- The text of `info`. -/
def infoText (keys sets gets dels expired shards : ℕ) : Bytes :=
  ascii "# Stats\r\n" ++
    ascii "keys:" ++ Decimal.print keys ++ crlf ++
    ascii "total_set:" ++ Decimal.print sets ++ crlf ++
    ascii "total_get:" ++ Decimal.print gets ++ crlf ++
    ascii "total_del:" ++ Decimal.print dels ++ crlf ++
    ascii "total_expired:" ++ Decimal.print expired ++ crlf ++
    ascii "shards:" ++ Decimal.print shards ++ crlf

theorem info_eq (store : KvStore) (now : ℤ) :
    store.info now = infoText (store.count now) store.statSet store.statGet store.statDel
      store.statExpired store.nShards := rfl

/-- Whatever the answer, the reply is one value. -/
theorem oneValue_encode (action : Action) (answer : Answer) : OneValue (encode action answer) := by
  have told : ∀ success : Bool, OneValue
      (if success then simpleString (ascii "OK") else error (ascii "out of memory")) := by
    intro success
    cases success with
    | true => exact oneValue_simpleString (List.all_eq_true.mp rfl)
    | false => exact oneValue_error rfl
  cases answer with
  | deleted count => exact oneValue_integer _
  | size keys => exact oneValue_integer _
  | result result =>
      cases result with
      | flag success =>
          simp only [encode]
          split
          · exact told success
          · exact told success
          · exact oneValue_integer _
      | value found =>
          cases found with
          | none => exact oneValue_nilBulk
          | some value => exact oneValue_bulkString _
      | seconds remaining => exact oneValue_integer _
      | size keys => exact oneValue_integer _
      | void => exact oneValue_nilBulk

/-! ## The counters -/

/-- The counters that `info` prints. -/
structure Counters where
  sets : ℕ
  gets : ℕ
  dels : ℕ
  expired : ℕ
deriving DecidableEq, Repr

/-- The counters of a store. -/
def countersOf (store : KvStore) : Counters where
  sets := store.statSet
  gets := store.statGet
  dels := store.statDel
  expired := store.statExpired

/-- No counter has gone back. -/
structure Counters.Le (before after : Counters) : Prop where
  sets : before.sets ≤ after.sets
  gets : before.gets ≤ after.gets
  dels : before.dels ≤ after.dels
  expired : before.expired ≤ after.expired

namespace Counters.Le

variable {first second third : Counters}

theorem refl (counters : Counters) : counters.Le counters :=
  ⟨le_refl _, le_refl _, le_refl _, le_refl _⟩

theorem of_eq (same : second = first) : first.Le second :=
  same ▸ refl second

theorem trans (before : first.Le second) (after : second.Le third) : first.Le third :=
  ⟨before.sets.trans after.sets, before.gets.trans after.gets, before.dels.trans after.dels,
    before.expired.trans after.expired⟩

end Counters.Le

section Grow

variable (store : KvStore) (key : Bytes) (now : ℤ)

theorem countersOf_reap : (countersOf store).Le (countersOf (store.reap key now)) := by
  simp only [KvStore.reap]
  split
  · exact .refl _
  · split
    · exact ⟨le_refl _, le_refl _, le_refl _, Nat.le_succ _⟩
    · exact .refl _

theorem countersOf_assignDeadline (expireAtMs : ℤ) :
    countersOf (store.assignDeadline key expireAtMs now).2 = countersOf store := by
  simp only [KvStore.assignDeadline]
  split
  · rfl
  · split
    · rfl
    · rfl

theorem countersOf_clearDeadline :
    countersOf (store.clearDeadline key now).2 = countersOf store := by
  simp only [KvStore.clearDeadline]
  split
  · rfl
  · split
    · rfl
    · split
      · rfl
      · rfl

variable {store}

/-- The counters only grow. -/
theorem countersOf_move {clock : ℤ} {pc next : Pc} {after : KvStore} {use : LockUse}
    {effect : Option (TimedOp × Result)} (move : Move store clock pc after next use effect) :
    (countersOf store).Le (countersOf after) := by
  cases move with
  | setLog | setExLog => exact ⟨Nat.le_succ _, le_refl _, le_refl _, le_refl _⟩
  | delLog => exact ⟨le_refl _, le_refl _, Nat.le_succ _, le_refl _⟩
  | getMissing | getHit | getStale => exact ⟨le_refl _, Nat.le_succ _, le_refl _, le_refl _⟩
  | getReap key | onTtlExpired key => exact countersOf_reap store key clock
  | expireFail | expireAssign => exact .of_eq (countersOf_assignDeadline _ _ _ _)
  | persistFail | persistClear => exact .of_eq (countersOf_clearDeadline _ _ _)
  | setExSchedule =>
      split
      · exact .refl _
      · exact .refl _
  | setLock | setStore | setExRefuse | setExTime | setExLock | setExStore | delLock | delErase
  | expireRefuse | expireLock | expireTime | expireLog | expireSchedule | persistLock | persistLog
  | ttl | unlock => exact .refl _

theorem countersOf_step {Tid : Type} [DecidableEq Tid] {sessions after : Sessions Tid}
    {label : Option (Tid × Observation)} (step : SessionStep sessions label after) :
    (countersOf sessions.system.store).Le (countersOf after.system.store) := by
  cases step with
  | advance tid move available => exact countersOf_move move
  | tick | call | ret | delStart | delCall | delReturn | delAnswer | sizeStart | sizeShard
  | sizeAnswer => exact .refl _

end Grow

/-! ## Plans executed by themselves -/

/-- A plan executed by itself. -/
def Plan.execute (store : KvStore) (now later : ℤ) : Plan → Bytes × KvStore
  | .reply resp => (resp, store)
  | .act action => Prod.map (encode action) id (action.execute store now later)
  | .info => (bulkString (store.info now), store)

section Bodies

variable (args : List Bytes) (store : KvStore) (now later : ℤ)

theorem getPlan_execute :
    (getPlan args).execute store now later = getCommand.execute args store now later := by
  simp only [getPlan, Plan.execute, Action.execute, KvStore.exec, getCommand]
  rcases store.get (arg args 1) now later with ⟨found, after⟩
  cases found with
  | none => rfl
  | some value => rfl

theorem setPlan_execute :
    (setPlan args).execute store now later = setCommand.execute args store now later := by
  simp only [setPlan, setCommand]
  split
  · rfl
  · split
    · cases fromChars (arg args 4) with
      | none =>
          simp only
          split
          · rfl
          · split
            · rfl
            · rfl
      | some parsed =>
          rcases parsed with ⟨number, rest⟩
          rcases le_or_gt number 0 with refused | accepted
          · simp only [refused, if_true]
            split
            · rfl
            · split
              · rfl
              · rfl
          · simp only [not_le.mpr accepted, if_false]
            split
            · rfl
            · split
              · rfl
              · rfl
    · rfl

theorem expirePlan_execute :
    (expirePlan args).execute store now later = expireCommand.execute args store now later := by
  simp only [expirePlan, expireCommand]
  cases fromChars (arg args 2) with
  | none => rfl
  | some parsed =>
      rcases parsed with ⟨secs, rest⟩
      rcases le_or_gt secs 0 with refused | accepted
      · simp only [refused, if_true]
        rfl
      · simp only [not_le.mpr accepted, if_false]
        rfl

/-- The plan of a registered command, executed by itself, is its body. -/
theorem plan_execute {command : Command} {plan : List Bytes → Plan}
    (registered : (command, plan) ∈ plans) :
    (plan args).execute store now later = command.execute args store now later := by
  simp only [plans, List.mem_cons, Prod.mk.injEq, List.not_mem_nil, or_false] at registered
  rcases registered with ⟨rfl, rfl⟩ | ⟨rfl, rfl⟩ | ⟨rfl, rfl⟩ | ⟨rfl, rfl⟩ | ⟨rfl, rfl⟩ |
    ⟨rfl, rfl⟩ | ⟨rfl, rfl⟩ | ⟨rfl, rfl⟩ | ⟨rfl, rfl⟩ | ⟨rfl, rfl⟩ | ⟨rfl, rfl⟩
  · exact getPlan_execute args store now later
  · exact setPlan_execute args store now later
  · rfl
  · exact expirePlan_execute args store now later
  · rfl
  · rfl
  · rfl
  · rfl
  · rfl
  · rfl
  · rfl

theorem findCommand_eq_findPlan (name : Bytes) :
    findCommand name = (findPlan name).map Prod.fst := by
  have listed : commands = plans.map Prod.fst := rfl
  rw [findCommand, listed, List.find?_map]
  rfl

/-- The plan of a command, executed by itself, is `dispatch`. -/
theorem dispatchPlan_execute :
    (dispatchPlan args).execute store now later = dispatch args store now later := by
  cases args with
  | nil => rfl
  | cons name rest =>
      simp only [dispatchPlan, dispatch, findCommand_eq_findPlan]
      cases found : findPlan name with
      | none => rfl
      | some entry =>
          rcases entry with ⟨command, plan⟩
          simp only [Option.map_some]
          split
          · rfl
          · split
            · rfl
            · exact plan_execute _ _ _ _ (List.mem_of_find?_eq_some found)

end Bodies

end RedisCpp.Service
