import RedisCpp.Commands.CommandDispatcher
import RedisCpp.Store.LogSemantics

/-!
# What commands leave alone

Two facts hold of `dispatch` for every argument vector.  It never reads an argument that is
not there: the bodies are written once more with every index checked, and they agree with
those that are not checked as soon as the number of arguments has been accepted.  And unless
a write succeeds, nothing changes that a client or a restart could see: commands that only
read, and `EXPIRE` and `PERSIST` on a key that is missing, at most drop an expired entry.
-/

namespace RedisCpp.Commands

open Protocol Store

/-! ## Checked indices -/

/-- A body in which every `args[index]` is checked; no result for an index out of range. -/
abbrev CheckedBody := List Bytes → KvStore → ℤ → ℤ → Option (Bytes × KvStore)

/-- A body that reads one key. -/
def withKey (body : Bytes → KvStore → ℤ → ℤ → Bytes × KvStore) : CheckedBody :=
  fun args store now later => do
    let key ← args[1]?
    return body key store now later

/-- A body that reads no argument. -/
def withoutArgs (body : KvStore → ℤ → Bytes × KvStore) : CheckedBody :=
  fun _ store now _ => some (body store now)

def getChecked : CheckedBody :=
  withKey fun key store now later =>
    match store.get key now later with
    | (some value, after) => (bulkString value, after)
    | (none, after) => (nilBulk, after)

def setChecked : CheckedBody := fun args store now _ => do
  if args.length = 3 then
    let key ← args[1]?
    let value ← args[2]?
    return setReply (store.set key value)
  if args.length = 5 then
    let option ← args[3]?
    if toUpper option = ascii "EX" then
      let text ← args[4]?
      match fromChars text with
      | none => return (error (ascii "invalid expire time in 'set' command"), store)
      | some (secs, _) =>
          if secs ≤ 0 then return (error (ascii "invalid expire time in 'set' command"), store)
          let key ← args[1]?
          let value ← args[2]?
          return setReply (store.setEx key value secs now)
    if toUpper option = ascii "PX" then
      let text ← args[4]?
      match fromChars text with
      | none => return (error (ascii "invalid expire time in 'set' command"), store)
      | some (ms, _) =>
          if ms ≤ 0 then return (error (ascii "invalid expire time in 'set' command"), store)
          let key ← args[1]?
          let value ← args[2]?
          return setReply (store.setEx key value (max 1 (ms.tdiv 1000)) now)
  return (error (ascii "syntax error"), store)

/-- One round of the loop of `DEL`. -/
def deleteStep (state : ℤ × KvStore) (key : Bytes) : ℤ × KvStore :=
  let outcome := state.2.del key
  (if outcome.1 then state.1 + 1 else state.1, outcome.2)

/-- The loop of `DEL` from an index on. -/
def deleteFrom (args : List Bytes) : ℕ → ℕ → ℤ × KvStore → Option (ℤ × KvStore)
  | 0, _, state => some state
  | rounds + 1, index, state => do
      let key ← args[index]?
      deleteFrom args rounds (index + 1) (deleteStep state key)

def delChecked : CheckedBody := fun args store _ _ => do
  let outcome ← deleteFrom args (args.length - 1) 1 (0, store)
  return Prod.map integer id outcome

def expireChecked : CheckedBody := fun args store now later => do
  let text ← args[2]?
  match fromChars text with
  | none => return (error (ascii "value is not an integer or out of range"), store)
  | some (secs, _) =>
      if secs ≤ 0 then return (error (ascii "value is not an integer or out of range"), store)
      let key ← args[1]?
      return Prod.map (fun success => integer (if success then 1 else 0)) id
        (store.expire key secs now later)

def ttlChecked : CheckedBody :=
  withKey fun key store now _ => (integer (store.ttl key now), store)

def persistChecked : CheckedBody :=
  withKey fun key store now _ =>
    Prod.map (fun success => integer (if success then 1 else 0)) id (store.persist key now)

def pingChecked : CheckedBody := fun args store _ _ => do
  if 1 < args.length then
    let text ← args[1]?
    return (bulkString text, store)
  return (simpleString (ascii "PONG"), store)

def infoChecked : CheckedBody :=
  withoutArgs fun store now => (bulkString (store.info now), store)

def dbSizeChecked : CheckedBody :=
  withoutArgs fun store now => (integer (wrap64 (store.count now)), store)

def commandChecked : CheckedBody :=
  withoutArgs fun store _ => (ascii "*0\r\n", store)

/-- The registered commands with their checked bodies. -/
def checkedCommands : List (Command × CheckedBody) :=
  [(getCommand, getChecked), (setCommand, setChecked), (delCommand, delChecked),
    (expireCommand, expireChecked), (ttlCommand, ttlChecked), (persistCommand, persistChecked),
    (pingCommand, pingChecked), (infoCommand, infoChecked), (keysCommand, infoChecked),
    (dbSizeCommand, dbSizeChecked), (commandCmd, commandChecked)]

def findChecked (name : Bytes) : Option (Command × CheckedBody) :=
  checkedCommands.find? fun entry => entry.1.name = name

/-- `dispatch` with every index checked. -/
def dispatchChecked (args : List Bytes) (store : KvStore) (now later : ℤ) :
    Option (Bytes × KvStore) := do
  if args.isEmpty then return (error (ascii "empty command"), store)
  let name ← args[0]?
  match findChecked name with
  | none =>
      if 1 < args.length then
        let first ← args[1]?
        return (unknownCommand name [first], store)
      return (unknownCommand name [], store)
  | some (command, body) =>
      let argc := wrap32 args.length
      if argc < command.minArgs then return (wrongArity command, store)
      if 0 ≤ command.maxArgs ∧ command.maxArgs < argc then return (wrongArity command, store)
      body args store now later

section Checked

variable {args : List Bytes} {store : KvStore} {now later : ℤ}

theorem getElem?_eq_arg {index : ℕ} (inside : index < args.length) :
    args[index]? = some (arg args index) := by
  rw [arg, List.getD_eq_getElem?_getD, List.getElem?_eq_getElem inside]
  rfl

theorem withKey_eq {body : Bytes → KvStore → ℤ → ℤ → Bytes × KvStore} (enough : 2 ≤ args.length) :
    withKey body args store now later = some (body (arg args 1) store now later) := by
  rw [withKey, getElem?_eq_arg (by omega)]
  rfl

theorem setChecked_eq : setChecked args store now later =
    some (setCommand.execute args store now later) := by
  simp only [setChecked, setCommand]
  by_cases three : args.length = 3
  · simp only [three, if_true, getElem?_eq_arg (show 1 < args.length by omega),
      getElem?_eq_arg (show 2 < args.length by omega)]
    rfl
  · by_cases five : args.length = 5
    · simp only [five, if_true, getElem?_eq_arg (show 1 < args.length by omega),
        getElem?_eq_arg (show 2 < args.length by omega),
        getElem?_eq_arg (show 3 < args.length by omega),
        getElem?_eq_arg (show 4 < args.length by omega)]
      by_cases ex : toUpper (arg args 3) = ascii "EX"
      · cases read : fromChars (arg args 4) with
        | none => simp [ex, read]
        | some found =>
            by_cases refused : found.1 ≤ 0
            · simp [ex, read, refused]
            · simp [ex, read, refused]
      · by_cases px : toUpper (arg args 3) = ascii "PX"
        · have notEx : ascii "PX" ≠ ascii "EX" := by decide
          cases read : fromChars (arg args 4) with
          | none => simp [px, notEx, read]
          | some found =>
              by_cases refused : found.1 ≤ 0
              · simp [px, notEx, read, refused]
              · simp [px, notEx, read, refused]
        · simp [ex, px]
    · simp only [three, five, if_false]
      rfl

/-- The loop reads the arguments from its index to the end. -/
theorem deleteFrom_eq {rounds index : ℕ} (whole : rounds + index = args.length)
    (state : ℤ × KvStore) :
    deleteFrom args rounds index state = some ((args.drop index).foldl deleteStep state) := by
  induction rounds generalizing index state with
  | zero =>
      rw [List.drop_eq_nil_of_le (by omega)]
      rfl
  | succ rounds inductionHypothesis =>
      have inside : index < args.length := by omega
      rw [deleteFrom, List.getElem?_eq_getElem inside, List.drop_eq_getElem_cons inside]
      exact inductionHypothesis (by omega) _

theorem delChecked_eq (enough : 2 ≤ args.length) :
    delChecked args store now later = some (delCommand.execute args store now later) := by
  simp only [delChecked, deleteFrom_eq (show args.length - 1 + 1 = args.length by omega)]
  rfl

theorem expireChecked_eq (enough : 3 ≤ args.length) :
    expireChecked args store now later = some (expireCommand.execute args store now later) := by
  simp only [expireChecked, expireCommand, getElem?_eq_arg (show 2 < args.length by omega),
    getElem?_eq_arg (show 1 < args.length by omega)]
  cases read : fromChars (arg args 2) with
  | none => simp [read]
  | some found =>
      by_cases refused : found.1 ≤ 0
      · simp [read, refused]
      · simp [read, refused]

theorem pingChecked_eq :
    pingChecked args store now later = some (pingCommand.execute args store now later) := by
  simp only [pingChecked, pingCommand]
  by_cases second : 1 < args.length
  · simp only [second, if_true, getElem?_eq_arg second]
    rfl
  · simp only [second, if_false]
    rfl

/-- With enough arguments a checked body does what the body does. -/
theorem checked_eq {command : Command} {body : CheckedBody}
    (registered : (command, body) ∈ checkedCommands)
    (enough : command.minArgs ≤ args.length) :
    body args store now later = some (command.execute args store now later) := by
  simp only [checkedCommands, List.mem_cons, List.not_mem_nil, or_false, Prod.mk.injEq]
    at registered
  rcases registered with ⟨rfl, rfl⟩ | ⟨rfl, rfl⟩ | ⟨rfl, rfl⟩ | ⟨rfl, rfl⟩ | ⟨rfl, rfl⟩ |
    ⟨rfl, rfl⟩ | ⟨rfl, rfl⟩ | ⟨rfl, rfl⟩ | ⟨rfl, rfl⟩ | ⟨rfl, rfl⟩ | ⟨rfl, rfl⟩
  · exact withKey_eq (Int.ofNat_le.mp enough)
  · exact setChecked_eq
  · exact delChecked_eq (Int.ofNat_le.mp enough)
  · exact expireChecked_eq (Int.ofNat_le.mp enough)
  · exact withKey_eq (Int.ofNat_le.mp enough)
  · exact withKey_eq (Int.ofNat_le.mp enough)
  · exact pingChecked_eq
  · rfl
  · rfl
  · rfl
  · rfl

theorem findCommand_eq (name : Bytes) : findCommand name = (findChecked name).map Prod.fst := by
  have commands_eq : commands = checkedCommands.map Prod.fst := rfl
  rw [findCommand, commands_eq, List.find?_map]
  rfl

/-- The narrowed number of arguments is never larger than the number of arguments. -/
theorem wrap32_le (count : ℕ) : wrap32 count ≤ count := by
  rw [wrap32, Int.bmod_def]
  split
  · omega
  · omega

/-- `dispatch` never reads an argument that is not there. -/
theorem dispatchChecked_eq (args : List Bytes) (store : KvStore) (now later : ℤ) :
    dispatchChecked args store now later = some (dispatch args store now later) := by
  cases args with
  | nil => rfl
  | cons name rest =>
      simp only [dispatchChecked, dispatch, findCommand_eq]
      cases found : findChecked name with
      | none =>
          cases rest with
          | nil => simp [found]
          | cons first rest => simp [found, unknownCommand]
      | some entry =>
          rcases entry with ⟨command, body⟩
          have registered : (command, body) ∈ checkedCommands := List.mem_of_find?_eq_some found
          have bound := wrap32_le (name :: rest).length
          generalize wrap32 (name :: rest).length = argc at bound ⊢
          by_cases few : argc < command.minArgs
          · simp [found, few]
          · by_cases many : 0 ≤ command.maxArgs ∧ command.maxArgs < argc
            · simp [found, few, many]
            · have enough : command.minArgs ≤ (name :: rest).length := (not_lt.mp few).trans bound
              simp [found, few, many, checked_eq registered enough]

end Checked

/-! ## Quiet commands -/

/-- Nothing is logged, nothing is scheduled, and from the given time on every key shows the
value and the deadline that it showed before. -/
structure Quiet (since : ℤ) (store after : KvStore) : Prop where
  aof : after.aof = store.aof
  ttlHeap : after.ttlHeap = store.ttlHeap
  visible : ∀ key time, since ≤ time →
    ExpiringMap.visible Entry.live time (after.find key) =
      ExpiringMap.visible Entry.live time (store.find key)

namespace Quiet

variable {store after : KvStore} {since : ℤ}

theorem refl (since : ℤ) (store : KvStore) : Quiet since store store :=
  ⟨rfl, rfl, fun _ _ _ => rfl⟩

theorem mono {later : ℤ} (le : since ≤ later) (quiet : Quiet since store after) :
    Quiet later store after :=
  ⟨quiet.aof, quiet.ttlHeap, fun key time reached => quiet.visible key time (le.trans reached)⟩

/-- Dropping an expired entry is not seen later on. -/
theorem of_drops (aof : after.aof = store.aof) (ttlHeap : after.ttlHeap = store.ttlHeap)
    (drops : Drops since store.find after.find) : Quiet since store after := by
  refine ⟨aof, ttlHeap, ?_⟩
  intro key time reached
  have purged := (drops.later reached).purged
    (ExpiringMap.Purged.refl Entry.live time store.find)
  exact purged.visible_eq key

end Quiet

section Operations

variable {store : KvStore} {key : Bytes} {now later : ℤ}

theorem quiet_get : Quiet later store (store.get key now later).2 := by
  simp only [KvStore.get]
  split
  · exact ⟨rfl, rfl, fun _ _ _ => rfl⟩
  · exact ⟨rfl, rfl, fun _ _ _ => rfl⟩
  · exact Quiet.of_drops (store.addGet.aof_reap key later)
      (store.addGet.ttlHeap_reap key later) (store.addGet.drops_reap key later)

/-- `expire` without success. -/
theorem quiet_expire {ttlS : ℤ} (failed : (store.expire key ttlS now later).1 = false) :
    Quiet later store (store.expire key ttlS now later).2 := by
  by_cases refused : ttlS ≤ 0
  · simp only [KvStore.expire, refused, if_true]
    exact Quiet.refl later store
  · simp only [KvStore.expire, refused, if_false, KvStore.expireAt] at failed ⊢
    cases outcome : store.assignDeadline key (KvStore.deadlineAt now ttlS) later with
    | mk success after =>
        cases success with
        | true =>
            rw [outcome] at failed
            cases failed
        | false =>
            have drops := store.drops_assignDeadline (congrArg Prod.fst outcome)
            have aof := store.aof_assignDeadline key (KvStore.deadlineAt now ttlS) later
            have ttlHeap := store.ttlHeap_assignDeadline key (KvStore.deadlineAt now ttlS) later
            rw [outcome] at drops aof ttlHeap
            exact Quiet.of_drops aof ttlHeap drops

/-- `persist` without success. -/
theorem quiet_persist (failed : (store.persist key now).1 = false) :
    Quiet now store (store.persist key now).2 := by
  simp only [KvStore.persist] at failed ⊢
  cases outcome : store.clearDeadline key now with
  | mk cleared after =>
      cases cleared with
      | some value =>
          rw [outcome] at failed
          cases failed
      | none =>
          have drops := store.drops_clearDeadline (congrArg Prod.fst outcome)
          have aof := store.aof_clearDeadline key now
          have ttlHeap := store.ttlHeap_clearDeadline key now
          rw [outcome] at drops aof ttlHeap
          exact Quiet.of_drops aof ttlHeap drops

end Operations

/-- The names of the commands that only read. -/
def readerNames : List Bytes :=
  [ascii "GET", ascii "TTL", ascii "PING", ascii "INFO", ascii "KEYS", ascii "DBSIZE",
    ascii "COMMAND"]

/-- No write has succeeded: the reply is an error, the command only reads, or `EXPIRE` or
`PERSIST` has found nothing to do. -/
def Unsuccessful (name : Option Bytes) (reply : Bytes) : Prop :=
  reply.head? = some 45 ∨ (∃ reader ∈ readerNames, name = some reader) ∨
    (name = some (ascii "EXPIRE") ∨ name = some (ascii "PERSIST")) ∧ reply = integer 0

section Execute

variable {args : List Bytes} {store : KvStore} {now later : ℤ}

theorem integer_ne_error (number : ℤ) : (integer number).head? ≠ some 45 :=
  (by decide : some (58 : UInt8) ≠ some 45)

/-- The reply to a success flag is `:0` only without success. -/
theorem eq_false_of_integer {success : Bool}
    (zero : integer (if success then 1 else 0) = integer 0) : success = false := by
  cases success with
  | false => rfl
  | true => exact absurd zero (by decide)

/-- `SET` answers `OK` or leaves the store as it is. -/
theorem setReply_cases {outcome : Bool × KvStore}
    (failed : outcome.1 = false → outcome.2 = store) :
    (setReply outcome).2 = store ∨ (setReply outcome).1 = simpleString (ascii "OK") := by
  rcases outcome with ⟨success, after⟩
  cases success with
  | false => exact Or.inl (failed rfl)
  | true => exact Or.inr rfl

theorem setEx_failed {key value : Bytes} {ttlS : ℤ}
    (failed : (store.setEx key value ttlS now).1 = false) :
    (store.setEx key value ttlS now).2 = store := by
  simp only [KvStore.setEx] at failed ⊢
  split at failed
  · rename_i refused
    rw [if_pos refused]
  · cases failed

theorem set_cases : (setCommand.execute args store now later).2 = store ∨
    (setCommand.execute args store now later).1 = simpleString (ascii "OK") := by
  simp only [setCommand]
  split
  · exact setReply_cases fun failed => by cases failed
  · split
    · split
      · split
        · exact Or.inl rfl
        · split
          · exact Or.inl rfl
          · exact setReply_cases setEx_failed
      · split
        · split
          · exact Or.inl rfl
          · split
            · exact Or.inl rfl
            · exact setReply_cases setEx_failed
        · exact Or.inl rfl
    · exact Or.inl rfl

theorem expire_cases : (expireCommand.execute args store now later).2 = store ∨
    ∃ secs, expireCommand.execute args store now later =
      Prod.map (fun success => integer (if success then 1 else 0)) id
        (store.expire (arg args 1) secs now later) := by
  simp only [expireCommand]
  split
  · exact Or.inl rfl
  · split
    · exact Or.inl rfl
    · exact Or.inr ⟨_, rfl⟩

/-- `SET` and `DEL` are unsuccessful only with an error. -/
theorem Unsuccessful.head {name reply : Bytes} (unsuccessful : Unsuccessful (some name) reply)
    (writer : name ∉ readerNames) (notExpire : name ≠ ascii "EXPIRE")
    (notPersist : name ≠ ascii "PERSIST") : reply.head? = some 45 := by
  rcases unsuccessful with failed | ⟨reader, listed, named⟩ | ⟨named | named, -⟩
  · exact failed
  · cases named
    exact absurd listed writer
  · cases named
    exact absurd rfl notExpire
  · cases named
    exact absurd rfl notPersist

/-- A success flag is not an error, so it says that there was no success. -/
theorem Unsuccessful.flag {name : Bytes} {success : Bool}
    (unsuccessful : Unsuccessful (some name) (integer (if success then 1 else 0)))
    (writer : name ∉ readerNames) : success = false := by
  rcases unsuccessful with failed | ⟨reader, listed, named⟩ | ⟨-, zero⟩
  · exact absurd failed (integer_ne_error _)
  · cases named
    exact absurd listed writer
  · exact eq_false_of_integer zero

/-- A registered command does not change anything unless a write succeeds. -/
theorem quiet_execute {command : Command} (registered : command ∈ commands)
    (unsuccessful : Unsuccessful (some command.name) (command.execute args store now later).1) :
    Quiet (max now later) store (command.execute args store now later).2 := by
  simp only [commands, List.mem_cons, List.not_mem_nil, or_false] at registered
  rcases registered with rfl | rfl | rfl | rfl | rfl | rfl | rfl | rfl | rfl | rfl | rfl
  · -- GET
    have kept := (@quiet_get store (arg args 1) now later).mono (le_max_right now later)
    simp only [getCommand]
    split
    · rename_i value after outcome
      rw [outcome] at kept
      exact kept
    · rename_i after outcome
      rw [outcome] at kept
      exact kept
  · -- SET
    rcases @set_cases args store now later with same | stored
    · rw [same]
      exact Quiet.refl _ store
    · rw [stored] at unsuccessful
      have failed := unsuccessful.head (by decide) (by decide) (by decide)
      exact absurd failed (by decide)
  · -- DEL
    have failed := unsuccessful.head (by decide) (by decide) (by decide)
    exact absurd failed (integer_ne_error _)
  · -- EXPIRE
    rcases @expire_cases args store now later with same | ⟨secs, performed⟩
    · rw [same]
      exact Quiet.refl _ store
    · rw [performed] at unsuccessful ⊢
      exact (quiet_expire (unsuccessful.flag (by decide))).mono (le_max_right now later)
  · exact Quiet.refl _ store
  · -- PERSIST
    exact (quiet_persist (unsuccessful.flag (by decide))).mono (le_max_left now later)
  · exact Quiet.refl _ store
  · exact Quiet.refl _ store
  · exact Quiet.refl _ store
  · exact Quiet.refl _ store
  · exact Quiet.refl _ store

end Execute

/-- For every argument vector: unless a write succeeds, nothing is logged, nothing is
scheduled and no key shows anything else than before, from the clock readings of the command
on; and no argument is read that is not there. -/
theorem only_writes_change (args : List Bytes) (store : KvStore) (now later : ℤ) :
    (Unsuccessful args.head? (dispatch args store now later).1 →
      Quiet (max now later) store (dispatch args store now later).2) ∧
      dispatchChecked args store now later = some (dispatch args store now later) := by
  refine ⟨?_, dispatchChecked_eq args store now later⟩
  intro unsuccessful
  cases args with
  | nil => exact Quiet.refl _ store
  | cons name rest =>
      simp only [dispatch, List.head?_cons] at unsuccessful ⊢
      cases found : findCommand name with
      | none => exact Quiet.refl _ store
      | some command =>
          simp only [found] at unsuccessful ⊢
          split at unsuccessful
          · rename_i few
            rw [if_pos few]
            exact Quiet.refl _ store
          · rename_i enough
            rw [if_neg enough]
            split at unsuccessful
            · rename_i many
              rw [if_pos many]
              exact Quiet.refl _ store
            · rename_i accepted
              rw [if_neg accepted]
              have named : command.name = name := by
                have holds := List.find?_some found
                simpa using holds
              subst named
              exact quiet_execute (List.mem_of_find?_eq_some found) unsuccessful

/-- `EXPIRE` finds a key that has expired, and removes it. -/
theorem only_writes_change_expire :
    Quiet (max 7 7)
      ((KvStore.empty KvStore.defaultShards (some {}) true).put (ascii "k") ⟨ascii "v", 6⟩)
      (dispatch [ascii "EXPIRE", ascii "k", ascii "10"]
        ((KvStore.empty KvStore.defaultShards (some {}) true).put (ascii "k") ⟨ascii "v", 6⟩)
        7 7).2 := by
  apply (only_writes_change [ascii "EXPIRE", ascii "k", ascii "10"]
    ((KvStore.empty KvStore.defaultShards (some {}) true).put (ascii "k") ⟨ascii "v", 6⟩)
    7 7).1
  exact Or.inr (Or.inr ⟨Or.inl rfl, by decide⟩)

end RedisCpp.Commands
