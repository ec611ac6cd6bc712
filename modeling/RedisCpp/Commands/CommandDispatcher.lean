import RedisCpp.Protocol.Replies
import RedisCpp.Store.KvStore

/-!
# The command dispatcher

Each command of the server is a record with its name, its bounds on the number of
arguments and its body.  `dispatch` looks the command up, checks the number of
arguments and runs the body.  A body takes the argument vector, the store and the at
most two clock readings its store operation needs.

Every reply but one is built from texts of the source, integers or counted payloads.
The exception is the answer to an unknown command, which quotes the first two
arguments as they are.
-/

namespace RedisCpp.Commands

open Protocol Store

/-- `Command`. -/
structure Command where
  name : Bytes
  minArgs : ℤ
  maxArgs : ℤ
  execute : List Bytes → KvStore → ℤ → ℤ → Bytes × KvStore

/-- `args[index]`; the bounds of the commands keep the index in range. -/
def arg (args : List Bytes) (index : ℕ) : Bytes :=
  args.getD index []

def getCommand : Command where
  name := ascii "GET"
  minArgs := 2
  maxArgs := 2
  execute args store now later :=
    match store.get (arg args 1) now later with
    | (some value, after) => (bulkString value, after)
    | (none, after) => (nilBulk, after)

/-- The reply to a `SET` that reached the store. -/
def setReply (outcome : Bool × KvStore) : Bytes × KvStore :=
  (if outcome.1 then simpleString (ascii "OK") else error (ascii "out of memory"), outcome.2)

def setCommand : Command where
  name := ascii "SET"
  minArgs := 3
  maxArgs := 5
  execute args store now _ :=
    if args.length = 3 then setReply (store.set (arg args 1) (arg args 2))
    else if args.length = 5 then
      if toUpper (arg args 3) = ascii "EX" then
        match fromChars (arg args 4) with
        | none => (error (ascii "invalid expire time in 'set' command"), store)
        | some (secs, _) =>
            if secs ≤ 0 then (error (ascii "invalid expire time in 'set' command"), store)
            else setReply (store.setEx (arg args 1) (arg args 2) secs now)
      else if toUpper (arg args 3) = ascii "PX" then
        match fromChars (arg args 4) with
        | none => (error (ascii "invalid expire time in 'set' command"), store)
        | some (ms, _) =>
            if ms ≤ 0 then (error (ascii "invalid expire time in 'set' command"), store)
            else setReply (store.setEx (arg args 1) (arg args 2) (max 1 (ms.tdiv 1000)) now)
      else (error (ascii "syntax error"), store)
    else (error (ascii "syntax error"), store)

/-- The loop of `DEL`: the number of keys deleted so far and the store. -/
def deleteAll (store : KvStore) (keys : List Bytes) : ℤ × KvStore :=
  keys.foldl (fun state key =>
    let outcome := state.2.del key
    (if outcome.1 then state.1 + 1 else state.1, outcome.2)) (0, store)

def delCommand : Command where
  name := ascii "DEL"
  minArgs := 2
  maxArgs := -1
  execute args store _ _ := Prod.map integer id (deleteAll store (args.drop 1))

def expireCommand : Command where
  name := ascii "EXPIRE"
  minArgs := 3
  maxArgs := 3
  execute args store now later :=
    match fromChars (arg args 2) with
    | none => (error (ascii "value is not an integer or out of range"), store)
    | some (secs, _) =>
        if secs ≤ 0 then (error (ascii "value is not an integer or out of range"), store)
        else Prod.map (fun success => integer (if success then 1 else 0)) id
          (store.expire (arg args 1) secs now later)

def ttlCommand : Command where
  name := ascii "TTL"
  minArgs := 2
  maxArgs := 2
  execute args store now _ := (integer (store.ttl (arg args 1) now), store)

def persistCommand : Command where
  name := ascii "PERSIST"
  minArgs := 2
  maxArgs := 2
  execute args store now _ :=
    Prod.map (fun success => integer (if success then 1 else 0)) id
      (store.persist (arg args 1) now)

def pingCommand : Command where
  name := ascii "PING"
  minArgs := 1
  maxArgs := 2
  execute args store _ _ :=
    (if 1 < args.length then bulkString (arg args 1) else simpleString (ascii "PONG"), store)

def infoCommand : Command where
  name := ascii "INFO"
  minArgs := 1
  maxArgs := 2
  execute _ store now _ := (bulkString (store.info now), store)

/-- `KEYS` answers what `INFO` answers. -/
def keysCommand : Command where
  name := ascii "KEYS"
  minArgs := 2
  maxArgs := 2
  execute _ store now _ := (bulkString (store.info now), store)

def dbSizeCommand : Command where
  name := ascii "DBSIZE"
  minArgs := 1
  maxArgs := 1
  execute _ store now _ := (integer (wrap64 (store.count now)), store)

def commandCmd : Command where
  name := ascii "COMMAND"
  minArgs := 1
  maxArgs := -1
  execute _ store _ _ := (ascii "*0\r\n", store)

/-- The registered commands. -/
def commands : List Command :=
  [getCommand, setCommand, delCommand, expireCommand, ttlCommand, persistCommand, pingCommand,
    infoCommand, keysCommand, dbSizeCommand, commandCmd]

/-- `commands_.find(name)`. -/
def findCommand (name : Bytes) : Option Command :=
  commands.find? fun command => command.name = name

/-- The answer to a name that is not registered. -/
def unknownCommand (name : Bytes) (args : List Bytes) : Bytes :=
  error (ascii "unknown command '" ++ name ++ ascii "', with args beginning with: " ++
    match args with
    | [] => []
    | first :: _ => ascii "'" ++ first ++ ascii "'")

/-- The answer to a wrong number of arguments. -/
def wrongArity (command : Command) : Bytes :=
  error (ascii "wrong number of arguments for '" ++ command.name ++ ascii "' command")

/-- `dispatch`. -/
def dispatch (args : List Bytes) (store : KvStore) (now later : ℤ) : Bytes × KvStore :=
  match args with
  | [] => (error (ascii "empty command"), store)
  | name :: rest =>
      match findCommand name with
      | none => (unknownCommand name rest, store)
      | some command =>
          let argc := wrap32 args.length
          if argc < command.minArgs then (wrongArity command, store)
          else if 0 ≤ command.maxArgs ∧ command.maxArgs < argc then (wrongArity command, store)
          else command.execute args store now later

/-! ## Replies -/

/-- The texts of the source fit on a line, by evaluation. -/
theorem oneValue_error {msg : Bytes} (clean : msg.all inLine = true) : OneValue (error msg) :=
  oneValue_error_iff.mpr (List.all_eq_true.mp clean)

theorem oneValue_setReply (outcome : Bool × KvStore) : OneValue (setReply outcome).1 := by
  rcases outcome with ⟨success, after⟩
  cases success with
  | true => exact oneValue_simpleString (List.all_eq_true.mp rfl)
  | false => exact oneValue_error rfl

theorem oneValue_get (args : List Bytes) (store : KvStore) (now later : ℤ) :
    OneValue (getCommand.execute args store now later).1 := by
  simp only [getCommand]
  split
  · exact oneValue_bulkString _
  · exact oneValue_nilBulk

theorem oneValue_set (args : List Bytes) (store : KvStore) (now later : ℤ) :
    OneValue (setCommand.execute args store now later).1 := by
  simp only [setCommand]
  split
  · exact oneValue_setReply _
  · split
    · split
      · split
        · exact oneValue_error rfl
        · split
          · exact oneValue_error rfl
          · exact oneValue_setReply _
      · split
        · split
          · exact oneValue_error rfl
          · split
            · exact oneValue_error rfl
            · exact oneValue_setReply _
        · exact oneValue_error rfl
    · exact oneValue_error rfl

theorem oneValue_expire (args : List Bytes) (store : KvStore) (now later : ℤ) :
    OneValue (expireCommand.execute args store now later).1 := by
  simp only [expireCommand]
  split
  · exact oneValue_error rfl
  · split
    · exact oneValue_error rfl
    · exact oneValue_integer _

theorem oneValue_ping (args : List Bytes) (store : KvStore) (now later : ℤ) :
    OneValue (pingCommand.execute args store now later).1 := by
  simp only [pingCommand]
  split
  · exact oneValue_bulkString _
  · exact oneValue_simpleString (List.all_eq_true.mp rfl)

/-- Every registered command answers with one value, whatever its arguments. -/
theorem oneValue_execute {command : Command} (registered : command ∈ commands)
    (args : List Bytes) (store : KvStore) (now later : ℤ) :
    OneValue (command.execute args store now later).1 := by
  simp only [commands, List.mem_cons, List.not_mem_nil, or_false] at registered
  rcases registered with rfl | rfl | rfl | rfl | rfl | rfl | rfl | rfl | rfl | rfl | rfl
  · exact oneValue_get args store now later
  · exact oneValue_set args store now later
  · exact oneValue_integer _
  · exact oneValue_expire args store now later
  · exact oneValue_integer _
  · exact oneValue_integer _
  · exact oneValue_ping args store now later
  · exact oneValue_bulkString _
  · exact oneValue_bulkString _
  · exact oneValue_integer _
  · exact ⟨.array [], rfl⟩

theorem inLine_name {command : Command} (registered : command ∈ commands) :
    command.name.all inLine = true := by
  have all : commands.all (fun command => command.name.all inLine) = true := rfl
  exact List.all_eq_true.mp all command registered

theorem oneValue_wrongArity {command : Command} (registered : command ∈ commands) :
    OneValue (wrongArity command) := by
  apply oneValue_error
  have opening : (ascii "wrong number of arguments for '").all inLine = true := rfl
  have closing : (ascii "' command").all inLine = true := rfl
  simp only [List.all_append, opening, inLine_name registered, closing, Bool.and_self]

/-- The name is registered, or what the answer quotes fits on a line. -/
def SafeArgs : List Bytes → Prop
  | [] => True
  | name :: rest => (findCommand name).isSome ∨
      (∀ byte ∈ name, inLine byte = true) ∧
        ∀ first ∈ rest.head?, ∀ byte ∈ first, inLine byte = true

theorem oneValue_unknownCommand_iff {name : Bytes} {rest : List Bytes} :
    OneValue (unknownCommand name rest) ↔ (∀ byte ∈ name, inLine byte = true) ∧
      ∀ first ∈ rest.head?, ∀ byte ∈ first, inLine byte = true := by
  have opening := List.all_eq_true.mp (show (ascii "unknown command '").all inLine = true from rfl)
  have middle := List.all_eq_true.mp
    (show (ascii "', with args beginning with: ").all inLine = true from rfl)
  have quote := List.all_eq_true.mp (show (ascii "'").all inLine = true from rfl)
  cases rest with
  | nil =>
      simp only [unknownCommand, oneValue_error_iff, List.forall_mem_append, List.head?_nil,
        Option.not_mem_none, false_implies, implies_true, and_true, List.not_mem_nil]
      exact ⟨fun clean => clean.1.2, fun clean => ⟨⟨opening, clean⟩, middle⟩⟩
  | cons first rest =>
      simp only [unknownCommand, oneValue_error_iff, List.forall_mem_append, List.head?_cons,
        Option.mem_def, Option.some.injEq, forall_eq']
      constructor
      · rintro ⟨⟨⟨-, clean⟩, -⟩, ⟨-, cleanFirst⟩, -⟩
        exact ⟨clean, cleanFirst⟩
      · rintro ⟨clean, cleanFirst⟩
        exact ⟨⟨⟨opening, clean⟩, middle⟩, ⟨quote, cleanFirst⟩, quote⟩

/-- A command is answered with exactly one value if and only if its arguments are
safe. -/
theorem oneValue_dispatch_iff {args : List Bytes} {store : KvStore} {now later : ℤ} :
    OneValue (dispatch args store now later).1 ↔ SafeArgs args := by
  cases args with
  | nil => exact ⟨fun _ => trivial, fun _ => oneValue_error rfl⟩
  | cons name rest =>
      simp only [dispatch, SafeArgs]
      cases found : findCommand name with
      | none => simpa using oneValue_unknownCommand_iff
      | some command =>
          have registered : command ∈ commands := List.mem_of_find?_eq_some found
          simp only [Option.isSome_some, true_or, iff_true]
          split
          · exact oneValue_wrongArity registered
          · split
            · exact oneValue_wrongArity registered
            · exact oneValue_execute registered _ _ _ _

/-! ## Pipelines -/

/-- A command of a pipeline with the clock readings of its execution. -/
structure Request where
  args : List Bytes
  now : ℤ
  later : ℤ

/-- The replies to a pipeline, in order. -/
def serve (store : KvStore) : List Request → List Bytes
  | [] => []
  | request :: requests =>
      let outcome := dispatch request.args store request.now request.later
      outcome.1 :: serve outcome.2 requests

theorem oneValue_serve_iff {store : KvStore} {requests : List Request} :
    (∀ reply ∈ serve store requests, OneValue reply) ↔
      ∀ request ∈ requests, SafeArgs request.args := by
  induction requests generalizing store with
  | nil => simp [serve]
  | cons request requests inductionHypothesis =>
      simp only [serve, List.forall_mem_cons, oneValue_dispatch_iff, inductionHypothesis]

/-- Every reply of a pipeline is one value, and all of them together decode to one
reply per command in order, exactly if all commands have safe arguments. -/
theorem replies_well_formed_iff (store : KvStore) (requests : List Request) :
    ((∀ reply ∈ serve store requests, OneValue reply) ∧
      ∃ values, decodeReplies (serve store requests).flatten = some values ∧
        List.Forall₂ (fun reply value => decodeReply reply = some (value, []))
          (serve store requests) values) ↔
      ∀ request ∈ requests, SafeArgs request.args := by
  rw [← @oneValue_serve_iff store requests]
  constructor
  · intro both
    exact both.1
  · intro each
    exact ⟨each, decodeLoop_flatten each (le_refl _)⟩

/-- A name with a line end in it forges a reply. -/
theorem not_replies_well_formed :
    ¬∀ (args : List Bytes) (store : KvStore) (now later : ℤ),
      OneValue (dispatch args store now later).1 := by
  intro wellFormed
  have one := wellFormed [ascii "X\r\n+OK"] (KvStore.empty KvStore.defaultShards none true) 0 0
  rw [oneValue_dispatch_iff] at one
  rcases one with registered | ⟨clean, -⟩
  · exact absurd registered (by decide)
  · exact absurd (clean CR (by decide)) (by decide)

end RedisCpp.Commands
