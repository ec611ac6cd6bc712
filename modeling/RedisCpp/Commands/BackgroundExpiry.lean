import RedisCpp.Commands.CommandDispatcher
import RedisCpp.Store.Purged

/-!
# What a client sees of the background expiry

Between the commands of the clients the TTL thread calls `on_ttl_expired`, for any keys and
at any moments.  A client should not notice.  Every command but `DEL` decides by the
deadline of an entry; `DEL` counts the entries that it erases, expired or not.  So the
calls are invisible exactly as long as no `DEL` meets an expired entry that is still there.
-/

namespace RedisCpp.Commands

open Protocol Store

/-! ## Deleting several keys -/

section DeleteAll

variable {store left right : KvStore} {key : Bytes} {keys : List Bytes}

theorem del_fst (store : KvStore) (key : Bytes) :
    (store.del key).1 = (store.find key).isSome := rfl

/-- The loop counts on from where it is. -/
theorem deleteAll_foldl (store : KvStore) (keys : List Bytes) (count : ℤ) :
    keys.foldl (fun state key =>
        let outcome := state.2.del key
        (if outcome.1 then state.1 + 1 else state.1, outcome.2)) (count, store) =
      (count + (deleteAll store keys).1, (deleteAll store keys).2) := by
  induction keys generalizing store count with
  | nil => simp [deleteAll]
  | cons key keys inductionHypothesis =>
      simp only [deleteAll, List.foldl_cons]
      rw [inductionHypothesis, inductionHypothesis]
      split
      · simp [Int.add_assoc]
      · simp

theorem deleteAll_cons (store : KvStore) (key : Bytes) (keys : List Bytes) :
    deleteAll store (key :: keys) =
      ((if (store.find key).isSome then 1 else 0) + (deleteAll (store.del key).2 keys).1,
        (deleteAll (store.del key).2 keys).2) := by
  rw [deleteAll, List.foldl_cons, deleteAll_foldl]
  simp only [del_fst, Int.zero_add]

theorem find_deleteAll (store : KvStore) (keys : List Bytes) (key : Bytes) :
    (deleteAll store keys).2.find key = if key ∈ keys then none else store.find key := by
  induction keys generalizing store with
  | nil => simp [deleteAll]
  | cons first keys inductionHypothesis =>
      rw [deleteAll_cons, inductionHypothesis, KvStore.find_del]
      by_cases same : key = first
      · simp [same]
      · simp [same]

/-- The count depends only on which of the keys are there. -/
theorem deleteAll_congr
    (same : ∀ key ∈ keys, (left.find key).isSome = (right.find key).isSome) :
    (deleteAll left keys).1 = (deleteAll right keys).1 := by
  induction keys generalizing left right with
  | nil => rfl
  | cons first keys inductionHypothesis =>
      have rest :
          (deleteAll (left.del first).2 keys).1 = (deleteAll (right.del first).2 keys).1 := by
        apply inductionHypothesis
        intro key later
        rw [KvStore.find_del, KvStore.find_del]
        by_cases again : key = first
        · simp [again]
        · rw [Function.update_of_ne again, Function.update_of_ne again]
          exact same key (List.mem_cons_of_mem first later)
      rw [deleteAll_cons, deleteAll_cons, rest, same first List.mem_cons_self]

/-- A key that is missing is not counted. -/
theorem deleteAll_missing (present : (left.find key).isSome = true)
    (missing : right.find = Function.update left.find key none) (named : key ∈ keys) :
    (deleteAll left keys).1 = (deleteAll right keys).1 + 1 := by
  induction keys generalizing left right with
  | nil => cases named
  | cons first keys inductionHypothesis =>
      rw [deleteAll_cons, deleteAll_cons, missing]
      by_cases same : first = key
      · subst same
        have rest : (deleteAll (left.del first).2 keys).1 =
            (deleteAll (right.del first).2 keys).1 := by
          apply deleteAll_congr
          intro other _
          rw [KvStore.find_del, KvStore.find_del, missing, Function.update_idem]
        rw [rest]
        simp only [present, if_true, Function.update_self, Option.isSome_none, Bool.false_eq_true,
          if_false]
        omega
      · have different : key ≠ first := fun equal => same equal.symm
        have rest : (deleteAll (left.del first).2 keys).1 =
            (deleteAll (right.del first).2 keys).1 + 1 := by
          apply inductionHypothesis
          · rw [KvStore.find_del, Function.update_of_ne different]
            exact present
          · rw [KvStore.find_del, KvStore.find_del, missing, Function.update_comm different]
          · exact (List.mem_cons.mp named).resolve_left different
        rw [rest, Function.update_of_ne same]
        simp only
        omega

end DeleteAll

theorem integer_injective {left right : ℤ} (same : integer left = integer right) :
    left = right := by
  simp only [integer, List.cons_append, List.cons.injEq, true_and] at same
  have texts := List.append_cancel_right same
  have values := congrArg readInteger texts
  rw [readInteger_stdToString, readInteger_stdToString] at values
  exact Option.some.inj values

/-! ## Commands -/

/-- `GET`, `SET`, `DEL`, `EXPIRE`, `TTL`, `PERSIST` and `DBSIZE`. -/
def keyCommands : List Command :=
  [getCommand, setCommand, delCommand, expireCommand, ttlCommand, persistCommand, dbSizeCommand]

/-- An argument vector that names one of these commands. -/
def NamesKeyCommand (args : List Bytes) : Prop :=
  ∃ command ∈ keyCommands, args.head? = some command.name

theorem findCommand_name {command : Command} (listed : command ∈ keyCommands) :
    findCommand command.name = some command := by
  simp only [keyCommands, List.mem_cons, List.not_mem_nil, or_false] at listed
  rcases listed with rfl | rfl | rfl | rfl | rfl | rfl | rfl
  · rfl
  · rfl
  · rfl
  · rfl
  · rfl
  · rfl
  · rfl

/-- The number of arguments is accepted. -/
def Command.Accepts (command : Command) (args : List Bytes) : Prop :=
  command.minArgs ≤ wrap32 args.length ∧
    ¬(0 ≤ command.maxArgs ∧ command.maxArgs < wrap32 args.length)

/-- A command is executed if the number of its arguments is accepted. -/
theorem dispatch_cases {command : Command} (listed : command ∈ keyCommands) {args : List Bytes}
    (named : args.head? = some command.name) :
    (command.Accepts args ∧ ∀ store now later,
        dispatch args store now later = command.execute args store now later) ∨
      ¬command.Accepts args ∧ ∀ store now later,
        dispatch args store now later = (wrongArity command, store) := by
  cases args with
  | nil => cases named
  | cons name rest =>
      cases named
      by_cases few : wrap32 (command.name :: rest).length < command.minArgs
      · refine Or.inr ⟨fun accepts => absurd few (not_lt.mpr accepts.1), ?_⟩
        intro store now later
        simp only [dispatch, findCommand_name listed, few, if_true]
      · by_cases many : 0 ≤ command.maxArgs ∧
            command.maxArgs < wrap32 (command.name :: rest).length
        · refine Or.inr ⟨fun accepts => accepts.2 many, ?_⟩
          intro store now later
          simp only [dispatch, findCommand_name listed, few, if_false, many, and_self, if_true]
        · refine Or.inl ⟨⟨not_lt.mp few, many⟩, ?_⟩
          intro store now later
          simp only [dispatch, findCommand_name listed, few, if_false, many]

section Purged

variable {reduced full : KvStore} {now later : ℤ} {args : List Bytes}

theorem purged_setReply {left right : Bool × KvStore} (same : left.1 = right.1)
    (purged : PurgedOf left.2 right.2 now) :
    (setReply left).1 = (setReply right).1 ∧ PurgedOf (setReply left).2 (setReply right).2 now := by
  refine ⟨?_, purged⟩
  simp only [setReply, same]

theorem purged_get (purged : PurgedOf reduced full now) (le : now ≤ later) :
    (getCommand.execute args reduced now later).1 = (getCommand.execute args full now later).1 ∧
      PurgedOf (getCommand.execute args reduced now later).2
        (getCommand.execute args full now later).2 later := by
  rcases purged.get (arg args 1) le with ⟨value, after⟩
  simp only [getCommand]
  rcases reducedEq : reduced.get (arg args 1) now later with ⟨found, store⟩
  rcases fullEq : full.get (arg args 1) now later with ⟨other, otherStore⟩
  rw [reducedEq, fullEq] at value after
  simp only at value
  subst value
  cases found with
  | none => exact ⟨rfl, after⟩
  | some value => exact ⟨rfl, after⟩

theorem purged_set (purged : PurgedOf reduced full now) :
    (setCommand.execute args reduced now later).1 = (setCommand.execute args full now later).1 ∧
      PurgedOf (setCommand.execute args reduced now later).2
        (setCommand.execute args full now later).2 now := by
  have timed : ∀ ttlS, _ := fun ttlS =>
    purged_setReply (purged.setEx (arg args 1) (arg args 2) ttlS).1
      (purged.setEx (arg args 1) (arg args 2) ttlS).2
  simp only [setCommand]
  split
  · apply purged_setReply
    · rfl
    · exact purged.set (arg args 1) (arg args 2)
  · split
    · split
      · split
        · exact ⟨rfl, purged⟩
        · split
          · exact ⟨rfl, purged⟩
          · exact timed _
      · split
        · split
          · exact ⟨rfl, purged⟩
          · split
            · exact ⟨rfl, purged⟩
            · exact timed _
        · exact ⟨rfl, purged⟩
    · exact ⟨rfl, purged⟩

/-- Of the keys that are deleted none is there and expired. -/
theorem purged_del (purged : PurgedOf reduced full now)
    (fresh : ∀ key ∈ args.drop 1, ∀ entry, full.find key = some entry → entry.live now = true) :
    (delCommand.execute args reduced now later).1 = (delCommand.execute args full now later).1 ∧
      PurgedOf (delCommand.execute args reduced now later).2
        (delCommand.execute args full now later).2 now := by
  refine ⟨congrArg integer ?_, ⟨?_⟩⟩
  · apply deleteAll_congr
    intro key named
    rcases purged.slots key with equal | ⟨-, entry, present, dead⟩
    · rw [equal]
    · rw [fresh key named entry present] at dead
      cases dead
  · intro key
    simp only [delCommand, Prod.map_snd, id_eq, find_deleteAll]
    split
    · exact Or.inl rfl
    · exact purged.slots key

theorem purged_expire (purged : PurgedOf reduced full now) (le : now ≤ later) :
    (expireCommand.execute args reduced now later).1 =
        (expireCommand.execute args full now later).1 ∧
      PurgedOf (expireCommand.execute args reduced now later).2
        (expireCommand.execute args full now later).2 later := by
  simp only [expireCommand]
  split
  · exact ⟨rfl, purged.later le⟩
  · split
    · exact ⟨rfl, purged.later le⟩
    · rename_i secs _ _ _
      rcases purged.expire (arg args 1) secs le with ⟨flag, after⟩
      refine ⟨?_, after⟩
      simp only [Prod.map_fst, flag]

theorem purged_persist (purged : PurgedOf reduced full now) :
    (persistCommand.execute args reduced now later).1 =
        (persistCommand.execute args full now later).1 ∧
      PurgedOf (persistCommand.execute args reduced now later).2
        (persistCommand.execute args full now later).2 now := by
  rcases purged.persist (arg args 1) with ⟨flag, after⟩
  refine ⟨?_, after⟩
  simp only [persistCommand, Prod.map_fst, flag]

/-- A command answers the same on a store from which expired entries are missing. -/
theorem purged_execute {command : Command} (listed : command ∈ keyCommands)
    (purged : PurgedOf reduced full now) (le : now ≤ later)
    (fresh : command.name = ascii "DEL" →
      ∀ key ∈ args.drop 1, ∀ entry, full.find key = some entry → entry.live now = true) :
    (command.execute args reduced now later).1 = (command.execute args full now later).1 ∧
      PurgedOf (command.execute args reduced now later).2
        (command.execute args full now later).2 later := by
  simp only [keyCommands, List.mem_cons, List.not_mem_nil, or_false] at listed
  rcases listed with rfl | rfl | rfl | rfl | rfl | rfl | rfl
  · exact purged_get purged le
  · exact (@purged_set _ _ _ later _ purged).imp_right fun after => after.later le
  · exact (@purged_del _ _ _ later _ purged (fresh rfl)).imp_right fun after => after.later le
  · exact purged_expire purged le
  · exact ⟨congrArg integer (purged.ttl (arg args 1)), purged.later le⟩
  · exact (@purged_persist _ _ _ later _ purged).imp_right fun after => after.later le
  · exact ⟨congrArg (fun count : ℕ => integer (wrap64 count)) purged.count, purged.later le⟩

end Purged

/-- A `DEL` that is executed and names a key whose entry has expired and is still there. -/
def DeletesStale (request : Request) (store : KvStore) : Prop :=
  request.args.head? = some (ascii "DEL") ∧ delCommand.Accepts request.args ∧
    ∃ key ∈ request.args.drop 1, ∃ entry, store.find key = some entry ∧
      entry.live request.now = false

section Request

variable {request : Request} {reduced full store : KvStore}

theorem purged_dispatch (named : NamesKeyCommand request.args)
    (purged : PurgedOf reduced full request.now) (le : request.now ≤ request.later)
    (fresh : ¬DeletesStale request full) :
    (dispatch request.args reduced request.now request.later).1 =
        (dispatch request.args full request.now request.later).1 ∧
      PurgedOf (dispatch request.args reduced request.now request.later).2
        (dispatch request.args full request.now request.later).2 request.later := by
  rcases named with ⟨command, listed, head⟩
  rcases dispatch_cases listed head with ⟨accepts, executed⟩ | ⟨-, refused⟩
  · rw [executed, executed]
    apply purged_execute listed purged le
    intro del key present entry found
    have same : command = delCommand := by
      have found := findCommand_name listed
      rw [del] at found
      exact Option.some.inj found.symm
    subst same
    by_contra dead
    exact fresh ⟨head, accepts, key, present, entry, found, by simpa using dead⟩
  · rw [refused, refused]
    exact ⟨rfl, purged.later le⟩

/-- A `DEL` that meets an expired entry answers otherwise once the entry is gone. -/
theorem DeletesStale.reply_ne (stale : DeletesStale request store) :
    ∃ key, (dispatch request.args (store.onTtlExpired key request.now) request.now
        request.later).1 ≠ (dispatch request.args store request.now request.later).1 := by
  rcases stale with ⟨head, accepts, key, named, entry, present, dead⟩
  have listed : delCommand ∈ keyCommands := by simp [keyCommands]
  rcases dispatch_cases listed head with ⟨-, executed⟩ | ⟨refused, -⟩
  · have missing : (store.onTtlExpired key request.now).find =
        Function.update store.find key none := by
      simp only [KvStore.onTtlExpired, KvStore.reap, present, Entry.expired_eq_not_live, dead,
        Bool.not_false, if_true, KvStore.find_addExpired, KvStore.find_erase_eq_update]
    have counted := deleteAll_missing (by simp [present]) missing named
    refine ⟨key, ?_⟩
    rw [executed, executed]
    intro same
    have counts : (deleteAll (store.onTtlExpired key request.now) (request.args.drop 1)).1 =
        (deleteAll store (request.args.drop 1)).1 := integer_injective same
    omega
  · exact absurd accepts refused

end Request

/-! ## Interleavings -/

/-- A command, or a call of `on_ttl_expired` with its clock reading. -/
inductive Activity where
  | command (request : Request)
  | expiry (key : Bytes) (now : ℤ)

/-- The commands among the activities. -/
def Activity.request : Activity → Option Request
  | .command request => some request
  | .expiry _ _ => none

/-- The replies to the commands. -/
def observe (store : KvStore) : List Activity → List Bytes
  | [] => []
  | .command request :: later =>
      let outcome := dispatch request.args store request.now request.later
      outcome.1 :: observe outcome.2 later
  | .expiry key now :: later => observe (store.onTtlExpired key now) later

/-- The clock never goes back. -/
def Ordered : ℤ → List Activity → Prop
  | _, [] => True
  | start, .command request :: later =>
      start ≤ request.now ∧ request.now ≤ request.later ∧ Ordered request.later later
  | start, .expiry _ now :: later => start ≤ now ∧ Ordered now later

/-- Whatever calls of `on_ttl_expired` are made between the commands, the replies are those
without them. -/
def ExpiryInvisible (store : KvStore) (start : ℤ) (requests : List Request) : Prop :=
  ∀ activities, activities.filterMap Activity.request = requests → Ordered start activities →
    observe store activities = serve store requests

/-- Without calls of `on_ttl_expired`, no `DEL` meets an expired entry. -/
def NoStaleDelete (store : KvStore) : List Request → Prop
  | [] => True
  | request :: requests =>
      ¬DeletesStale request store ∧
        NoStaleDelete (dispatch request.args store request.now request.later).2 requests

theorem observe_of_purged {reduced full : KvStore} {start : ℤ} {activities : List Activity}
    (named : ∀ request ∈ activities.filterMap Activity.request, NamesKeyCommand request.args)
    (purged : PurgedOf reduced full start) (ordered : Ordered start activities)
    (fresh : NoStaleDelete full (activities.filterMap Activity.request)) :
    observe reduced activities = serve full (activities.filterMap Activity.request) := by
  induction activities generalizing reduced full start with
  | nil => rfl
  | cons activity activities inductionHypothesis =>
      cases activity with
      | command request =>
          rcases ordered with ⟨before, le, later⟩
          have each := List.forall_mem_cons.mp named
          rcases purged_dispatch each.1 (purged.later before) le fresh.1 with ⟨reply, after⟩
          have rest := inductionHypothesis each.2 after later fresh.2
          exact congrArg₂ List.cons reply rest
      | expiry key now =>
          rcases ordered with ⟨before, later⟩
          exact inductionHypothesis named ((purged.later before).reap_reduced key) later fresh

theorem noStaleDelete_of_invisible {store : KvStore} {start : ℤ} {requests : List Request}
    (ordered : Ordered start (requests.map .command))
    (invisible : ExpiryInvisible store start requests) : NoStaleDelete store requests := by
  induction requests generalizing store start with
  | nil => trivial
  | cons request requests inductionHypothesis =>
      rcases ordered with ⟨before, le, later⟩
      have commands : ∀ requests : List Request,
          (requests.map Activity.command).filterMap Activity.request = requests := by
        intro requests
        simp [List.filterMap_map, Function.comp_def, Activity.request]
      constructor
      · intro stale
        rcases stale.reply_ne with ⟨key, differs⟩
        have same := invisible
          (.expiry key request.now :: .command request :: requests.map .command)
          (congrArg (request :: ·) (commands requests)) ⟨before, le_refl _, le, later⟩
        exact differs (List.cons.inj same).1
      · apply inductionHypothesis later
        intro activities split behind
        have same := invisible (.command request :: activities)
          (congrArg (request :: ·) split) ⟨before, le, behind⟩
        exact (List.cons.inj same).2

/-- For commands on keys with readings of a clock that never goes back: the background expiry
is invisible exactly if, without it, no `DEL` meets an expired entry that is still there. -/
theorem expiry_invisible_iff {store : KvStore} {start : ℤ} {requests : List Request}
    (named : ∀ request ∈ requests, NamesKeyCommand request.args)
    (ordered : Ordered start (requests.map .command)) :
    ExpiryInvisible store start requests ↔ NoStaleDelete store requests := by
  constructor
  · exact noStaleDelete_of_invisible ordered
  · rintro fresh activities rfl chronological
    exact observe_of_purged named (PurgedOf.refl store start) chronological fresh

/-- A key with a deadline is read after the deadline. -/
theorem expiry_invisible_iff_get :
    ExpiryInvisible (KvStore.empty KvStore.defaultShards none true) 0
      [⟨[ascii "SET", ascii "k", ascii "v", ascii "EX", ascii "1"], 0, 0⟩,
        ⟨[ascii "GET", ascii "k"], 2000, 2000⟩] := by
  apply (expiry_invisible_iff _ _).mpr
  · refine ⟨?_, ?_, trivial⟩
    · rintro ⟨del, -⟩
      exact absurd del (by decide)
    · rintro ⟨del, -⟩
      exact absurd del (by decide)
  · intro request listed
    simp only [List.mem_cons, List.not_mem_nil, or_false] at listed
    rcases listed with rfl | rfl
    · exact ⟨setCommand, by simp [keyCommands], rfl⟩
    · exact ⟨getCommand, by simp [keyCommands], rfl⟩
  · simp [Ordered]

/-- A `DEL` two seconds after a `SET` for one second counts the key, unless the TTL thread has
come before. -/
theorem not_expiry_invisible :
    ¬∀ (store : KvStore) (start : ℤ) (requests : List Request),
      (∀ request ∈ requests, NamesKeyCommand request.args) →
        Ordered start (requests.map .command) → ExpiryInvisible store start requests := by
  intro invisible
  have same := invisible (KvStore.empty KvStore.defaultShards none true) 0
    [⟨[ascii "SET", ascii "k", ascii "v", ascii "EX", ascii "1"], 0, 0⟩,
      ⟨[ascii "DEL", ascii "k"], 2000, 2000⟩] (by
        intro request listed
        simp only [List.mem_cons, List.not_mem_nil, or_false] at listed
        rcases listed with rfl | rfl
        · exact ⟨setCommand, by simp [keyCommands], rfl⟩
        · exact ⟨delCommand, by simp [keyCommands], rfl⟩) (by simp [Ordered])
    [.command ⟨[ascii "SET", ascii "k", ascii "v", ascii "EX", ascii "1"], 0, 0⟩,
      .expiry (ascii "k") 2000, .command ⟨[ascii "DEL", ascii "k"], 2000, 2000⟩] rfl
    (by simp [Ordered])
  exact absurd same (by decide +kernel)

end RedisCpp.Commands
