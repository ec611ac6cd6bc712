import RedisCpp.Lib.Transition
import RedisCpp.Store.Linearizable
import Mathlib.Data.List.Count

/-!
# Accounting for entries

An entry comes into a shard when a `SET` finds none under its key.  It leaves when a `DEL`
removes it, or when it has expired and somebody notices.  `get` and `on_ttl_expired` count
what they remove in `stat_expired_`; `expire`, `expire_at` and `persist` remove an expired
entry without counting it.  Every call balances if those removals are taken into account,
and so does every move of the concurrent machine, and therefore every run of either,
whatever the interleaving and the clock.
-/

namespace RedisCpp.Store

namespace KvStore

/-! ## The size of the store -/

/-- The number of entries in all shards. -/
def size (store : KvStore) : ℕ :=
  ∑ index, (store.shards index).keys.length

section Maps

variable {Key : Type*} {Value : Key → Type*}

/-- One map of several changes. -/
theorem sum_length_update {count : ℕ} (maps : Fin count → AList Value) (index : Fin count)
    (map : AList Value) :
    ∑ other, (Function.update maps index map other).keys.length + (maps index).keys.length =
      ∑ other, (maps other).keys.length + map.keys.length := by
  rw [← Finset.add_sum_erase Finset.univ _ (Finset.mem_univ index),
    ← Finset.add_sum_erase Finset.univ (fun other => (maps other).keys.length)
      (Finset.mem_univ index), Function.update_self]
  have rest : ∑ other ∈ Finset.univ.erase index, (Function.update maps index map other).keys.length
      = ∑ other ∈ Finset.univ.erase index, (maps other).keys.length := by
    apply Finset.sum_congr rfl
    intro other mem
    rw [Function.update_of_ne (Finset.ne_of_mem_erase mem)]
  rw [rest]
  omega

variable [DecidableEq Key]

theorem length_erase (map : AList Value) (key : Key) :
    (map.erase key).keys.length + (map.lookup key).isSome.toNat = map.keys.length := by
  rw [AList.keys_erase, List.length_erase]
  by_cases mem : key ∈ map.keys
  · have positive := List.length_pos_of_mem mem
    have found : (map.lookup key).isSome = true := AList.lookup_isSome.mpr mem
    rw [if_pos mem, found, Bool.toNat_true]
    omega
  · have missing : map.lookup key = none := AList.lookup_eq_none.mpr mem
    rw [if_neg mem, missing, Option.isSome_none, Bool.toNat_false]
    omega

theorem length_insert (map : AList Value) (key : Key) (value : Value key) :
    (map.insert key value).keys.length = map.keys.length + (map.lookup key).isNone.toNat := by
  have erased := length_erase map key
  rw [AList.keys_erase] at erased
  rw [AList.keys_insert, List.length_cons]
  cases found : map.lookup key with
  | none =>
      rw [found, Option.isSome_none, Bool.toNat_false] at erased
      rw [Option.isNone_none, Bool.toNat_true]
      omega
  | some entry =>
      rw [found, Option.isSome_some, Bool.toNat_true] at erased
      rw [Option.isNone_some, Bool.toNat_false]
      omega

end Maps

variable (store : KvStore)

/-- Writing an entry makes the store larger if there was none. -/
theorem size_put (key : Bytes) (entry : Entry) :
    (store.put key entry).size = store.size + (store.find key).isNone.toNat := by
  have changed : (store.put key entry).size + (store.shardFor key).keys.length =
      store.size + ((store.shardFor key).insert key entry).keys.length :=
    sum_length_update store.shards _ _
  have written := length_insert (store.shardFor key) key entry
  rw [find]
  omega

/-- Erasing a key makes the store smaller if it was there. -/
theorem size_erase (key : Bytes) :
    (store.erase key).size + (store.find key).isSome.toNat = store.size := by
  have changed : (store.erase key).size + (store.shardFor key).keys.length =
      store.size + ((store.shardFor key).erase key).keys.length :=
    sum_length_update store.shards _ _
  have erased := length_erase (store.shardFor key) key
  rw [find]
  omega

theorem size_empty {nShards : ℕ} (powerOfTwo : nShards.isPowerOfTwo) (aof : Option AofWriter)
    (enableTtl : Bool) : (empty powerOfTwo aof enableTtl).size = 0 :=
  Finset.sum_eq_zero fun _ _ => rfl

end KvStore

/-! ## What a call does to the accounts -/

namespace TimedOp

/-- A `SET` that succeeds where there was no entry. -/
def creates (store : KvStore) (call : TimedOp) (result : Result) : Bool :=
  match call.op with
  | .set key _ | .setEx key _ _ | .setAbsolute key _ _ =>
      result = .flag true && (store.find key).isNone
  | _ => false

/-- A `DEL` that returns true. -/
def deletes (_ : KvStore) (call : TimedOp) (result : Result) : Bool :=
  match call.op with
  | .del _ => result = .flag true
  | _ => false

/-- An `expire`, `expire_at` or `persist` that meets an expired entry. -/
def forgets (store : KvStore) (call : TimedOp) (_ : Result) : Bool :=
  match call.op with
  | .expire key ttlS => 0 < ttlS && (store.find key).any (·.expired call.later)
  | .expireAt key _ | .persist key => (store.find key).any (·.expired call.now)
  | _ => false

end TimedOp

/-- What was there or came in is still there, was deleted, was counted as expired, or was
removed without being counted. -/
def Balanced (before after : KvStore) (created deleted forgotten : Bool) : Prop :=
  after.size + deleted.toNat + after.statExpired + forgotten.toNat =
    before.size + before.statExpired + created.toNat

namespace Balanced

variable (store : KvStore) {before after target : KvStore} {created deleted forgotten : Bool}

theorem refl : Balanced store store false false false := rfl

/-- The counters of commands, the log and the heap do not enter the accounts. -/
theorem congr (balanced : Balanced before after created deleted forgotten)
    (sizeEq : target.size = after.size) (statEq : target.statExpired = after.statExpired) :
    Balanced before target created deleted forgotten := by
  rw [Balanced, sizeEq, statEq]
  exact balanced

theorem put (key : Bytes) (entry : Entry) :
    Balanced store (store.put key entry) (store.find key).isNone false false := by
  have size := store.size_put key entry
  simp only [Balanced, Bool.toNat_false]
  change _ + 0 + store.statExpired + 0 = _
  omega

theorem erase (key : Bytes) :
    Balanced store (store.erase key) false (store.find key).isSome false := by
  have size := store.size_erase key
  simp only [Balanced, Bool.toNat_false]
  change _ + _ + store.statExpired + 0 = _
  omega

theorem reap (key : Bytes) (now : ℤ) :
    Balanced store (store.reap key now) false false false := by
  have size := store.size_erase key
  rw [KvStore.reap]
  cases present : store.find key with
  | none => exact refl store
  | some entry =>
      rw [present, Option.isSome_some, Bool.toNat_true] at size
      by_cases expired : entry.expired now = true
      · simp only [expired, if_true, Balanced, Bool.toNat_false]
        change (store.erase key).size + 0 + (store.statExpired + 1) + 0 = _
        omega
      · simp only [expired]
        exact refl store

/-- An expired entry is dropped behind the back of the counter. -/
theorem forget {key : Bytes} {entry : Entry} (present : store.find key = some entry) :
    Balanced store (store.erase key) false false true := by
  have size := store.size_erase key
  rw [present, Option.isSome_some, Bool.toNat_true] at size
  simp only [Balanced, Bool.toNat_false, Bool.toNat_true]
  change (store.erase key).size + 0 + store.statExpired + 1 = _
  omega

/-- An entry is overwritten. -/
theorem overwrite {key : Bytes} {entry : Entry} (present : store.find key = some entry)
    (replacement : Entry) : Balanced store (store.put key replacement) false false false := by
  have written := put store key replacement
  rw [present] at written
  exact written

theorem assignDeadline (key : Bytes) (expireAtMs now : ℤ) :
    Balanced store (store.assignDeadline key expireAtMs now).2 false false
      ((store.find key).any (·.expired now)) := by
  rw [KvStore.assignDeadline]
  cases present : store.find key with
  | none => exact refl store
  | some entry =>
      simp only [Option.any_some]
      cases expired : entry.expired now with
      | true => exact forget store present
      | false => exact overwrite store present _

theorem clearDeadline (key : Bytes) (now : ℤ) :
    Balanced store (store.clearDeadline key now).2 false false
      ((store.find key).any (·.expired now)) := by
  rw [KvStore.clearDeadline]
  cases present : store.find key with
  | none => exact refl store
  | some entry =>
      simp only [Option.any_some]
      by_cases persistent : entry.expireAtMs = -1
      · have fresh : entry.expired now = false := by simp [Entry.expired, persistent]
        simp only [persistent, fresh, if_true]
        exact refl store
      · simp only [persistent, if_false]
        cases expired : entry.expired now with
        | true => exact forget store present
        | false => exact overwrite store present _

theorem setInternal (key value : Bytes) (expireAtMs : ℤ) :
    Balanced store (store.setInternal key value expireAtMs) (store.find key).isNone false
      false := by
  rw [KvStore.setInternal]
  split
  · exact (put store key _).congr rfl rfl
  · exact put store key _

/-- A record in the log and a counted command change nothing here. -/
theorem setAbsolute (key value : Bytes) (expireAtMs : ℤ) :
    Balanced store (store.setAbsolute key value expireAtMs).2 (store.find key).isNone false
      false :=
  setInternal (store.addSet.log (.setEx key value expireAtMs)) key value expireAtMs

theorem expireAt (key : Bytes) (expireAtMs now : ℤ) :
    Balanced store (store.expireAt key expireAtMs now).2 false false
      ((store.find key).any (·.expired now)) := by
  have assigned := assignDeadline store key expireAtMs now
  rw [KvStore.expireAt]
  rcases outcome : store.assignDeadline key expireAtMs now with ⟨success, after⟩
  rw [outcome] at assigned
  cases success with
  | false => exact assigned
  | true => exact assigned.congr rfl rfl

end Balanced

open TimedOp

/-- Every call balances. -/
theorem KvStore.exec_balanced (store : KvStore) (call : TimedOp) :
    Balanced store (store.exec call).2 (creates store call (store.exec call).1)
      (deletes store call (store.exec call).1) (forgets store call (store.exec call).1) := by
  rcases call with ⟨op, now, later⟩
  cases op with
  | set key value =>
      simp only [creates, deletes, forgets, exec, set, Prod.map, id, decide_true, Bool.true_and]
      exact Balanced.setInternal (store.addSet.log (.set key value)) key value (-1)
  | setEx key value ttlS =>
      by_cases refused : ttlS ≤ 0
      · simp only [creates, deletes, forgets, exec, setEx, refused, if_true, Prod.map, id,
          Result.flag.injEq, Bool.false_eq_true, decide_false, Bool.false_and]
        exact Balanced.refl store
      · simp only [creates, deletes, forgets, exec, setEx, refused, if_false, Prod.map, id]
        exact Balanced.setAbsolute store key value _
  | setAbsolute key value expireAtMs =>
      simp only [creates, deletes, forgets, exec, Prod.map, id]
      exact Balanced.setAbsolute store key value expireAtMs
  | get key =>
      simp only [creates, deletes, forgets, exec, get, Prod.map, id]
      cases store.addGet.getShared key now with
      | missing => exact (Balanced.refl store).congr rfl rfl
      | hit value => exact (Balanced.refl store).congr rfl rfl
      | stale => exact Balanced.reap store.addGet key later
  | del key =>
      simp only [creates, deletes, forgets, exec, del, Prod.map, id, Result.flag.injEq,
        Bool.decide_eq_true]
      exact Balanced.erase (store.addDel.log (.del key)) key
  | expire key ttlS =>
      by_cases refused : ttlS ≤ 0
      · simp only [creates, deletes, forgets, exec, expire, refused, if_true, not_lt.mpr refused,
          decide_false, Bool.false_and]
        exact Balanced.refl store
      · simp only [creates, deletes, forgets, exec, expire, refused, if_false, not_le.mp refused,
          decide_true, Bool.true_and, Prod.map, id]
        exact Balanced.expireAt store key _ later
  | expireAt key expireAtMs =>
      simp only [creates, deletes, forgets, exec, Prod.map, id]
      exact Balanced.expireAt store key expireAtMs now
  | persist key =>
      have cleared := Balanced.clearDeadline store key now
      simp only [creates, deletes, forgets, exec, persist, Prod.map, id]
      rcases outcome : store.clearDeadline key now with ⟨success, after⟩
      rw [outcome] at cleared
      cases success with
      | none => exact cleared
      | some value => exact cleared.congr rfl rfl
  | ttl key => exact Balanced.refl store
  | count => exact Balanced.refl store
  | onTtlExpired key => exact Balanced.reap store key now

/-- Every move of a thread balances: the call takes effect where its section is, and what
`get` removes afterwards is counted. -/
theorem Move.balanced {store after : KvStore} {clock : ℤ} {pc next : Pc} {use : LockUse}
    {effect : Option (TimedOp × Result)} (move : Move store clock pc after next use effect)
    (timely : pc.Timely) :
    Balanced store after (effect.any fun point => creates store point.1 point.2)
      (effect.any fun point => deletes store point.1 point.2)
      (effect.any fun point => forgets store point.1 point.2) := by
  cases move with
  | setStore key value =>
      simp only [Option.any_some, creates, deletes, forgets, decide_true, Bool.true_and]
      exact Balanced.put store key _
  | setExRefuse key value ttlS refused =>
      simp only [Option.any_some, creates, deletes, forgets, Result.flag.injEq,
        Bool.false_eq_true, decide_false, Bool.false_and]
      exact Balanced.refl store
  | setExStore key value ttlS now =>
      simp only [Option.any_some, creates, deletes, forgets, decide_true, Bool.true_and]
      exact Balanced.put store key _
  | setExSchedule key expireAtMs =>
      simp only [Option.any_none]
      split
      · exact (Balanced.refl store).congr rfl rfl
      · exact Balanced.refl store
  | delErase key =>
      simp only [Option.any_some, creates, deletes, forgets, Result.flag.injEq,
        Bool.decide_eq_true]
      exact Balanced.erase store key
  | expireRefuse key ttlS refused =>
      simp only [Option.any_some, creates, deletes, forgets, not_lt.mpr refused, decide_false,
        Bool.false_and]
      exact Balanced.refl store
  | expireFail key ttlS now | expireAssign key ttlS now =>
      simp only [Option.any_some, creates, deletes, forgets, timely.1, decide_true, Bool.true_and]
      exact Balanced.assignDeadline store key _ clock
  | persistFail key failed =>
      simp only [Option.any_some, creates, deletes, forgets]
      exact Balanced.clearDeadline store key clock
  | persistClear key value cleared =>
      simp only [Option.any_some, creates, deletes, forgets]
      exact Balanced.clearDeadline store key clock
  | getReap key => exact Balanced.reap store key clock
  | onTtlExpired key => exact Balanced.reap store key clock
  | setLog | delLog | expireLog | expireSchedule | persistLog =>
      simp only [Option.any_none]
      exact (Balanced.refl store).congr rfl rfl
  | getMissing | getHit | getStale | ttl =>
      exact (Balanced.refl store).congr rfl rfl
  | _ => exact Balanced.refl store

/-! ## Runs -/

/-- One call after another. -/
def Called (before : KvStore) (call : TimedOp) (after : KvStore) : Prop :=
  after = (before.exec call).2

/-- A call of a run is of a kind. -/
def called (kind : KvStore → TimedOp → Result → Bool) (move : Transition.Move KvStore TimedOp) :
    Bool :=
  kind move.source move.label (move.source.exec move.label).1

/-- A call of a kind takes effect in a step of the concurrent machine. -/
def takesEffect {Tid : Type} (kind : KvStore → TimedOp → Result → Bool)
    (move : Transition.Move (System Tid) (List Event)) : Bool :=
  move.label.any fun event =>
    match event with
    | .commit _ call result => kind move.source.store call result
    | _ => false

/-- The books of a run of which every move balances. -/
theorem books {State Label : Type*} {Steps : State → Label → State → Prop} {start state : State}
    {moves : List (Transition.Move State Label)} (view : State → KvStore)
    {created deleted forgotten : Transition.Move State Label → Bool}
    (run : Transition.Run Steps start moves state)
    (balanced : ∀ move ∈ moves, Balanced (view move.source) (view move.target) (created move)
      (deleted move) (forgotten move)) :
    (view state).size + moves.countP deleted + (view state).statExpired +
        moves.countP forgotten =
      (view start).size + (view start).statExpired + moves.countP created := by
  induction run with
  | nil => rfl
  | @snoc moves state after label run step inductionHypothesis =>
      have before := inductionHypothesis fun move mem =>
        balanced move (List.mem_append_left _ mem)
      have last := balanced ⟨state, label, after⟩
        (List.mem_append_right _ (List.mem_singleton_self _))
      have flag : ∀ kind : Bool, (if kind = true then 1 else 0) = kind.toNat := by
        intro kind
        cases kind with
        | false => rfl
        | true => rfl
      simp only [List.countP_append, List.countP_singleton, flag, Balanced] at last ⊢
      omega

/-- The books agree without the removals that are not counted if and only if there are
none. -/
theorem books_agree_iff {State Label : Type*} {Steps : State → Label → State → Prop}
    {start state : State} {moves : List (Transition.Move State Label)} (view : State → KvStore)
    {created deleted forgotten : Transition.Move State Label → Bool}
    (run : Transition.Run Steps start moves state)
    (balanced : ∀ move ∈ moves, Balanced (view move.source) (view move.target) (created move)
      (deleted move) (forgotten move))
    (opening : (view start).size + (view start).statExpired = 0) :
    moves.countP created =
        (view state).size + moves.countP deleted + (view state).statExpired ↔
      ∀ move ∈ moves, forgotten move = false := by
  have closing := books view run balanced
  have none : moves.countP forgotten = 0 ↔ ∀ move ∈ moves, forgotten move = false := by
    simp only [List.countP_eq_zero, Bool.not_eq_true]
  rw [← none]
  omega

namespace Step

variable {Tid : Type} [DecidableEq Tid] {system after : System Tid} {events : List Event}

theorem timely (step : Step system events after)
    (timely : ∀ tid, (system.threads tid).Timely) : ∀ tid, (after.threads tid).Timely := by
  cases step with
  | tick elapsed => exact timely
  | call tid op served idle => exact Pc.forall_update timely tid trivial
  | advance tid move available =>
      exact Pc.forall_update timely tid (move.timely (by simp) (timely tid))
  | ret tid result returning => exact Pc.forall_update timely tid trivial

/-- Every step of the concurrent machine balances. -/
theorem balanced (step : Step system events after)
    (timely : ∀ tid, (system.threads tid).Timely) :
    Balanced system.store after.store (takesEffect creates ⟨system, events, after⟩)
      (takesEffect deletes ⟨system, events, after⟩)
      (takesEffect forgets ⟨system, events, after⟩) := by
  cases step with
  | tick elapsed => exact Balanced.refl system.store
  | call tid op served idle => exact Balanced.refl system.store
  | @advance tid store pc use effect move available =>
      have balanced := move.balanced (timely tid)
      cases effect with
      | none => exact balanced
      | some point =>
          simp only [takesEffect, Option.map_some, Option.toList_some, List.any_cons,
            List.any_nil, Bool.or_false]
          exact balanced
  | ret tid result returning => exact Balanced.refl system.store

end Step

/-- From an empty store, whether its operations are called one after another or by any
number of threads at once: the entries created are those in the shards, those deleted and
those counted as expired if and only if no `expire`, `expire_at` or `persist` has met an
expired entry. -/
theorem accounting_iff {nShards : ℕ} (powerOfTwo : nShards.isPowerOfTwo)
    (aof : Option AofWriter) (enableTtl : Bool) :
    (∀ moves store, Transition.Run Called (KvStore.empty powerOfTwo aof enableTtl) moves store →
      (moves.countP (called creates) =
          store.size + moves.countP (called deletes) + store.statExpired ↔
        ∀ move ∈ moves, called forgets move = false)) ∧
    ∀ (Tid : Type) [DecidableEq Tid] (clock : ℕ) moves (system : System Tid),
      Transition.Run Step (System.initial powerOfTwo aof enableTtl clock) moves system →
      (moves.countP (takesEffect creates) =
          system.store.size + moves.countP (takesEffect deletes) + system.store.statExpired ↔
        ∀ move ∈ moves, takesEffect forgets move = false) := by
  have opening : (KvStore.empty powerOfTwo aof enableTtl).size +
      (KvStore.empty powerOfTwo aof enableTtl).statExpired = 0 := by
    rw [KvStore.size_empty]
    rfl
  constructor
  · intro moves store run
    refine books_agree_iff id run ?_ opening
    intro move mem
    rcases List.append_of_mem mem with ⟨before, later, parts⟩
    have step : move.target = (move.source.exec move.label).2 := (run.split parts).2
    simp only [id, step]
    exact move.source.exec_balanced move.label
  · intro Tid _ clock moves system run
    refine books_agree_iff System.store run ?_ opening
    intro move mem
    rcases List.append_of_mem mem with ⟨before, later, parts⟩
    rcases run.split parts with ⟨reached, step⟩
    apply step.balanced
    exact reached.invariant (fun _ => trivial) fun _ _ _ _ _ timely step => step.timely timely

/-- The books of a `SET` with a deadline and a late `GET`, and of a `SET` in the middle of
its sections. -/
theorem accounting_iff_set :
    (∃ moves store, Transition.Run Called (KvStore.empty KvStore.defaultShards none true) moves
        store ∧ store.statExpired = 1 ∧ moves.countP (called creates) =
          store.size + moves.countP (called deletes) + store.statExpired) ∧
    ∃ moves, ∃ system : System Unit,
      Transition.Run Step (System.initial KvStore.defaultShards none true 5) moves system ∧
        moves.length = 4 ∧ moves.countP (takesEffect creates) =
          system.store.size + moves.countP (takesEffect deletes) + system.store.statExpired := by
  constructor
  · have run := ((@Transition.Run.nil _ _ Called
      (KvStore.empty KvStore.defaultShards none true)).snoc
        (@rfl _ (KvStore.exec _ ⟨.setEx (ascii "k") (ascii "v") 1, 0, 0⟩).2)).snoc
        (@rfl _ (KvStore.exec _ ⟨.get (ascii "k"), 2000, 2000⟩).2)
    refine ⟨_, _, run, by decide, ?_⟩
    exact ((accounting_iff KvStore.defaultShards none true).1 _ _ run).mpr (by decide)
  · have called := (@Transition.Run.nil _ _ Step
      (System.initial KvStore.defaultShards none true 5 : System Unit)).snoc
        (Step.call () (.set (ascii "k") (ascii "v")) trivial rfl)
    have locked := called.snoc (Step.advance () (Move.setLock (ascii "k") (ascii "v")) fun _ => rfl)
    have logged := locked.snoc (Step.advance () (Move.setLog (ascii "k") (ascii "v")) (by simp))
    have stored := logged.snoc (Step.advance () (Move.setStore (ascii "k") (ascii "v")) (by simp))
    refine ⟨_, _, stored, rfl, ?_⟩
    exact ((accounting_iff KvStore.defaultShards none true).2 Unit 5 _ _ stored).mpr (by decide)

/-- `SET k v EX 1`, and a second later `EXPIRE k 10`: the entry is gone, and neither deleted
nor counted as expired. -/
theorem not_accounting :
    ¬ ∀ moves store, Transition.Run Called (KvStore.empty KvStore.defaultShards none true) moves
        store → Chronological 0 (moves.map Transition.Move.label) →
      moves.countP (called creates) =
        store.size + moves.countP (called deletes) + store.statExpired := by
  intro conserved
  have run := ((@Transition.Run.nil _ _ Called
    (KvStore.empty KvStore.defaultShards none true)).snoc
      (@rfl _ (KvStore.exec _ ⟨.setEx (ascii "k") (ascii "v") 1, 0, 0⟩).2)).snoc
      (@rfl _ (KvStore.exec _ ⟨.expire (ascii "k") 10, 1000, 1000⟩).2)
  exact absurd (conserved _ _ run (by decide)) (by decide)

end RedisCpp.Store
