import RedisCpp.Store.AofWriter
import Mathlib.Data.List.AList
import Mathlib.Data.Fintype.Basic
import Mathlib.Algebra.BigOperators.Fin

/-!
# The sharded key-value store

`KvStore` spreads its entries over a power-of-two number of shards by a hash of
the key.  The structure carries the two facts on which everything else rests: the
number of shards is a power of two, so the masked hash is a shard index, and every
key lives in the shard its hash selects.

The lock-protected sections of the source are functions of their own
(`getShared`, `reap`, `assignDeadline`, `clearDeadline`, `put`, `erase`), each
with the clock reading it takes.  The sequential operations are composed of them,
and so are the steps of the concurrent machine.
-/

namespace RedisCpp.Store

/-- A stored value with its absolute deadline; a negative deadline means none. -/
structure Entry where
  value : Bytes
  expireAtMs : ℤ := -1
deriving DecidableEq, Repr

namespace Entry

/-- `e.expire_at_ms < 0 || now < e.expire_at_ms`. -/
def live (entry : Entry) (now : ℤ) : Bool :=
  entry.expireAtMs < 0 || now < entry.expireAtMs

/-- `e.expire_at_ms >= 0 && now >= e.expire_at_ms`. -/
def expired (entry : Entry) (now : ℤ) : Bool :=
  0 ≤ entry.expireAtMs && entry.expireAtMs ≤ now

@[simp]
theorem expired_eq_not_live (entry : Entry) (now : ℤ) :
    entry.expired now = !entry.live now := by
  simp only [expired, live, Bool.not_or]
  congr 1
  · by_cases negative : entry.expireAtMs < 0
    · simp [negative]
    · simp [negative, not_lt.mp negative]
  · by_cases before : now < entry.expireAtMs
    · simp [before]
    · simp [before, not_lt.mp before]

/-- Once expired, an entry stays expired. -/
theorem live_of_le {entry : Entry} {earlier later : ℤ} (le : earlier ≤ later)
    (live : entry.live later = true) : entry.live earlier = true := by
  simp only [Entry.live, Bool.or_eq_true, decide_eq_true_eq] at live ⊢
  omega

end Entry

/-- The map of a shard.  Its iteration order plays no role. -/
abbrev Shard := AList (fun _ : Bytes => Entry)

/-- The DJB2 hash of `shard_index`, in `uint64_t` arithmetic. -/
def djb2 (key : Bytes) : UInt64 :=
  key.foldl (fun hash byte => ((hash <<< 5) + hash) ^^^ byte.toUInt64) 5381

/-- `shard_index`: the hash masked to the number of shards. -/
def shardIndex {nShards : ℕ} (powerOfTwo : nShards.isPowerOfTwo) (key : Bytes) : Fin nShards :=
  ⟨(djb2 key).toNat &&& (nShards - 1), by
    rcases powerOfTwo with ⟨exponent, rfl⟩
    rw [Nat.and_two_pow_sub_one_eq_mod]
    exact Nat.mod_lt _ (Nat.two_pow_pos exponent)⟩

/-- The store.  `aof` is the attached log writer, `ttlHeap` the entries pushed to
the TTL manager when one exists; both are `none` for a null pointer. -/
structure KvStore where
  nShards : ℕ
  powerOfTwo : nShards.isPowerOfTwo
  shards : Fin nShards → Shard
  placed : ∀ index key, key ∈ shards index → shardIndex powerOfTwo key = index
  aof : Option AofWriter
  ttlHeap : Option (List (ℤ × Bytes))
  statSet : ℕ
  statGet : ℕ
  statDel : ℕ
  statExpired : ℕ

namespace KvStore

/-- An empty store over a power-of-two number of shards. -/
def empty {nShards : ℕ} (powerOfTwo : nShards.isPowerOfTwo) (aof : Option AofWriter)
    (enableTtl : Bool) : KvStore where
  nShards := nShards
  powerOfTwo := powerOfTwo
  shards := fun _ => ∅
  placed := fun _ key mem => absurd mem (AList.notMem_empty key)
  aof := aof
  ttlHeap := if enableTtl then some [] else none
  statSet := 0
  statGet := 0
  statDel := 0
  statExpired := 0

/-- The constructor; `none` stands for `std::invalid_argument`. -/
def create (nShards : ℕ) (aof : Option AofWriter) (enableTtl : Bool) : Option KvStore :=
  if valid : nShards ≠ 0 ∧ nShards &&& (nShards - 1) = 0 then
    some (empty (Nat.ne_zero_and_sub_one_eq_zero_iff_isPowerOfTwo.mp valid) aof enableTtl)
  else none

/-- `DEFAULT_SHARDS`. -/
theorem defaultShards : Nat.isPowerOfTwo 16 :=
  ⟨4, rfl⟩

variable (store : KvStore)

/-- `shard_for`. -/
def shardFor (key : Bytes) : Shard :=
  store.shards (shardIndex store.powerOfTwo key)

/-- `shard.map.find(key)` in the shard of the key. -/
def find (key : Bytes) : Option Entry :=
  (store.shardFor key).lookup key

/-- Write the entry of a key in its shard. -/
def put (key : Bytes) (entry : Entry) : KvStore :=
  { store with
    shards := Function.update store.shards (shardIndex store.powerOfTwo key)
      ((store.shardFor key).insert key entry)
    placed := by
      intro index other mem
      by_cases same : index = shardIndex store.powerOfTwo key
      · subst index
        rw [Function.update_self, AList.mem_insert] at mem
        rcases mem with rfl | old
        · rfl
        · exact store.placed _ other old
      · rw [Function.update_of_ne same] at mem
        exact store.placed index other mem }

/-- Erase a key from its shard. -/
def erase (key : Bytes) : KvStore :=
  { store with
    shards := Function.update store.shards (shardIndex store.powerOfTwo key)
      ((store.shardFor key).erase key)
    placed := by
      intro index other mem
      by_cases same : index = shardIndex store.powerOfTwo key
      · subst index
        rw [Function.update_self, AList.mem_erase] at mem
        exact store.placed _ other mem.2
      · rw [Function.update_of_ne same] at mem
        exact store.placed index other mem }

/-- `if (aof_) aof_->log_…`. -/
def log (record : Record) : KvStore :=
  { store with aof := store.aof.map (·.writeResp record) }

/-- `if (ttl_mgr_) ttl_mgr_->schedule(key, expire_at_ms)`. -/
def schedule (key : Bytes) (expireAtMs : ℤ) : KvStore :=
  { store with ttlHeap := store.ttlHeap.map ((expireAtMs, key) :: ·) }

def addSet : KvStore := { store with statSet := store.statSet + 1 }

def addGet : KvStore := { store with statGet := store.statGet + 1 }

def addDel : KvStore := { store with statDel := store.statDel + 1 }

def addExpired : KvStore := { store with statExpired := store.statExpired + 1 }

/-- The records of the attached log, in file order. -/
def records : List Record :=
  match store.aof with
  | none => []
  | some writer => writer.records

@[simp]
theorem find_put (key other : Bytes) (entry : Entry) :
    (store.put key entry).find other = if other = key then some entry else store.find other := by
  by_cases equal : other = key
  · subst other
    simp [find, shardFor, put]
  · rw [if_neg equal]
    by_cases same : shardIndex store.powerOfTwo other = shardIndex store.powerOfTwo key
    · simp [find, shardFor, put, same, AList.lookup_insert_ne equal]
    · simp [find, shardFor, put, Function.update_of_ne same]

@[simp]
theorem find_erase (key other : Bytes) :
    (store.erase key).find other = if other = key then none else store.find other := by
  by_cases equal : other = key
  · subst other
    simp [find, shardFor, erase]
  · rw [if_neg equal]
    by_cases same : shardIndex store.powerOfTwo other = shardIndex store.powerOfTwo key
    · simp [find, shardFor, erase, same, AList.lookup_erase_ne equal]
    · simp [find, shardFor, erase, Function.update_of_ne same]

@[simp] theorem find_log (record : Record) : (store.log record).find = store.find := rfl

@[simp] theorem find_schedule (key : Bytes) (expireAtMs : ℤ) :
    (store.schedule key expireAtMs).find = store.find := rfl

@[simp] theorem find_addSet : store.addSet.find = store.find := rfl

@[simp] theorem find_addGet : store.addGet.find = store.find := rfl

@[simp] theorem find_addDel : store.addDel.find = store.find := rfl

@[simp] theorem find_addExpired : store.addExpired.find = store.find := rfl

@[simp] theorem aof_put (key : Bytes) (entry : Entry) : (store.put key entry).aof = store.aof := rfl

@[simp] theorem aof_erase (key : Bytes) : (store.erase key).aof = store.aof := rfl

@[simp] theorem aof_schedule (key : Bytes) (expireAtMs : ℤ) :
    (store.schedule key expireAtMs).aof = store.aof := rfl

@[simp] theorem aof_log (record : Record) :
    (store.log record).aof = store.aof.map (·.writeResp record) := rfl

@[simp] theorem aof_addSet : store.addSet.aof = store.aof := rfl

@[simp] theorem aof_addGet : store.addGet.aof = store.aof := rfl

@[simp] theorem aof_addDel : store.addDel.aof = store.aof := rfl

@[simp] theorem aof_addExpired : store.addExpired.aof = store.aof := rfl

@[simp]
theorem find_empty {nShards : ℕ} (powerOfTwo : nShards.isPowerOfTwo) (aof : Option AofWriter)
    (enableTtl : Bool) (key : Bytes) : (empty powerOfTwo aof enableTtl).find key = none := by
  simp [empty, find, shardFor]

/-! ## Lock-protected sections -/

/-- What the shared section of `get` finds. -/
inductive Lookup where
  | missing
  | hit (value : Bytes)
  | stale
deriving DecidableEq, Repr

/-- The shared section of `get`. -/
def getShared (key : Bytes) (now : ℤ) : Lookup :=
  match store.find key with
  | none => .missing
  | some entry => if entry.live now then .hit entry.value else .stale

/-- The exclusive section of `get` and of `on_ttl_expired`: the entry is removed
only if it is still there and still expired. -/
def reap (key : Bytes) (now : ℤ) : KvStore :=
  match store.find key with
  | none => store
  | some entry => if entry.expired now then (store.erase key).addExpired else store

/-- The section of `expire` and of `expire_at`. -/
def assignDeadline (key : Bytes) (expireAtMs now : ℤ) : Bool × KvStore :=
  match store.find key with
  | none => (false, store)
  | some entry =>
      if entry.expired now then (false, store.erase key)
      else (true, store.put key { entry with expireAtMs := expireAtMs })

/-- The section of `persist`; a success returns the value to be logged. -/
def clearDeadline (key : Bytes) (now : ℤ) : Option Bytes × KvStore :=
  match store.find key with
  | none => (none, store)
  | some entry =>
      if entry.expireAtMs = -1 then (none, store)
      else if entry.expired now then (none, store.erase key)
      else (some entry.value, store.put key { entry with expireAtMs := -1 })

/-- The section of `ttl`. -/
def ttl (key : Bytes) (now : ℤ) : ℤ :=
  match store.find key with
  | none => -2
  | some entry =>
      if entry.expireAtMs < 0 then -1
      else if entry.expireAtMs - now ≤ 0 then -2
      else (entry.expireAtMs - now).tdiv 1000

/-! ## Operations -/

/-- `epoch_ms() + ttl_s * 1000` in `int64_t` arithmetic. -/
def deadlineAt (now ttlS : ℤ) : ℤ :=
  wrap64 (now + wrap64 (ttlS * 1000))

def setInternal (key value : Bytes) (expireAtMs : ℤ) : KvStore :=
  let written := store.put key { value, expireAtMs }
  if 0 < expireAtMs then written.schedule key expireAtMs else written

def set (key value : Bytes) : Bool × KvStore :=
  (true, (store.addSet.log (.set key value)).setInternal key value (-1))

def setAbsolute (key value : Bytes) (expireAtMs : ℤ) : Bool × KvStore :=
  (true, (store.addSet.log (.setEx key value expireAtMs)).setInternal key value expireAtMs)

def setEx (key value : Bytes) (ttlS now : ℤ) : Bool × KvStore :=
  if ttlS ≤ 0 then (false, store)
  else store.setAbsolute key value (deadlineAt now ttlS)

/-- `get`, with the clock readings of its two sections. -/
def get (key : Bytes) (now later : ℤ) : Option Bytes × KvStore :=
  match store.addGet.getShared key now with
  | .missing => (none, store.addGet)
  | .hit value => (some value, store.addGet)
  | .stale => (none, store.addGet.reap key later)

def del (key : Bytes) : Bool × KvStore :=
  let logged := store.addDel.log (.del key)
  ((logged.find key).isSome, logged.erase key)

def expireAt (key : Bytes) (expireAtMs now : ℤ) : Bool × KvStore :=
  match store.assignDeadline key expireAtMs now with
  | (false, after) => (false, after)
  | (true, after) => (true, (after.log (.expire key expireAtMs)).schedule key expireAtMs)

/-- `expire` reads the clock once for the deadline and once for the expiry check;
from there on it does what `expire_at` does. -/
def expire (key : Bytes) (ttlS now later : ℤ) : Bool × KvStore :=
  if ttlS ≤ 0 then (false, store)
  else store.expireAt key (deadlineAt now ttlS) later

def persist (key : Bytes) (now : ℤ) : Bool × KvStore :=
  match store.clearDeadline key now with
  | (none, after) => (false, after)
  | (some value, after) => (true, after.log (.set key value))

def onTtlExpired (key : Bytes) (now : ℤ) : KvStore :=
  store.reap key now

/-- Number of live entries in one shard. -/
def liveCount (shard : Shard) (now : ℤ) : ℕ :=
  shard.entries.countP fun entry => entry.2.live now

def count (now : ℤ) : ℕ :=
  ∑ index, liveCount (store.shards index) now

def info (now : ℤ) : Bytes :=
  ascii "# Stats\r\n" ++
    ascii "keys:" ++ Decimal.print (store.count now) ++ crlf ++
    ascii "total_set:" ++ Decimal.print store.statSet ++ crlf ++
    ascii "total_get:" ++ Decimal.print store.statGet ++ crlf ++
    ascii "total_del:" ++ Decimal.print store.statDel ++ crlf ++
    ascii "total_expired:" ++ Decimal.print store.statExpired ++ crlf ++
    ascii "shards:" ++ Decimal.print store.nShards ++ crlf

end KvStore

/-! ## Runs -/

/-- A call of one of the store's operations. -/
inductive Op where
  | set (key value : Bytes)
  | setEx (key value : Bytes) (ttlS : ℤ)
  | setAbsolute (key value : Bytes) (expireAtMs : ℤ)
  | get (key : Bytes)
  | del (key : Bytes)
  | expire (key : Bytes) (ttlS : ℤ)
  | expireAt (key : Bytes) (expireAtMs : ℤ)
  | persist (key : Bytes)
  | ttl (key : Bytes)
  | count
  | onTtlExpired (key : Bytes)
deriving DecidableEq, Repr

/-- What a call returns. -/
inductive Result where
  | flag (success : Bool)
  | value (found : Option Bytes)
  | seconds (remaining : ℤ)
  | size (keys : ℕ)
  | void
deriving DecidableEq, Repr

/-- A call with the at most two clock readings that it takes, in order. -/
structure TimedOp where
  op : Op
  now : ℤ
  later : ℤ
deriving DecidableEq, Repr

namespace KvStore

/-- Execute one call. -/
def exec (store : KvStore) (call : TimedOp) : Result × KvStore :=
  match call.op with
  | .set key value => Prod.map .flag id (store.set key value)
  | .setEx key value ttlS => Prod.map .flag id (store.setEx key value ttlS call.now)
  | .setAbsolute key value expireAtMs =>
      Prod.map .flag id (store.setAbsolute key value expireAtMs)
  | .get key => Prod.map .value id (store.get key call.now call.later)
  | .del key => Prod.map .flag id (store.del key)
  | .expire key ttlS => Prod.map .flag id (store.expire key ttlS call.now call.later)
  | .expireAt key expireAtMs => Prod.map .flag id (store.expireAt key expireAtMs call.now)
  | .persist key => Prod.map .flag id (store.persist key call.now)
  | .ttl key => (.seconds (store.ttl key call.now), store)
  | .count => (.size (store.count call.now), store)
  | .onTtlExpired key => (.void, store.onTtlExpired key call.now)

/-- The store after a sequence of calls. -/
def run (store : KvStore) (calls : List TimedOp) : KvStore :=
  calls.foldl (fun current call => (current.exec call).2) store

@[simp] theorem run_nil (store : KvStore) : store.run [] = store := rfl

@[simp] theorem run_cons (store : KvStore) (call : TimedOp) (calls : List TimedOp) :
    store.run (call :: calls) = (store.exec call).2.run calls := rfl

/-- The results of a sequence of calls. -/
def results (store : KvStore) : List TimedOp → List Result
  | [] => []
  | call :: calls => (store.exec call).1 :: (store.exec call).2.results calls

end KvStore

/-- Every call of a run, with the store it is made on, satisfies a predicate. -/
def Throughout (property : KvStore → TimedOp → Prop) (store : KvStore) : List TimedOp → Prop
  | [] => True
  | call :: calls => property store call ∧ Throughout property (store.exec call).2 calls

/-- The clock never goes back, neither between calls nor within one. -/
def Chronological : ℤ → List TimedOp → Prop
  | _, [] => True
  | start, call :: calls =>
      start ≤ call.now ∧ call.now ≤ call.later ∧ Chronological call.later calls

instance Chronological.decidable : ∀ start calls, Decidable (Chronological start calls)
  | _, [] => isTrue trivial
  | start, call :: calls =>
      have := Chronological.decidable call.later calls
      inferInstanceAs (Decidable (start ≤ call.now ∧ call.now ≤ call.later ∧
        Chronological call.later calls))

/-- The last clock reading of a sequence of calls. -/
def lastReading (start : ℤ) (calls : List TimedOp) : ℤ :=
  calls.foldl (fun _ call => call.later) start

theorem le_lastReading {start : ℤ} {calls : List TimedOp}
    (chronological : Chronological start calls) :
    start ≤ lastReading start calls := by
  induction calls generalizing start with
  | nil => exact le_refl start
  | cons call calls inductionHypothesis =>
      rcases chronological with ⟨before, ordered, rest⟩
      exact before.trans (ordered.trans (inductionHypothesis rest))

theorem chronological_append {start : ℤ} {left right : List TimedOp} :
    Chronological start (left ++ right) ↔
      Chronological start left ∧ Chronological (lastReading start left) right := by
  induction left generalizing start with
  | nil => simp [Chronological, lastReading]
  | cons call calls inductionHypothesis =>
      simp [Chronological, inductionHypothesis, lastReading, and_assoc]

end RedisCpp.Store
