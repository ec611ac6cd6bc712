import RedisCpp.Store.Recovery

/-!
# The life of a server

A server is started again and again on the same log.  `main` opens the file in append mode, replays
it into an empty store without a writer, and attaches the writer afterwards.  A clean shutdown
leaves the whole log; a loss of power may leave only its first records.  The log is cut between
two records throughout: a record that is cut in two spoils those appended behind it.

As long as no call buries or revives a key with regard to a restart that is still to come, every
restart gives the live part of what the memory was, at the shutdown or at an earlier moment.  It is
exactly this condition under which a restart could come at any moment.
-/

namespace RedisCpp.Store

/-- What happens to a server: a call, or a restart at `now` when the first `kept` records of the log
are left. -/
inductive Incident where
  | call (call : TimedOp)
  | restart (kept : ℕ) (now : ℤ)

namespace Incident

/-- The first reading of the clock. -/
def now : Incident → ℤ
  | .call made => made.now
  | .restart _ now => now

/-- The last reading of the clock. -/
def later : Incident → ℤ
  | .call made => made.later
  | .restart _ now => now

end Incident

namespace KvStore

def setAof (store : KvStore) (aof : Option AofWriter) : KvStore :=
  { store with aof := aof }

@[simp] theorem find_setAof (store : KvStore) (aof : Option AofWriter) :
    (store.setAof aof).find = store.find := rfl

/-- The store with which `main` enters its event loop. -/
def ofLog (now : ℤ) (records : List Record) : KvStore :=
  (recover now (fileBytes records)).setAof (some { records })

@[simp] theorem records_ofLog (now : ℤ) (records : List Record) :
    (ofLog now records).records = records := rfl

@[simp] theorem find_ofLog (now : ℤ) (records : List Record) :
    (ofLog now records).find = (recover now (fileBytes records)).find := rfl

def incur (store : KvStore) : Incident → KvStore
  | .call call => (store.exec call).2
  | .restart kept now => ofLog now (store.records.take kept)

/-- The store after a sequence of calls and restarts. -/
def live (store : KvStore) (incidents : List Incident) : KvStore :=
  incidents.foldl incur store

@[simp] theorem live_nil (store : KvStore) : store.live [] = store := rfl

@[simp] theorem live_cons (store : KvStore) (incident : Incident) (incidents : List Incident) :
    store.live (incident :: incidents) = (store.incur incident).live incidents := rfl

theorem live_append_singleton (store : KvStore) (incidents : List Incident) (incident : Incident) :
    store.live (incidents ++ [incident]) = (store.live incidents).incur incident := by
  simp [live]

end KvStore

/-- The clock never goes back.  A call may have read it before the call before it took effect. -/
def Orderly : ℤ → List Incident → Prop
  | _, [] => True
  | start, incident :: incidents =>
      start ≤ incident.later ∧ incident.now ≤ incident.later ∧ Orderly incident.later incidents

/-- A call neither buries nor revives a key with regard to any restart to come. -/
def Incident.Spares (store : KvStore) (incidents : List Incident) : Incident → Prop
  | .call made => ∀ kept now, .restart kept now ∈ incidents →
      ¬made.Buries now store ∧ ¬made.Revives now store
  | .restart _ _ => True

/-- All calls of a life spare what is restarted. -/
def Spared (store : KvStore) : List Incident → Prop
  | [] => True
  | incident :: incidents =>
      incident.Spares store incidents ∧ Spared (store.incur incident) incidents

/-- The live part of a memory, and nothing else. -/
def Exact (now : ℤ) (recovered original : KvStore) : Prop :=
  ∀ key, recovered.find key = ExpiringMap.visible Entry.live now (original.find key)

/-- Recovery of the records, and of the first ones of them, is exact. -/
def Recovers (now : ℤ) (records : List Record) : Prop :=
  ∀ count, RecoversSoundly now (records.take count) ∧ RecoversCompletely now (records.take count)

namespace Recovers

variable {now : ℤ} {records : List Record}

theorem nil (now : ℤ) : Recovers now [] := by
  intro count
  rw [List.take_nil]
  exact ⟨recoversSoundly_nil now, recoversCompletely_nil now⟩

theorem whole (recovers : Recovers now records) :
    RecoversSoundly now records ∧ RecoversCompletely now records := by
  have all := recovers records.length
  rwa [List.take_length] at all

theorem take (recovers : Recovers now records) (kept : ℕ) : Recovers now (records.take kept) := by
  intro count
  rw [List.take_take]
  exact recovers _

theorem append (recovers : Recovers now records) {record : Record}
    (sound : RecoversSoundly now (records ++ [record]))
    (complete : RecoversCompletely now (records ++ [record])) :
    Recovers now (records ++ [record]) := by
  intro count
  rcases Nat.lt_or_ge records.length count with past | within
  · rw [List.take_of_length_le (by simpa using past)]
    exact ⟨sound, complete⟩
  · rw [List.take_append_of_le_length within]
    exact recovers count

end Recovers

/-- What records that can be read back denote can be written again. -/
theorem applyLog_fits {records : List Record} (fits : ∀ record ∈ records, record.Fits) {key : Bytes}
    {entry : Entry} (denoted : applyLog records key = some entry) :
    entry.value.length ≤ maxStringSize := by
  induction records using List.reverseRecOn generalizing entry with
  | nil => cases denoted
  | append_singleton records record inductionHypothesis =>
      have earlier : ∀ record ∈ records, record.Fits := fun other mem =>
        fits other (List.mem_append_left _ mem)
      have last : record.Fits := fits record (List.mem_append_right _ (List.mem_singleton_self _))
      rw [applyLog_append_singleton, Record.apply, Function.update_apply] at denoted
      split at denoted
      · rename_i same
        subst same
        cases record with
        | set key value =>
            cases denoted
            exact last.2
        | setEx key value expireAtMs =>
            cases denoted
            exact last.2.1
        | del key => cases denoted
        | expire key expireAtMs =>
            rcases Option.map_eq_some_iff.mp denoted with ⟨previous, held, rfl⟩
            have fitting : previous.value.length ≤ maxStringSize := inductionHypothesis earlier held
            exact fitting
      · exact inductionHypothesis earlier denoted

namespace Journaled

variable {start now : ℤ} {store : KvStore}

theorem exact_iff (journaled : Journaled start store) (le : start ≤ now) :
    Exact now (.ofLog now store.records) store ↔
      RecoversSoundly now store.records ∧ RecoversCompletely now store.records := by
  simp only [Exact, KvStore.find_ofLog, find_recover journaled.recordsFit, RecoversSoundly,
    RecoversCompletely, journaled.visible_eq le]
  constructor
  · intro exactly
    constructor
    · intro key entry recovered
      rw [← exactly, recovered]
    · intro key entry seen
      rw [exactly, seen]
  · rintro ⟨sound, complete⟩ key
    cases seen : ExpiringMap.visible Entry.live now (store.find key) with
    | some entry => exact complete key entry seen
    | none =>
        cases recovered : recoverLog now store.records key with
        | none => rfl
        | some entry =>
            have visible := sound key entry recovered
            rw [seen] at visible
            cases visible

/-- A restart from a log that can be recovered. -/
theorem restart {records : List Record} (fits : ∀ record ∈ records, record.Fits)
    (sound : RecoversSoundly now records) (complete : RecoversCompletely now records) :
    Journaled now (.ofLog now records) where
  attached := ⟨_, rfl⟩
  recordsFit := fits
  valuesFit := by
    intro key entry present
    rw [KvStore.find_ofLog, find_recover fits] at present
    exact applyLog_fits fits (visible_eq_some.mp (sound key entry present)).1
  agrees := by
    intro key
    rw [KvStore.find_ofLog, find_recover fits, KvStore.records_ofLog]
    cases recovered : recoverLog now records key with
    | some entry =>
        left
        exact (visible_eq_some.mp (sound key entry recovered)).1.symm
    | none =>
        cases denoted : applyLog records key with
        | none => exact Or.inl rfl
        | some entry =>
            refine Or.inr ⟨rfl, entry, rfl, ?_⟩
            by_contra alive
            have kept := complete key entry (visible_eq_some.mpr ⟨denoted, by simpa using alive⟩)
            rw [recovered] at kept
            cases kept

end Journaled

/-! ## Lives -/

/-- A life that goes on with the log and the memory in agreement. -/
structure Standing (start : ℤ) (store : KvStore) (incidents : List Incident) : Prop where
  journaled : Journaled start store
  orderly : Orderly start incidents
  admissible : ∀ call, .call call ∈ incidents → call.Admissible
  recovers : ∀ kept now, .restart kept now ∈ incidents → Recovers now store.records

theorem le_of_mem {start : ℤ} {incidents : List Incident} (orderly : Orderly start incidents)
    {incident : Incident} (mem : incident ∈ incidents) : start ≤ incident.later := by
  induction incidents generalizing start with
  | nil => cases mem
  | cons first rest inductionHypothesis =>
      rcases orderly with ⟨before, -, later⟩
      rcases List.mem_cons.mp mem with rfl | behind
      · exact before
      · exact before.trans (inductionHypothesis later behind)

namespace Standing

variable {start : ℤ} {store : KvStore} {incident : Incident} {incidents front rest : List Incident}

theorem call {made : TimedOp} (standing : Standing start store (.call made :: incidents))
    (spares : Incident.Spares store incidents (.call made)) :
    Standing made.later (store.exec made).2 incidents := by
  rcases standing with ⟨journaled, ⟨before, ordered, orderly⟩, admissible, recovers⟩
  have accepted : made.Admissible := admissible made List.mem_cons_self
  refine ⟨journaled.exec_of_later before ordered accepted, orderly,
    fun other mem => admissible other (List.mem_cons_of_mem _ mem), ?_⟩
  intro kept now mem
  have recoversNow := recovers kept now (List.mem_cons_of_mem _ mem)
  have le : start ≤ now := before.trans (le_of_mem orderly mem)
  rcases spares kept now mem with ⟨noBurial, noRevival⟩
  have sound := journaled.soundly_exec le ordered accepted noBurial recoversNow.whole.1
  have complete := journaled.completely_exec ordered accepted noRevival recoversNow.whole.2
  rcases journaled.exec_records ordered with ⟨same, -⟩ | ⟨record, -, appended, -⟩
  · rw [same]
    exact recoversNow
  · rw [appended] at sound complete ⊢
    exact recoversNow.append sound complete

theorem restart {kept : ℕ} {now : ℤ}
    (standing : Standing start store (.restart kept now :: incidents)) :
    Standing now (.ofLog now (store.records.take kept)) incidents := by
  rcases standing with ⟨journaled, ⟨-, -, orderly⟩, admissible, recovers⟩
  have fits : ∀ record ∈ store.records.take kept, record.Fits := fun record mem =>
    journaled.recordsFit record (List.mem_of_mem_take mem)
  rcases recovers kept now List.mem_cons_self kept with ⟨sound, complete⟩
  refine ⟨.restart fits sound complete, orderly,
    fun other mem => admissible other (List.mem_cons_of_mem _ mem), ?_⟩
  intro other later mem
  rw [KvStore.records_ofLog]
  exact (recovers other later (List.mem_cons_of_mem _ mem)).take kept

theorem step (standing : Standing start store (incident :: incidents))
    (spares : incident.Spares store incidents) :
    Standing incident.later (store.incur incident) incidents := by
  cases incident with
  | call made => exact standing.call spares
  | restart kept now => exact standing.restart

theorem stage (standing : Standing start store (front ++ rest))
    (spared : Spared store (front ++ rest)) :
    ∃ now, Standing now (store.live front) rest := by
  induction front generalizing start store with
  | nil => exact ⟨start, standing⟩
  | cons incident front inductionHypothesis =>
      exact inductionHypothesis (standing.step spared.1) spared.2

end Standing

/-! ## Every moment of a life -/

section Lives

variable {nShards : ℕ} (powerOfTwo : nShards.isPowerOfTwo) (enableTtl : Bool) {start : ℤ}
  {incidents : List Incident}

theorem Standing.fresh (orderly : Orderly start incidents)
    (admissible : ∀ call, .call call ∈ incidents → call.Admissible) :
    Standing start (.empty powerOfTwo (some {}) enableTtl) incidents := by
  refine ⟨.empty powerOfTwo enableTtl start, orderly, admissible, ?_⟩
  intro kept now mem
  exact .nil now

/-- At every moment, recovery at any restart to come is exact. -/
def ExactThroughout (store : KvStore) (incidents : List Incident) : Prop :=
  ∀ front rest, incidents = front ++ rest → ∀ kept now, .restart kept now ∈ rest →
    Exact now (.ofLog now (store.live front).records) (store.live front)

variable {store : KvStore}

theorem Standing.exact (standing : Standing start store incidents) {kept : ℕ} {now : ℤ}
    (mem : .restart kept now ∈ incidents) : Exact now (.ofLog now store.records) store :=
  (standing.journaled.exact_iff (le_of_mem standing.orderly mem)).mpr
    (standing.recovers kept now mem).whole

theorem ExactThroughout.tail {incident : Incident}
    (exactly : ExactThroughout store (incident :: incidents)) :
    ExactThroughout (store.incur incident) incidents := by
  intro front rest parts kept now mem
  exact exactly (incident :: front) rest (by rw [parts, List.cons_append]) kept now mem

/-- A call behind which every restart to come is exact buries and revives nothing. -/
theorem Standing.spares {incident : Incident}
    (standing : Standing start store (incident :: incidents))
    (exactly : ExactThroughout store (incident :: incidents)) :
    incident.Spares store incidents := by
  cases incident with
  | restart kept now => trivial
  | call made =>
      intro kept now mem
      have admissible : made.Admissible := standing.admissible made List.mem_cons_self
      rcases standing with ⟨journaled, ⟨before, ordered, orderly⟩, -, recovers⟩
      have recoversNow := (recovers kept now (List.mem_cons_of_mem _ mem)).whole
      have le : made.later ≤ now := le_of_mem orderly mem
      have behind := exactly [.call made] incidents rfl kept now mem
      have after := journaled.exec_of_later before ordered admissible
      rcases (after.exact_iff le).mp behind with ⟨sound, complete⟩
      have start_le : start ≤ now := before.trans le
      exact ⟨journaled.not_buries_of_soundly start_le admissible recoversNow.2 sound,
        journaled.not_revives_of_completely admissible recoversNow.1 complete⟩

theorem Standing.spared (standing : Standing start store incidents)
    (exactly : ExactThroughout store incidents) : Spared store incidents := by
  induction incidents generalizing start store with
  | nil => trivial
  | cons incident incidents inductionHypothesis =>
      have spares := standing.spares exactly
      exact ⟨spares, inductionHypothesis (standing.step spares) exactly.tail⟩

theorem exact_of_spared (orderly : Orderly start incidents)
    (admissible : ∀ call, .call call ∈ incidents → call.Admissible)
    (spared : Spared (.empty powerOfTwo (some {}) enableTtl) incidents)
    {made rest : List Incident} (parts : incidents = made ++ rest) {kept : ℕ} {now : ℤ}
    (mem : .restart kept now ∈ rest) {original : KvStore}
    (original_eq : KvStore.live (.empty powerOfTwo (some {}) enableTtl) made = original) :
    Exact now (.ofLog now original.records) original := by
  subst parts original_eq
  rcases (Standing.fresh powerOfTwo enableTtl orderly admissible).stage spared with
    ⟨time, standing⟩
  exact standing.exact mem

/-- Over any number of restarts: the calls spare what is restarted if and only if at every moment,
for every restart to come, recovery from the log gives the live part of the memory and nothing
else. -/
theorem restarts_exact_iff (orderly : Orderly start incidents)
    (admissible : ∀ call, .call call ∈ incidents → call.Admissible) :
    Spared (.empty powerOfTwo (some {}) enableTtl) incidents ↔
      ExactThroughout (.empty powerOfTwo (some {}) enableTtl) incidents := by
  constructor
  · intro spared front rest parts kept now mem
    exact exact_of_spared powerOfTwo enableTtl orderly admissible spared parts mem rfl
  · intro exactly
    exact (Standing.fresh powerOfTwo enableTtl orderly admissible).spared exactly

/-- A key, a restart, a deadline for the key, and a restart that has lost the deadline. -/
def lostDeadline : List Incident :=
  [.call ⟨.set (ascii "k") (ascii "v"), 5, 5⟩, .restart 1 10,
    .call ⟨.expire (ascii "k") 100, 20, 20⟩, .restart 1 30]

theorem spared_lostDeadline :
    Spared (.empty KvStore.defaultShards (some {}) true) lostDeadline := by
  refine ⟨?_, trivial, ?_, trivial, trivial⟩
  · intro kept now mem
    exact ⟨id, id⟩
  · intro kept now mem
    refine ⟨id, ?_⟩
    rintro ⟨-, -, entry, held, -, dead⟩
    have found : KvStore.find
        (KvStore.live (.empty KvStore.defaultShards (some {}) true) (lostDeadline.take 2))
        (ascii "k") = some { value := ascii "v" } := by decide +kernel
    cases found.symm.trans held
    cases dead

theorem orderly_lostDeadline : Orderly 0 lostDeadline := by
  simp [lostDeadline, Orderly, Incident.now, Incident.later]

theorem admissible_lostDeadline (call : TimedOp) (mem : .call call ∈ lostDeadline) :
    call.Admissible := by
  simp only [lostDeadline, List.mem_cons, Incident.call.injEq, reduceCtorEq, List.not_mem_nil,
    or_false, false_or] at mem
  rcases mem with rfl | rfl
  · decide
  · decide

theorem restarts_exact_iff_lostDeadline :
    ExactThroughout (.empty KvStore.defaultShards (some {}) true) lostDeadline :=
  (restarts_exact_iff KvStore.defaultShards true orderly_lostDeadline admissible_lostDeadline).mp
    spared_lostDeadline

/-- The first records of a log are the log of an earlier moment. -/
theorem exists_stage (orderly : Orderly start incidents)
    (admissible : ∀ call, .call call ∈ incidents → call.Admissible)
    (spared : Spared (.empty powerOfTwo (some {}) enableTtl) incidents)
    {front rest : List Incident} (parts : incidents = front ++ rest) (count : ℕ) :
    ∃ made, made <+: front ∧
      (KvStore.live (.empty powerOfTwo (some {}) enableTtl) made).records =
        (KvStore.live (.empty powerOfTwo (some {}) enableTtl) front).records.take count := by
  induction front using List.reverseRecOn generalizing rest count with
  | nil => exact ⟨[], List.prefix_rfl, List.take_nil.symm⟩
  | append_singleton front incident inductionHypothesis =>
      rw [List.append_assoc, List.singleton_append] at parts
      have earlier := inductionHypothesis parts
      have longer : front <+: front ++ [incident] := List.prefix_append _ _
      rw [KvStore.live_append_singleton]
      subst parts
      rcases (Standing.fresh powerOfTwo enableTtl orderly admissible).stage spared with
        ⟨time, standing⟩
      cases incident with
      | restart kept now =>
          rcases earlier (min count kept) with ⟨made, initial, same⟩
          refine ⟨made, initial.trans longer, ?_⟩
          rw [same, KvStore.incur, KvStore.records_ofLog, List.take_take]
      | call call =>
          rcases standing.journaled.exec_records standing.orderly.2.1 with
            ⟨same, -⟩ | ⟨record, -, appended, -⟩
          · rcases earlier count with ⟨made, initial, found⟩
            exact ⟨made, initial.trans longer, by rw [found, KvStore.incur, same]⟩
          · rcases Nat.lt_or_ge
              (KvStore.live (.empty powerOfTwo (some {}) enableTtl) front).records.length count with
              past | within
            · refine ⟨front ++ [.call call], List.prefix_rfl, ?_⟩
              rw [KvStore.live_append_singleton, KvStore.incur, appended,
                List.take_of_length_le (by simpa using past)]
            · rcases earlier count with ⟨made, initial, found⟩
              refine ⟨made, initial.trans longer, ?_⟩
              rw [found, KvStore.incur, appended, List.take_append_of_le_length within]

/-- A restart from the first records of the log gives the live part of what the memory was at an
earlier moment; at the very moment of the shutdown, if the whole log is left. -/
theorem restart_goes_back (orderly : Orderly start incidents)
    (admissible : ∀ call, .call call ∈ incidents → call.Admissible)
    (spared : Spared (.empty powerOfTwo (some {}) enableTtl) incidents)
    {front rest : List Incident} {kept : ℕ} {now : ℤ}
    (parts : incidents = front ++ .restart kept now :: rest) :
    let fresh : KvStore := .empty powerOfTwo (some {}) enableTtl
    (∃ made, made <+: front ∧
      (fresh.live made).records = (fresh.live front).records.take kept ∧
      Exact now (fresh.live (front ++ [.restart kept now])) (fresh.live made)) ∧
    ((fresh.live front).records.length ≤ kept →
      Exact now (fresh.live (front ++ [.restart kept now])) (fresh.live front)) := by
  intro fresh
  rw [KvStore.live_append_singleton, KvStore.incur]
  constructor
  · rcases exists_stage powerOfTwo enableTtl orderly admissible spared parts kept with
      ⟨made, ⟨between, rfl⟩, same⟩
    refine ⟨made, List.prefix_append _ _, same, ?_⟩
    rw [← same]
    rw [List.append_assoc] at parts
    exact exact_of_spared powerOfTwo enableTtl orderly admissible spared parts
      (List.mem_append_right _ List.mem_cons_self) rfl
  · intro whole
    rw [List.take_of_length_le whole]
    exact exact_of_spared powerOfTwo enableTtl orderly admissible spared parts
      List.mem_cons_self rfl

/-- The last restart finds the key without its deadline. -/
theorem restart_goes_back_lostDeadline :
    let fresh : KvStore := .empty KvStore.defaultShards (some {}) true
    (fresh.live lostDeadline).find (ascii "k") = some { value := ascii "v" } ∧
      ∃ made, made <+: lostDeadline.take 3 ∧
        Exact 30 (fresh.live lostDeadline) (fresh.live made) := by
  intro fresh
  refine ⟨by decide +kernel, ?_⟩
  rcases (@restart_goes_back _ KvStore.defaultShards true 0 lostDeadline orderly_lostDeadline
    admissible_lostDeadline spared_lostDeadline (lostDeadline.take 3) [] 1 30 rfl).1 with
    ⟨made, initial, -, exactly⟩
  exact ⟨made, initial, exactly⟩

end Lives

end RedisCpp.Store
