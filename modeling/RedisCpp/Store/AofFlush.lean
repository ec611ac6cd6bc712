import RedisCpp.Lib.Transition
import RedisCpp.Store.AofSync

/-!
# No record misses its flush

The invariant of the threads of an `AofWriter`, and what follows from it for the file.

Whatever is left to do for the bytes given to the stream, a flush or an `fsync`, is announced: by
the flag, by the fsync thread on its way, or by a writer inside `mu_` that has yet to raise the
flag.  The bytes given are the records in the order in which their writers have entered `mu_`, so
to its users the shared writer is the one that appends whole records at once.
-/

namespace RedisCpp.Store

namespace AofThreads

variable {Writer : Type}

/-! ## The invariant -/

def holdsMu (state : AofThreads Writer) : Thread Writer → Bool
  | .writer writer => (state.writers writer).holdsMu
  | .fsync => state.fsyncThread.holdsMu
  | .destructor => state.destructor.holdsMu

/-- What the owner of `mu_` has yet to hand to the open stream. -/
def inHand (isOpen : Bool) (writers : Writer → WriterPlace) : Option (Thread Writer) → Bytes
  | some (.writer writer) => if isOpen then (writers writer).rest else []
  | _ => []

theorem inHand_of_closed (writers : Writer → WriterPlace) (mu : Option (Thread Writer)) :
    inHand false writers mu = [] := by
  rcases mu with _ | _ | _ | _ <;> rfl

theorem inHand_of_rest (isOpen : Bool) {writers : Writer → WriterPlace}
    (nothing : ∀ writer, (writers writer).rest = []) (mu : Option (Thread Writer)) :
    inHand isOpen writers mu = [] := by
  rcases mu with _ | writer | _ | _
  · rfl
  · rw [inHand, nothing, ite_self]
  · rfl
  · rfl

theorem inHand_update [DecidableEq Writer] (isOpen : Bool) (writers : Writer → WriterPlace)
    {writer : Writer} {place : WriterPlace} (same : place.rest = (writers writer).rest)
    (mu : Option (Thread Writer)) :
    inHand isOpen (Function.update writers writer place) mu = inHand isOpen writers mu := by
  rcases mu with _ | other | _ | _
  · rfl
  · rw [inHand, inHand]
    by_cases here : other = writer
    · subst here
      rw [Function.update_self, same]
    · rw [Function.update_of_ne here]
  · rfl
  · rfl

/-- The flag is up, or a thread will see to the debt. -/
def Covered (state : AofThreads Writer) (debt : Debt) : Prop :=
  state.needFsync = true ∨ state.fsyncThread.owes debt = true ∨
    ∃ writer, (state.writers writer).owes debt = true

theorem Covered.fsync {state : AofThreads Writer} (covered : state.Covered .flush) :
    state.Covered .fsync := by
  rcases covered with raised | owes | ⟨writer, owes⟩
  · exact Or.inl raised
  · exact Or.inr (Or.inl (FsyncPlace.owes_fsync owes))
  · exact Or.inr (Or.inr ⟨writer, WriterPlace.owes_fsync owes⟩)

structure Invariant (sync : AofSync) (base : Bytes) (activities : List Activity)
    (state : AofThreads Writer) : Prop where
  exclusive : Mutex.Exclusive state.holdsMu state.mu
  pending : state.stream.buffer <:+ unflushed activities
  drained : state.stream.isOpen = false → state.stream.buffer = []
  contents : state.stream.contents ++ inHand state.stream.isOpen state.writers state.mu =
    base ++ fileBytes (written activities)
  covered : sync ≠ .never → ∀ debt : Debt, debt.Open activities state.stream → state.Covered debt
  ended : state.stream.isOpen = false ∨ state.destructor.joined = true →
    state.fsyncThread.ended = true
  closed : state.destructor.closed = true → state.stream.isOpen = false
  idle : sync ≠ .everySecond → state.fsyncThread = .absent ∧ state.needFsync = false

namespace Invariant

variable {sync : AofSync} {base : Bytes} {activities : List Activity} {state : AofThreads Writer}

theorem initial (sync : AofSync) (isOpen : Bool) (base : Bytes) :
    Invariant sync base [] (initial sync isOpen base : AofThreads Writer) := by
  refine ⟨?_, List.suffix_rfl, fun _ => rfl, ?_, ?_, ?_, nofun, ?_⟩
  · rintro (writer | _ | _) holds
    · cases holds
    · rw [holdsMu, AofThreads.initial] at holds
      dsimp only at holds
      split at holds <;> cases holds
    · cases holds
  · simp [OfStream.contents, AofThreads.initial, inHand, written, fileBytes]
  · rintro _ (_ | _) isOpen
    · exact absurd rfl isOpen
    · exact absurd rfl isOpen
  · rintro (closed | joined)
    · have off : isOpen = false := closed
      simp [AofThreads.initial, off, FsyncPlace.ended]
    · cases joined
  · intro mode
    simp [AofThreads.initial, mode]

/-- What is left to do behind a move was seen to before it, unless the stream is given more. -/
theorem covered_of_move (invariant : Invariant sync base activities state) {after : OfStream}
    {activity : Activity} (move : StreamMove state.stream activity after) (mode : sync ≠ .never)
    {debt : Debt} (isOpen : debt.Open (activities ++ [activity]) after) :
    state.Covered debt ∨ ∃ chunk, activity = .put chunk := by
  cases debt with
  | flush =>
      rcases Debt.open_flush_cases move isOpen with before | put
      · exact Or.inl (invariant.covered mode _ before)
      · exact Or.inr put
  | fsync =>
      rcases Debt.open_fsync_cases move invariant.pending isOpen with before | before
      · exact Or.inl (invariant.covered mode _ before)
      · exact Or.inl (invariant.covered mode _ before).fsync

section Writer

variable [DecidableEq Writer] {stream : OfStream} {needFsync : Bool} {place : WriterPlace}
  {use : Mutex.Use} {activity : Activity}

/-- The bytes in hand before and behind a move of a writer. -/
theorem inHand_writer (invariant : Invariant sync base activities state) {writer : Writer}
    (move : WriterMove sync state.stream state.needFsync (state.writers writer) stream needFsync
      place use activity) (available : use = .acquire → state.mu = none) :
    (inHand true state.writers state.mu = (state.writers writer).rest ∧
      inHand true (Function.update state.writers writer place)
        (use.after (.writer writer) state.mu) = place.rest) ∨
    (stream = state.stream ∧ activity = .quiet ∧
      inHand true (Function.update state.writers writer place)
        (use.after (.writer writer) state.mu) = inHand true state.writers state.mu) := by
  have here : inHand true (Function.update state.writers writer place) (some (.writer writer)) =
      place.rest := by
    rw [inHand, if_pos rfl, Function.update_self]
  rcases move.outside_cases with rfl | inside | ⟨rfl, same, quiet, nothing⟩
  · left
    have free := available rfl
    have outside : state.holdsMu (.writer writer) = false :=
      invariant.exclusive.outside_of_free free
    rw [free, WriterPlace.rest_of_outside outside]
    exact ⟨rfl, here⟩
  · left
    have owner : state.mu = some (.writer writer) := invariant.exclusive (.writer writer) inside
    rw [owner]
    refine ⟨rfl, ?_⟩
    cases use with
    | keep | acquire => exact here
    | release => exact move.rest_of_release.symm
  · exact Or.inr ⟨same, quiet, inHand_update true _ nothing _⟩

theorem contents_writer (invariant : Invariant sync base activities state) {writer : Writer}
    (move : WriterMove sync state.stream state.needFsync (state.writers writer) stream needFsync
      place use activity) (available : use = .acquire → state.mu = none) :
    stream.contents ++ inHand stream.isOpen (Function.update state.writers writer place)
        (use.after (.writer writer) state.mu) =
      base ++ fileBytes (written (activities ++ [activity])) := by
  have before := invariant.contents
  rw [written_append_singleton, fileBytes_append, ← List.append_assoc, ← before, move.isOpen_eq]
  cases isOpen : state.stream.isOpen with
  | false =>
      rcases move.contents_of_closed isOpen with ⟨same, nothing⟩
      rw [inHand_of_closed, inHand_of_closed, same, nothing]
      exact (List.append_nil _).symm
  | true =>
      rcases invariant.inHand_writer move available with ⟨inside, after⟩ | ⟨same, quiet, after⟩
      · rw [after, inside]
        exact move.contents_eq isOpen
      · rw [after, same, quiet]
        exact (List.append_nil _).symm

theorem covered_writer (invariant : Invariant sync base activities state) {writer : Writer}
    (move : WriterMove sync state.stream state.needFsync (state.writers writer) stream needFsync
      place use activity) (mode : sync ≠ .never) {debt : Debt}
    (isOpen : debt.Open (activities ++ [activity]) stream) :
    needFsync = true ∨ state.fsyncThread.owes debt = true ∨
      ∃ other, (Function.update state.writers writer place other).owes debt = true := by
  have here : place.owes debt = true →
      ∃ other, (Function.update state.writers writer place other).owes debt = true :=
    fun owes => ⟨writer, by rwa [Function.update_self]⟩
  rcases invariant.covered_of_move move.streamMove mode isOpen with covered | ⟨chunk, rfl⟩
  · rcases covered with raised | owes | ⟨other, owes⟩
    · exact (move.owes mode isOpen (Or.inl raised)).imp id fun owes => Or.inr (here owes)
    · exact Or.inr (Or.inl owes)
    · by_cases same : other = writer
      · subst same
        exact (move.owes mode isOpen (Or.inr owes)).imp id fun owes => Or.inr (here owes)
      · exact Or.inr (Or.inr ⟨other, by rwa [Function.update_of_ne same]⟩)
  · exact Or.inr (Or.inr (here (move.owes_of_put debt)))

theorem writer (invariant : Invariant sync base activities state) {writer : Writer}
    (move : WriterMove sync state.stream state.needFsync (state.writers writer) stream needFsync
      place use activity) (available : use = .acquire → state.mu = none) :
    Invariant sync base (activities ++ [activity]) { state with
      stream := stream
      mu := use.after (.writer writer) state.mu
      needFsync := needFsync
      writers := Function.update state.writers writer place } where
  exclusive := by
    apply invariant.exclusive.step _ available
    · rintro (other | _ | _) different holds
      · have apart : other ≠ writer := fun same => different (by rw [same])
        simpa only [holdsMu, Function.update_of_ne apart] using holds
      · exact holds
      · exact holds
    · simpa only [holdsMu, Function.update_self] using move.fits
  pending := move.streamMove.pending invariant.pending
  drained := move.streamMove.drained invariant.drained
  contents := invariant.contents_writer move available
  covered := fun mode _ isOpen => invariant.covered_writer move mode isOpen
  ended := by
    rw [move.isOpen_eq]
    exact invariant.ended
  closed := by
    rw [move.isOpen_eq]
    exact invariant.closed
  idle := by
    intro mode
    rw [move.needFsync_eq mode]
    exact invariant.idle mode

end Writer

/-- A move of a thread that is not a writer changes neither the bytes given nor those in hand. -/
theorem contents_other (invariant : Invariant sync base activities state) {thread : Thread Writer}
    {stream : OfStream} {use : Mutex.Use} {activity : Activity}
    (move : StreamMove state.stream activity stream)
    (noRecord : activity = .flush ∨ activity = .quiet)
    (other : ∀ isOpen, inHand isOpen state.writers (some thread) = [])
    (kept : stream.isOpen = state.stream.isOpen ∨ state.holdsMu thread = true)
    (released : use = .release → state.holdsMu thread = true)
    (available : use = .acquire → state.mu = none) :
    stream.contents ++ inHand stream.isOpen state.writers (use.after thread state.mu) =
      base ++ fileBytes (written (activities ++ [activity])) := by
  have nothing : state.holdsMu thread = true →
      ∀ isOpen, inHand isOpen state.writers state.mu = [] := by
    intro holds isOpen
    rw [invariant.exclusive thread holds]
    exact other isOpen
  have inside : inHand stream.isOpen state.writers (use.after thread state.mu) =
      inHand state.stream.isOpen state.writers state.mu := by
    cases use with
    | keep =>
        rcases kept with same | holds
        · rw [same]
          rfl
        · exact (nothing holds _).trans (nothing holds _).symm
    | acquire =>
        rw [available rfl]
        exact other _
    | release => exact (nothing (released rfl) _).symm
  rw [inside, move.contents_eq, written_append_singleton]
  rcases noRecord with rfl | rfl
  · simpa [Activity.chunk, Activity.written] using invariant.contents
  · simpa [Activity.chunk, Activity.written] using invariant.contents

/-- While the fsync thread runs, nobody has closed the stream. -/
theorem isOpen_of_running (invariant : Invariant sync base activities state)
    (running : state.fsyncThread.ended = false) : state.stream.isOpen = true := by
  cases closed : state.stream.isOpen with
  | true => rfl
  | false =>
      rw [invariant.ended (Or.inl closed)] at running
      cases running

theorem covered_fsync (invariant : Invariant sync base activities state) {stream : OfStream}
    {needFsync : Bool} {place : FsyncPlace} {use : Mutex.Use} {activity : Activity}
    (move : FsyncMove state.stop state.stream state.needFsync state.fsyncThread stream needFsync
      place use activity) (mode : sync ≠ .never) {debt : Debt}
    (isOpen : debt.Open (activities ++ [activity]) stream) :
    needFsync = true ∨ place.owes debt = true ∨
      ∃ writer, (state.writers writer).owes debt = true := by
  have streamOpen := invariant.isOpen_of_running move.not_ended
  rcases invariant.covered_of_move move.streamMove mode isOpen with covered | ⟨chunk, rfl⟩
  · rcases covered with raised | owes | writer
    · exact (move.owes streamOpen isOpen (Or.inl raised)).imp id Or.inl
    · exact (move.owes streamOpen isOpen (Or.inr owes)).imp id Or.inl
    · exact Or.inr (Or.inr writer)
  · rcases move.activity_cases with put | put <;> cases put

theorem fsync (invariant : Invariant sync base activities state) {stream : OfStream}
    {needFsync : Bool} {place : FsyncPlace} {use : Mutex.Use} {activity : Activity}
    (move : FsyncMove state.stop state.stream state.needFsync state.fsyncThread stream needFsync
      place use activity) (available : use = .acquire → state.mu = none) :
    Invariant sync base (activities ++ [activity]) { state with
      stream := stream
      mu := use.after .fsync state.mu
      needFsync := needFsync
      fsyncThread := place } where
  exclusive := by
    apply invariant.exclusive.step move.fits available
    rintro (other | _ | _) different holds
    · exact holds
    · exact absurd rfl different
    · exact holds
  pending := move.streamMove.pending invariant.pending
  drained := move.streamMove.drained invariant.drained
  contents := invariant.contents_other move.streamMove move.activity_cases (fun _ => rfl)
    (Or.inl move.isOpen_eq) move.fits.released available
  covered := fun mode _ isOpen => invariant.covered_fsync move mode isOpen
  ended := by
    rw [move.isOpen_eq]
    intro past
    have running := move.not_ended
    rw [invariant.ended past] at running
    cases running
  closed := by
    rw [move.isOpen_eq]
    exact invariant.closed
  idle := by
    intro mode
    have running := move.not_ended
    rw [(invariant.idle mode).1] at running
    cases running

theorem destructor (invariant : Invariant sync base activities state) {stream : OfStream}
    {stop : Bool} {place : DestructorPlace} {use : Mutex.Use} {activity : Activity}
    (move : DestructorMove state.fsyncThread state.stop state.stream state.destructor stream stop
      place use activity) (available : use = .acquire → state.mu = none) :
    Invariant sync base (activities ++ [activity]) { state with
      stream := stream
      mu := use.after .destructor state.mu
      stop := stop
      destructor := place } where
  exclusive := by
    apply invariant.exclusive.step move.fits available
    rintro (other | _ | _) different holds
    · exact holds
    · exact holds
    · exact absurd rfl different
  pending := move.streamMove.pending invariant.pending
  drained := move.streamMove.drained invariant.drained
  contents := invariant.contents_other move.streamMove move.activity_cases (fun _ => rfl)
    move.isOpen_cases move.fits.released available
  covered := by
    intro mode debt isOpen
    rcases invariant.covered_of_move move.streamMove mode isOpen with covered | ⟨chunk, rfl⟩
    · exact covered
    · rcases move.activity_cases with put | put <;> cases put
  ended := move.ended invariant.ended
  closed := move.closed invariant.closed
  idle := invariant.idle

theorem run [DecidableEq Writer] {isOpen : Bool}
    {moves : List (Transition.Move (AofThreads Writer) Activity)}
    (run : Transition.Run (Step sync) (AofThreads.initial sync isOpen base) moves state) :
    Invariant sync base (moves.map Transition.Move.label) state := by
  apply run.invariant (initial sync isOpen base)
  intro moves state activity after _ invariant step
  rw [List.map_append]
  cases step with
  | writer writer move available => exact invariant.writer move available
  | fsync move available => exact invariant.fsync move available
  | destructor move available => exact invariant.destructor move available

end Invariant

/-! ## What a run says about the file -/

section Runs

variable [DecidableEq Writer] {sync : AofSync} {isOpen : Bool} {base : Bytes}
  {moves : List (Transition.Move (AofThreads Writer) Activity)} {state : AofThreads Writer}

/-- Behind the destructor the file has every record whose writer has found the stream open. -/
theorem file_of_finished
    (run : Transition.Run (Step sync) (initial sync isOpen base) moves state)
    (finished : state.destructor = .finished) :
    state.stream.buffer = [] ∧
      state.stream.file = base ++ fileBytes (written (moves.map Transition.Move.label)) := by
  have invariant := Invariant.run run
  have closed := invariant.closed (by rw [finished]; rfl)
  have empty := invariant.drained closed
  have contents := invariant.contents
  rw [closed, inHand_of_closed, List.append_nil, OfStream.contents, empty,
    List.append_nil] at contents
  exact ⟨empty, contents⟩

/-- Where nothing is left to do, nothing is lost with the power. -/
theorem disk_of_settled
    (run : Transition.Run (Step sync) (initial sync isOpen base) moves state)
    (mode : sync ≠ .never) (settled : ¬state.Covered .fsync) :
    state.stream.disk = base ++ fileBytes (written (moves.map Transition.Move.label)) := by
  have invariant := Invariant.run run
  have reached : state.stream.disk = state.stream.file := by
    by_contra behind
    exact settled (invariant.covered mode .fsync behind)
  have flushed : unflushed (moves.map Transition.Move.label) = [] := by
    by_contra pending
    exact settled (invariant.covered mode .flush pending).fsync
  have empty : state.stream.buffer = [] := by
    have pending := invariant.pending
    rw [flushed] at pending
    exact List.suffix_nil.mp pending
  have nothing : ∀ writer, (state.writers writer).rest = [] := by
    intro writer
    cases place : state.writers writer with
    | writing rest => exact absurd (Or.inr (Or.inr ⟨writer, by rw [place]; rfl⟩)) settled
    | idle | called | locking | syncing | flushed | unlocking => rfl
  have contents := invariant.contents
  rw [inHand_of_rest _ nothing, List.append_nil, OfStream.contents, empty,
    List.append_nil] at contents
  rw [reached, contents]

/-- In the mode `ALWAYS` a record is on the disk when `write_resp` returns. -/
theorem disk_of_always
    (run : Transition.Run (Step .always) (initial .always isOpen base) moves state)
    (outside : ∀ writer, (state.writers writer).holdsMu = false) :
    state.stream.disk = base ++ fileBytes (written (moves.map Transition.Move.label)) := by
  have quiet := (Invariant.run run).idle nofun
  apply disk_of_settled run nofun
  rintro (raised | owes | ⟨writer, owes⟩)
  · rw [quiet.2] at raised
    cases raised
  · rw [quiet.1] at owes
    cases owes
  · have out := outside writer
    cases place : state.writers writer with
    | writing | syncing | flushed =>
        rw [place] at out
        cases out
    | idle | called | locking | unlocking =>
        rw [place] at owes
        cases owes

/-- No call of `write_resp` is under way when the destructor is called, and none is made later. -/
def Outlives (moves : List (Transition.Move (AofThreads Writer) Activity)) : Prop :=
  ∀ move ∈ moves, move.source.destructor ≠ .alive → ∀ writer, move.source.writers writer = .idle

/-- If the object outlives its calls, a writer that waits for `mu_` finds the stream open. -/
theorem isOpen_of_locking
    (run : Transition.Run (Step sync) (initial sync isOpen base) moves state)
    (outlives : Outlives moves) {writer : Writer} {record : Record}
    (locking : state.writers writer = .locking record) : state.stream.isOpen = true := by
  induction run with
  | nil => cases locking
  | @snoc moves state after activity run step inductionHypothesis =>
      have before := fun waits => inductionHypothesis
        (fun move mem => outlives move (List.mem_append_left _ mem)) waits
      cases step with
      | writer other move available =>
          rw [move.isOpen_eq]
          by_cases same : writer = other
          · subst same
            have here := (Function.update_self _ _ _).symm.trans locking
            subst here
            exact move.isOpen_of_locking
          · exact before ((Function.update_of_ne same _ _).symm.trans locking)
      | fsync move available =>
          rw [move.isOpen_eq]
          exact before locking
      | destructor move available =>
          rcases move.isOpen_cases with same | inside
          · rw [same]
            exact before locking
          · have alive : state.destructor ≠ .alive := by
              intro alive
              rw [alive] at inside
              cases inside
            have idle := outlives _ (List.mem_append_right _ (List.mem_singleton_self _)) alive
              writer
            rw [idle] at locking
            cases locking

theorem Step.of_hold {opened : Bool} {record : Record} {after : AofThreads Writer}
    (step : Step sync state (.hold opened record) after) :
    ∃ writer, state.writers writer = .locking record ∧ state.stream.isOpen = opened := by
  cases step with
  | writer writer move available => exact ⟨writer, move.of_hold⟩
  | fsync move available => rcases move.activity_cases with hold | hold <;> cases hold
  | destructor move available => rcases move.activity_cases with hold | hold <;> cases hold

/-- If the object outlives its calls, no output fails. -/
theorem isOpen_of_hold
    (run : Transition.Run (Step sync) (initial sync isOpen base) moves state)
    (outlives : Outlives moves) :
    ∀ move ∈ moves, ∀ record, move.label ≠ .hold false record := by
  intro move mem record label
  rcases List.append_of_mem mem with ⟨before, later, rfl⟩
  rcases run.split rfl with ⟨run, step⟩
  rw [label] at step
  rcases step.of_hold with ⟨writer, locking, closed⟩
  have earlier : Outlives before := fun move mem => outlives move (List.mem_append_left _ mem)
  rw [isOpen_of_locking run earlier locking] at closed
  cases closed

end Runs

theorem written_eq_held {moves : List (Transition.Move (AofThreads Writer) Activity)}
    (succeeds : ∀ move ∈ moves, ∀ record, move.label ≠ .hold false record) :
    written (moves.map Transition.Move.label) = held (moves.map Transition.Move.label) := by
  apply List.flatMap_congr
  intro activity mem
  rcases List.mem_map.mp mem with ⟨move, made, rfl⟩
  rcases label : move.label with ⟨_ | _, record⟩ | _ | _ | _
  · exact absurd label (succeeds move made record)
  · rfl
  · rfl
  · rfl
  · rfl

/-- The writer that appends a whole record at once. -/
def aofWriter (activities : List Activity) : AofWriter :=
  (written activities).foldl AofWriter.writeResp {}

theorem records_aofWriter (activities : List Activity) :
    (aofWriter activities).records = written activities := by
  have append : ∀ (records : List Record) (writer : AofWriter),
      (records.foldl AofWriter.writeResp writer).records = writer.records ++ records := by
    intro records
    induction records with
    | nil => simp
    | cons record records inductionHypothesis =>
        intro writer
        rw [List.foldl_cons, inductionHypothesis]
        simp [AofWriter.writeResp]
  exact append _ _

/-- To its users the shared writer is that one, up to the rest of the record that is being
written. -/
theorem contents_aofWriter [DecidableEq Writer] {sync : AofSync} {isOpen : Bool} {base : Bytes}
    {moves : List (Transition.Move (AofThreads Writer) Activity)} {state : AofThreads Writer}
    (run : Transition.Run (Step sync) (initial sync isOpen base) moves state) :
    state.stream.contents ++ inHand state.stream.isOpen state.writers state.mu =
      base ++ fileBytes (aofWriter (moves.map Transition.Move.label)).records := by
  rw [records_aofWriter]
  exact (Invariant.run run).contents

section Sole

def sole (stream : OfStream) (mu : Option (Thread Unit)) (stop needFsync : Bool)
    (writer : WriterPlace) (fsyncThread : FsyncPlace) (destructor : DestructorPlace) :
    AofThreads Unit :=
  ⟨stream, mu, stop, needFsync, fun _ => writer, fsyncThread, destructor⟩

variable {sync : AofSync} {stream later : OfStream} {mu : Option (Thread Unit)}
  {stop needFsync laterFsync : Bool} {writer next : WriterPlace} {fsyncThread : FsyncPlace}
  {destructor : DestructorPlace} {use : Mutex.Use} {activity : Activity}

theorem sole_writer
    (move : WriterMove sync stream needFsync writer later laterFsync next use activity)
    (available : use = .acquire → mu = none) :
    Step sync (sole stream mu stop needFsync writer fsyncThread destructor) activity
      (sole later (use.after (.writer ()) mu) stop laterFsync next fsyncThread destructor) := by
  have step := @Step.writer _ _ sync (sole stream mu stop needFsync writer fsyncThread destructor)
    () _ _ _ _ _ move available
  have all : Function.update (fun _ => writer) () next = fun _ => next :=
    Function.update_eq_const_of_subsingleton _ _ _
  simp only [sole, all] at step
  exact step

/-- A record that the fsync thread has not met. -/
theorem sole_logged (record : Record) :
    ∃ moves : List (Transition.Move (AofThreads Unit) Activity),
      Transition.Run (Step .everySecond) (initial .everySecond true []) moves
          (sole ⟨[], [], record.bytes, true⟩ none false true .idle .testing .alive) ∧
        unflushed (moves.map Transition.Move.label) = record.bytes ∧
          written (moves.map Transition.Move.label) = [record] := by
  have start : Transition.Run (Step .everySecond) (initial .everySecond true []) []
      (sole ⟨[], [], [], true⟩ none false false .idle .testing .alive) :=
    @Transition.Run.nil _ _ (@Step Unit _ .everySecond) _
  have holding := ((start.snoc (sole_writer (.call record) nofun)).snoc
    (sole_writer (.goOn rfl) nofun)).snoc (sole_writer .lock fun _ => rfl)
  have put := (holding.snoc (sole_writer (.put rfl (List.append_nil _).symm) nofun)).snoc
    (sole_writer .written nofun)
  have logged := (put.snoc (sole_writer (.everySecond rfl) nofun)).snoc
    (sole_writer .unlock nofun)
  refine ⟨_, logged, ?_, rfl⟩
  simp [unflushed, Activity.chunk]

/-- The end of the writer, before the fsync thread has met the record. -/
theorem sole_finished (record : Record) :
    ∃ (moves : List (Transition.Move (AofThreads Unit) Activity)) (state : AofThreads Unit),
      Transition.Run (Step .everySecond) (initial .everySecond true []) moves state ∧
        state.destructor = .finished ∧ written (moves.map Transition.Move.label) = [record] := by
  rcases sole_logged record with ⟨moves, logged, -, found⟩
  have stopped := (logged.snoc (.destructor .stop nofun)).snoc (.fsync (.exit rfl) nofun)
  have locked := (stopped.snoc (.destructor (.join rfl) nofun)).snoc
    (.destructor .lock fun _ => rfl)
  have finished := ((locked.snoc (.destructor (.flush rfl) nofun)).snoc
    (.destructor .close nofun)).snoc (.destructor .unlock nofun)
  refine ⟨_, _, finished, rfl, ?_⟩
  simpa [written, Activity.written] using found

end Sole

section Claim

variable [DecidableEq Writer] {sync : AofSync} {isOpen : Bool} {base : Bytes}
  {moves : List (Transition.Move (AofThreads Writer) Activity)} {state : AofThreads Writer}

/-- What an orderly shutdown leaves behind is read back as the records, in the order in which
their writers have entered `mu_`. -/
theorem replay_of_finished
    (run : Transition.Run (Step sync) (initial sync isOpen []) moves state)
    (finished : state.destructor = .finished) (outlives : Outlives moves)
    (fits : ∀ record ∈ held (moves.map Transition.Move.label), record.Fits) :
    replay state.stream.file =
      ⟨held (moves.map Transition.Move.label),
        .returned (held (moves.map Transition.Move.label)).length⟩ := by
  rw [(file_of_finished run finished).2, List.nil_append,
    written_eq_held (isOpen_of_hold run outlives)]
  exact replay_fileBytes fits

/-- In the mode `EVERY_SECOND`, however the threads are interleaved, the buffer holds only bytes
given since the last flush, and when no writer is in `write_resp`, bytes that have not been flushed
are announced: the flag is up, or the fsync thread has taken it and has yet to flush.  The file and
the buffer hold whole records in the order in which their writers have entered `mu_`, up to the
rest of the one that is being written; behind the destructor the file holds them all.  A record
is missing only if its writer has found the stream closed. -/
theorem no_record_misses_its_flush
    (run : Transition.Run (Step .everySecond) (initial .everySecond isOpen base) moves state) :
    state.stream.buffer <:+ unflushed (moves.map Transition.Move.label) ∧
      ((∀ writer, state.writers writer = .idle) →
        unflushed (moves.map Transition.Move.label) ≠ [] →
          state.needFsync = true ∨ state.fsyncThread = .locking ∨ state.fsyncThread = .locked) ∧
      state.stream.contents ++ inHand state.stream.isOpen state.writers state.mu =
        base ++ fileBytes (written (moves.map Transition.Move.label)) ∧
      (state.destructor = .finished → state.stream.buffer = [] ∧
        state.stream.file = base ++ fileBytes (written (moves.map Transition.Move.label))) ∧
      ((∀ move ∈ moves, ∀ record, move.label ≠ .hold false record) →
        written (moves.map Transition.Move.label) = held (moves.map Transition.Move.label)) := by
  have invariant := Invariant.run run
  refine ⟨invariant.pending, ?_, invariant.contents, file_of_finished run, written_eq_held⟩
  intro outside pending
  rcases invariant.covered nofun .flush pending with raised | owes | ⟨writer, owes⟩
  · exact Or.inl raised
  · exact Or.inr (FsyncPlace.of_owes_flush owes)
  · rw [outside writer] at owes
    cases owes

theorem no_record_misses_its_flush_del :
    ∃ (moves later : List (Transition.Move (AofThreads Unit) Activity))
      (state last : AofThreads Unit),
      Transition.Run (Step .everySecond) (initial .everySecond true []) moves state ∧
        (state.needFsync = true ∨ state.fsyncThread = .locking ∨ state.fsyncThread = .locked) ∧
      Transition.Run (Step .everySecond) (initial .everySecond true []) later last ∧
        last.stream.file = fileBytes [.del [65]] := by
  rcases sole_logged (.del [65]) with ⟨moves, logged, unflushed, -⟩
  rcases sole_finished (.del [65]) with ⟨later, last, run, finished, found⟩
  refine ⟨moves, later, _, last, logged, ?_, run, ?_⟩
  · apply (no_record_misses_its_flush logged).2.1 fun _ => rfl
    rw [unflushed]
    intro empty
    have size := length_bytes_pos (.del [65])
    rw [empty] at size
    cases size
  · have file := ((no_record_misses_its_flush run).2.2.2.1 finished).2
    rwa [found] at file

end Claim

end AofThreads

end RedisCpp.Store
