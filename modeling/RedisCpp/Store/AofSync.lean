import RedisCpp.Lib.Mutex
import RedisCpp.Store.AofCodec
import Mathlib.Logic.Function.Basic

/-!
# Flushing the append-only file

`write_resp` on any number of threads, the fsync thread and the destructor of an `AofWriter`,
interleaved at the granularity of the accesses to the stream, to the two flags and to `mu_`.  The
stream buffers what it is given, and may hand any part of the buffer to the file whenever it is
given more; what the file holds is safe only when an `fsync` has reached it.

In the mode `EVERY_SECOND` a writer raises `need_fsync_` behind its record, inside `mu_`, and the
fsync thread takes the flag before it enters.  So what has not been flushed is always announced,
by the flag, by the fsync thread on its way, or by a writer that has yet to raise the flag.

Output to an open stream is assumed to succeed; output to the closed one fails, which can happen
only to a writer that enters `mu_` behind the destructor.
-/

namespace RedisCpp.Store

inductive AofSync where
  | always
  | everySecond
  | never
deriving DecidableEq, Repr

/-- A `std::ofstream` that appends.  Of its file, `disk` is the part that an `fsync` has reached,
or that was there before. -/
structure OfStream where
  file : Bytes
  disk : Bytes
  buffer : Bytes
  isOpen : Bool
deriving DecidableEq, Repr

namespace OfStream

variable (stream : OfStream)

def put (chunk : Bytes) : OfStream :=
  { stream with buffer := stream.buffer ++ chunk }

/-- A part of the buffer goes to the file. -/
def spill (count : ℕ) : OfStream :=
  { stream with
    file := stream.file ++ stream.buffer.take count
    buffer := stream.buffer.drop count }

def flush : OfStream :=
  { stream with
    file := stream.file ++ stream.buffer
    buffer := [] }

def close : OfStream :=
  { stream.flush with isOpen := false }

/-- `fsync` on a descriptor of the same file. -/
def fsync : OfStream :=
  { stream with disk := stream.file }

/-- The bytes that the stream has been given. -/
def contents : Bytes :=
  stream.file ++ stream.buffer

@[simp]
theorem contents_put (chunk : Bytes) : (stream.put chunk).contents = stream.contents ++ chunk := by
  simp [contents, put]

@[simp]
theorem contents_spill (count : ℕ) : (stream.spill count).contents = stream.contents := by
  simp [contents, spill]

@[simp]
theorem contents_flush : stream.flush.contents = stream.contents := by
  simp [contents, flush]

@[simp]
theorem contents_close : stream.close.contents = stream.contents := by
  simp [contents, close, flush]

@[simp]
theorem contents_fsync : stream.fsync.contents = stream.contents := rfl

end OfStream

namespace AofThreads

/-- Where a thread is in `write_resp`. -/
inductive WriterPlace where
  | idle
  | called (record : Record)
  | locking (record : Record)
  | writing (rest : Bytes)
  | syncing
  | flushed
  | unlocking
deriving DecidableEq, Repr

/-- Where the fsync thread is in `fsync_loop`. -/
inductive FsyncPlace where
  | absent
  | testing
  | sleeping
  | exchanging
  | locking
  | locked
  | flushed
  | unlocking
  | exited
deriving DecidableEq, Repr

/-- Where the destructor is. -/
inductive DestructorPlace where
  | alive
  | joining
  | locking
  | locked
  | flushed
  | unlocking
  | finished
deriving DecidableEq, Repr

def WriterPlace.holdsMu : WriterPlace → Bool
  | .writing _ | .syncing | .flushed | .unlocking => true
  | _ => false

/-- What the writer has yet to hand to the stream. -/
def WriterPlace.rest : WriterPlace → Bytes
  | .writing rest => rest
  | _ => []

def FsyncPlace.holdsMu : FsyncPlace → Bool
  | .locked | .flushed | .unlocking => true
  | _ => false

/-- The thread has ended, or there is none. -/
def FsyncPlace.ended : FsyncPlace → Bool
  | .absent | .exited => true
  | _ => false

def DestructorPlace.holdsMu : DestructorPlace → Bool
  | .locked | .flushed | .unlocking => true
  | _ => false

def DestructorPlace.joined : DestructorPlace → Bool
  | .alive | .joining => false
  | _ => true

def DestructorPlace.closed : DestructorPlace → Bool
  | .unlocking | .finished => true
  | _ => false

inductive Thread (Writer : Type) where
  | writer (writer : Writer)
  | fsync
  | destructor
deriving DecidableEq, Repr

/-- What happens to the records and to the stream.  The writer of a record holds `mu_`, and finds
the stream open or closed, from `hold` on. -/
inductive Activity where
  | hold (isOpen : Bool) (record : Record)
  | put (chunk : Bytes)
  | flush
  | quiet
deriving DecidableEq, Repr

/-- A step of `write_resp`: the places, the stream and the flag afterwards, and what is done with
`mu_`. -/
inductive WriterMove (sync : AofSync) (stream : OfStream) (needFsync : Bool) :
    WriterPlace → OfStream → Bool → WriterPlace → Mutex.Use → Activity → Prop where
  | call (record : Record) :
      WriterMove sync stream needFsync .idle stream needFsync (.called record) .keep .quiet
  | skip {record : Record} (closed : stream.isOpen = false) :
      WriterMove sync stream needFsync (.called record) stream needFsync .idle .keep .quiet
  | goOn {record : Record} (isOpen : stream.isOpen = true) :
      WriterMove sync stream needFsync (.called record) stream needFsync (.locking record) .keep
        .quiet
  | lock {record : Record} :
      WriterMove sync stream needFsync (.locking record) stream needFsync (.writing record.bytes)
        .acquire (.hold stream.isOpen record)
  | put {chunk rest whole : Bytes} (isOpen : stream.isOpen = true) (parts : whole = chunk ++ rest) :
      WriterMove sync stream needFsync (.writing whole) (stream.put chunk) needFsync
        (.writing rest) .keep (.put chunk)
  | spill {rest : Bytes} (count : ℕ) (isOpen : stream.isOpen = true) :
      WriterMove sync stream needFsync (.writing rest) (stream.spill count) needFsync
        (.writing rest) .keep .quiet
  | written :
      WriterMove sync stream needFsync (.writing []) stream needFsync .syncing .keep .quiet
  | fail {rest : Bytes} (closed : stream.isOpen = false) :
      WriterMove sync stream needFsync (.writing rest) stream needFsync .syncing .keep .quiet
  | always (mode : sync = .always) :
      WriterMove sync stream needFsync .syncing stream.flush needFsync .flushed .keep .flush
  | fsync :
      WriterMove sync stream needFsync .flushed stream.fsync needFsync .unlocking .keep .quiet
  | everySecond (mode : sync = .everySecond) :
      WriterMove sync stream needFsync .syncing stream true .unlocking .keep .quiet
  | never (mode : sync = .never) :
      WriterMove sync stream needFsync .syncing stream needFsync .unlocking .keep .quiet
  | unlock :
      WriterMove sync stream needFsync .unlocking stream needFsync .idle .release .quiet

/-- A step of `fsync_loop`. -/
inductive FsyncMove (stop : Bool) (stream : OfStream) (needFsync : Bool) :
    FsyncPlace → OfStream → Bool → FsyncPlace → Mutex.Use → Activity → Prop where
  | goOn (goesOn : stop = false) :
      FsyncMove stop stream needFsync .testing stream needFsync .sleeping .keep .quiet
  | exit (stopped : stop = true) :
      FsyncMove stop stream needFsync .testing stream needFsync .exited .keep .quiet
  | wake : FsyncMove stop stream needFsync .sleeping stream needFsync .exchanging .keep .quiet
  | take (raised : needFsync = true) :
      FsyncMove stop stream needFsync .exchanging stream false .locking .keep .quiet
  | pass (lowered : needFsync = false) :
      FsyncMove stop stream needFsync .exchanging stream false .testing .keep .quiet
  | lock : FsyncMove stop stream needFsync .locking stream needFsync .locked .acquire .quiet
  | flush (isOpen : stream.isOpen = true) :
      FsyncMove stop stream needFsync .locked stream.flush needFsync .flushed .keep .flush
  | skip (closed : stream.isOpen = false) :
      FsyncMove stop stream needFsync .locked stream needFsync .unlocking .keep .quiet
  | fsync :
      FsyncMove stop stream needFsync .flushed stream.fsync needFsync .unlocking .keep .quiet
  | unlock : FsyncMove stop stream needFsync .unlocking stream needFsync .testing .release .quiet

/-- A step of the destructor. -/
inductive DestructorMove (fsyncThread : FsyncPlace) (stop : Bool) (stream : OfStream) :
    DestructorPlace → OfStream → Bool → DestructorPlace → Mutex.Use → Activity → Prop where
  | stop : DestructorMove fsyncThread stop stream .alive stream true .joining .keep .quiet
  | join (ended : fsyncThread.ended = true) :
      DestructorMove fsyncThread stop stream .joining stream stop .locking .keep .quiet
  | lock : DestructorMove fsyncThread stop stream .locking stream stop .locked .acquire .quiet
  | flush (isOpen : stream.isOpen = true) :
      DestructorMove fsyncThread stop stream .locked stream.flush stop .flushed .keep .flush
  | skip (closed : stream.isOpen = false) :
      DestructorMove fsyncThread stop stream .locked stream stop .unlocking .keep .quiet
  | close :
      DestructorMove fsyncThread stop stream .flushed stream.close stop .unlocking .keep .flush
  | unlock :
      DestructorMove fsyncThread stop stream .unlocking stream stop .finished .release .quiet

end AofThreads

/-- The members of an `AofWriter`, and where its threads are. -/
structure AofThreads (Writer : Type) where
  stream : OfStream
  mu : Option (AofThreads.Thread Writer)
  stop : Bool
  needFsync : Bool
  writers : Writer → AofThreads.WriterPlace
  fsyncThread : AofThreads.FsyncPlace
  destructor : AofThreads.DestructorPlace

namespace AofThreads

variable {Writer : Type}

/-- The writer behind its constructor, which has found the bytes `base` in the file, if it could
open it.  Only the mode `EVERY_SECOND` has an fsync thread. -/
def initial (sync : AofSync) (isOpen : Bool) (base : Bytes) : AofThreads Writer where
  stream := ⟨base, base, [], isOpen⟩
  mu := none
  stop := false
  needFsync := false
  writers := fun _ => .idle
  fsyncThread := if sync = .everySecond ∧ isOpen = true then .testing else .absent
  destructor := .alive

/-- One step of one thread. -/
inductive Step [DecidableEq Writer] (sync : AofSync) (state : AofThreads Writer) :
    Activity → AofThreads Writer → Prop where
  | writer (writer : Writer) {stream : OfStream} {needFsync : Bool} {place : WriterPlace}
      {use : Mutex.Use} {activity : Activity}
      (move : WriterMove sync state.stream state.needFsync (state.writers writer) stream needFsync
        place use activity) (available : use = .acquire → state.mu = none) :
      Step sync state activity
        { state with
          stream := stream
          mu := use.after (.writer writer) state.mu
          needFsync := needFsync
          writers := Function.update state.writers writer place }
  | fsync {stream : OfStream} {needFsync : Bool} {place : FsyncPlace} {use : Mutex.Use}
      {activity : Activity}
      (move : FsyncMove state.stop state.stream state.needFsync state.fsyncThread stream needFsync
        place use activity) (available : use = .acquire → state.mu = none) :
      Step sync state activity
        { state with
          stream := stream
          mu := use.after .fsync state.mu
          needFsync := needFsync
          fsyncThread := place }
  | destructor {stream : OfStream} {stop : Bool} {place : DestructorPlace} {use : Mutex.Use}
      {activity : Activity}
      (move : DestructorMove state.fsyncThread state.stop state.stream state.destructor stream stop
        place use activity) (available : use = .acquire → state.mu = none) :
      Step sync state activity
        { state with
          stream := stream
          mu := use.after .destructor state.mu
          stop := stop
          destructor := place }

/-! ## The account of a run -/

namespace Activity

def held : Activity → List Record
  | .hold _ record => [record]
  | _ => []

/-- The record, if its writer finds the stream open. -/
def written : Activity → List Record
  | .hold true record => [record]
  | _ => []

def chunk : Activity → Bytes
  | .put chunk => chunk
  | _ => []

end Activity

section Account

variable (activities : List Activity)

/-- The records in the order in which their writers have entered `mu_`. -/
def held : List Record :=
  activities.flatMap Activity.held

/-- Those of them that have found the stream open. -/
def written : List Record :=
  activities.flatMap Activity.written

/-- The bytes that the stream has been given since it was flushed last. -/
def unflushed : Bytes :=
  activities.foldl
    (fun pending activity => if activity = .flush then [] else pending ++ activity.chunk) []

@[simp]
theorem written_append_singleton (last : Activity) :
    written (activities ++ [last]) = written activities ++ last.written := by
  simp [written]

@[simp]
theorem unflushed_append_flush : unflushed (activities ++ [.flush]) = [] := by
  simp [unflushed]

@[simp]
theorem unflushed_append_put (chunk : Bytes) :
    unflushed (activities ++ [.put chunk]) = unflushed activities ++ chunk := by
  simp [unflushed, Activity.chunk]

theorem unflushed_append_silent {last : Activity} (silent : last ≠ .flush)
    (nothing : last.chunk = []) : unflushed (activities ++ [last]) = unflushed activities := by
  simp [unflushed, silent, nothing]

@[simp]
theorem unflushed_append_quiet : unflushed (activities ++ [.quiet]) = unflushed activities :=
  unflushed_append_silent activities nofun rfl

end Account

/-- How the stream may change. -/
inductive StreamMove (stream : OfStream) : Activity → OfStream → Prop where
  | stay {activity : Activity} (silent : activity ≠ .flush) (nothing : activity.chunk = []) :
      StreamMove stream activity stream
  | put (chunk : Bytes) (isOpen : stream.isOpen = true) :
      StreamMove stream (.put chunk) (stream.put chunk)
  | spill (count : ℕ) : StreamMove stream .quiet (stream.spill count)
  | flush : StreamMove stream .flush stream.flush
  | fsync : StreamMove stream .quiet stream.fsync
  | close : StreamMove stream .flush stream.close

namespace StreamMove

variable {stream later : OfStream} {activity : Activity}

theorem contents_eq (move : StreamMove stream activity later) :
    later.contents = stream.contents ++ activity.chunk := by
  cases move with
  | stay silent nothing => rw [nothing, List.append_nil]
  | put chunk isOpen => exact stream.contents_put chunk
  | spill count => exact (stream.contents_spill count).trans (List.append_nil _).symm
  | flush => exact stream.contents_flush.trans (List.append_nil _).symm
  | fsync => exact stream.contents_fsync.trans (List.append_nil _).symm
  | close => exact stream.contents_close.trans (List.append_nil _).symm

/-- What is in the buffer has been given since the last flush. -/
theorem pending (move : StreamMove stream activity later) {activities : List Activity}
    (before : stream.buffer <:+ unflushed activities) :
    later.buffer <:+ unflushed (activities ++ [activity]) := by
  cases move with
  | stay silent nothing => rwa [unflushed_append_silent _ silent nothing]
  | put chunk isOpen =>
      rw [unflushed_append_put]
      rcases before with ⟨early, parts⟩
      exact ⟨early, by rw [← parts, OfStream.put, List.append_assoc]⟩
  | spill count =>
      rw [unflushed_append_quiet]
      exact (List.drop_suffix count _).trans before
  | fsync => rwa [unflushed_append_quiet]
  | flush | close => exact List.nil_suffix

theorem drained (move : StreamMove stream activity later)
    (before : stream.isOpen = false → stream.buffer = []) (closed : later.isOpen = false) :
    later.buffer = [] := by
  cases move with
  | stay silent nothing => exact before closed
  | put chunk isOpen =>
      rw [OfStream.put, isOpen] at closed
      cases closed
  | spill count =>
      have empty := before closed
      rw [OfStream.spill, empty, List.drop_nil]
  | flush => rfl
  | fsync => exact before closed
  | close => rfl

end StreamMove

/-- What may be left to do for the bytes that the stream has been given. -/
inductive Debt where
  | flush
  | fsync
deriving DecidableEq, Repr

namespace Debt

/-- The stream has been given bytes since it was flushed, or the file has bytes that no `fsync`
has reached. -/
def Open (activities : List Activity) (stream : OfStream) : Debt → Prop
  | .flush => unflushed activities ≠ []
  | .fsync => stream.disk ≠ stream.file

end Debt

/-- A writer that has yet to raise the flag, or to do itself what is left to do. -/
def WriterPlace.owes : Debt → WriterPlace → Bool
  | _, .writing _ | _, .syncing | .fsync, .flushed => true
  | _, _ => false

/-- The fsync thread has taken the flag and has yet to do what is left to do. -/
def FsyncPlace.owes : Debt → FsyncPlace → Bool
  | _, .locking | _, .locked | .fsync, .flushed => true
  | _, _ => false

theorem FsyncPlace.of_owes_flush {place : FsyncPlace} (owes : place.owes .flush = true) :
    place = .locking ∨ place = .locked := by
  cases place with
  | locking => exact Or.inl rfl
  | locked => exact Or.inr rfl
  | absent | testing | sleeping | exchanging | flushed | unlocking | exited => cases owes

theorem WriterPlace.owes_fsync {place : WriterPlace} (owes : place.owes .flush = true) :
    place.owes .fsync = true := by
  cases place with
  | writing | syncing | flushed => rfl
  | idle | called | locking | unlocking => cases owes

theorem FsyncPlace.owes_fsync {place : FsyncPlace} (owes : place.owes .flush = true) :
    place.owes .fsync = true := by
  cases place with
  | locking | locked | flushed => rfl
  | absent | testing | sleeping | exchanging | unlocking | exited => cases owes

namespace Debt

variable {activities : List Activity} {stream later : OfStream} {activity : Activity}

/-- What the file is given comes out of the buffer. -/
theorem open_of_grown {part : Bytes} (pending : stream.buffer <:+ unflushed activities)
    (fromBuffer : stream.buffer = [] → part = []) (grown : stream.disk ≠ stream.file ++ part) :
    Open activities stream .fsync ∨ Open activities stream .flush := by
  by_cases empty : stream.buffer = []
  · left
    rwa [fromBuffer empty, List.append_nil] at grown
  · right
    intro nothing
    rw [nothing] at pending
    exact empty (List.suffix_nil.mp pending)

theorem open_flush_cases (move : StreamMove stream activity later)
    (isOpen : Open (activities ++ [activity]) later .flush) :
    Open activities stream .flush ∨ ∃ chunk, activity = .put chunk := by
  rw [Open] at isOpen
  cases move with
  | stay silent nothing =>
      left
      rwa [unflushed_append_silent _ silent nothing] at isOpen
  | put chunk _ => exact Or.inr ⟨chunk, rfl⟩
  | spill | fsync =>
      left
      rwa [unflushed_append_quiet] at isOpen
  | flush | close => exact absurd (unflushed_append_flush _) isOpen

theorem open_fsync_cases (move : StreamMove stream activity later)
    (pending : stream.buffer <:+ unflushed activities)
    (isOpen : Open (activities ++ [activity]) later .fsync) :
    Open activities stream .fsync ∨ Open activities stream .flush := by
  cases move with
  | stay | put => exact Or.inl isOpen
  | spill count =>
      exact open_of_grown pending (fun empty => by rw [empty, List.take_nil]) isOpen
  | flush | close => exact open_of_grown pending id isOpen
  | fsync => exact absurd rfl isOpen

end Debt

/-! ## What a move does -/

theorem WriterPlace.rest_of_outside {place : WriterPlace} (outside : place.holdsMu = false) :
    place.rest = [] := by
  cases place with
  | writing => cases outside
  | idle | called | locking | syncing | flushed | unlocking => rfl

namespace WriterMove

variable {sync : AofSync} {stream later : OfStream} {needFsync laterFsync : Bool}
  {place next : WriterPlace} {use : Mutex.Use} {activity : Activity}

theorem fits (move : WriterMove sync stream needFsync place later laterFsync next use activity) :
    use.Fits place.holdsMu next.holdsMu := by
  cases move with
  | lock => exact ⟨fun _ => Or.inl rfl, nofun⟩
  | put | spill | written | fail | always | fsync | everySecond | never =>
      exact ⟨fun _ => Or.inr ⟨rfl, rfl⟩, nofun⟩
  | call | skip | goOn => exact ⟨nofun, nofun⟩
  | unlock => exact ⟨nofun, fun _ => rfl⟩

theorem streamMove
    (move : WriterMove sync stream needFsync place later laterFsync next use activity) :
    StreamMove stream activity later := by
  cases move with
  | put isOpen parts => exact .put _ isOpen
  | spill count isOpen => exact .spill count
  | always mode => exact .flush
  | fsync => exact .fsync
  | call | skip | goOn | lock | written | fail | everySecond | never | unlock =>
      exact .stay nofun rfl

theorem isOpen_eq
    (move : WriterMove sync stream needFsync place later laterFsync next use activity) :
    later.isOpen = stream.isOpen := by
  cases move with
  | call | skip | goOn | lock | put | spill | written | fail | always | fsync | everySecond
  | never | unlock => rfl

/-- A writer takes `mu_`, or is inside it, or is not concerned with the stream. -/
theorem outside_cases
    (move : WriterMove sync stream needFsync place later laterFsync next use activity) :
    use = .acquire ∨ place.holdsMu = true ∨
      use = .keep ∧ later = stream ∧ activity = .quiet ∧ next.rest = place.rest := by
  cases move with
  | lock => exact Or.inl rfl
  | put | spill | written | fail | always | fsync | everySecond | never | unlock =>
      exact Or.inr (Or.inl rfl)
  | call | skip | goOn => exact Or.inr (Or.inr ⟨rfl, rfl, rfl, rfl⟩)

theorem rest_of_release
    (move : WriterMove sync stream needFsync place later laterFsync next .release activity) :
    next.rest = [] := by
  cases move with
  | unlock => rfl

/-- A record that finds the stream open is handed to it, byte by byte. -/
theorem contents_eq
    (move : WriterMove sync stream needFsync place later laterFsync next use activity)
    (isOpen : stream.isOpen = true) :
    later.contents ++ next.rest =
      stream.contents ++ place.rest ++ fileBytes activity.written := by
  cases move with
  | lock =>
      rw [isOpen]
      simp [WriterPlace.rest, Activity.written, fileBytes]
  | put _ parts => simp [WriterPlace.rest, Activity.written, fileBytes, parts]
  | fail closed =>
      rw [isOpen] at closed
      cases closed
  | call | skip | goOn | spill | written | always | fsync | everySecond | never | unlock =>
      simp [WriterPlace.rest, Activity.written, fileBytes]

/-- A closed stream is given nothing. -/
theorem contents_of_closed
    (move : WriterMove sync stream needFsync place later laterFsync next use activity)
    (closed : stream.isOpen = false) :
    later.contents = stream.contents ∧ activity.written = [] := by
  cases move with
  | lock =>
      rw [closed]
      exact ⟨rfl, rfl⟩
  | put isOpen =>
      rw [closed] at isOpen
      cases isOpen
  | always => exact ⟨stream.contents_flush, rfl⟩
  | spill count => exact ⟨stream.contents_spill count, rfl⟩
  | call | skip | goOn | written | fail | fsync | everySecond | never | unlock =>
      exact ⟨rfl, rfl⟩

/-- A writer leaves nothing to do behind, unless the flag is up. -/
theorem owes (move : WriterMove sync stream needFsync place later laterFsync next use activity)
    (mode : sync ≠ .never) {activities : List Activity} {debt : Debt}
    (isOpen : debt.Open (activities ++ [activity]) later)
    (covered : needFsync = true ∨ place.owes debt = true) :
    laterFsync = true ∨ next.owes debt = true := by
  cases move with
  | everySecond => exact Or.inl rfl
  | never never => exact absurd never mode
  | put | spill | written | fail => exact Or.inr (by cases debt <;> rfl)
  | always =>
      cases debt with
      | flush => exact absurd (unflushed_append_flush _) isOpen
      | fsync => exact Or.inr rfl
  | fsync =>
      rcases covered with raised | owes
      · exact Or.inl raised
      · cases debt with
        | flush => cases owes
        | fsync => exact absurd rfl isOpen
  | call | skip | goOn | lock | unlock =>
      rcases covered with raised | owes
      · exact Or.inl raised
      · cases debt <;> cases owes

/-- A writer that gives something to the stream has yet to raise the flag. -/
theorem owes_of_put {chunk : Bytes}
    (move : WriterMove sync stream needFsync place later laterFsync next use (.put chunk))
    (debt : Debt) : next.owes debt = true := by
  cases move with
  | put => cases debt <;> rfl

theorem isOpen_of_locking {record : Record}
    (move : WriterMove sync stream needFsync place later laterFsync (.locking record) use
      activity) : stream.isOpen = true := by
  cases move with
  | goOn isOpen => exact isOpen

theorem of_hold {isOpen : Bool} {record : Record}
    (move : WriterMove sync stream needFsync place later laterFsync next use
      (.hold isOpen record)) : place = .locking record ∧ stream.isOpen = isOpen := by
  cases move with
  | lock => exact ⟨rfl, rfl⟩

theorem needFsync_eq
    (move : WriterMove sync stream needFsync place later laterFsync next use activity)
    (mode : sync ≠ .everySecond) : laterFsync = needFsync := by
  cases move with
  | everySecond everySecond => exact absurd everySecond mode
  | call | skip | goOn | lock | put | spill | written | fail | always | fsync | never
  | unlock => rfl

end WriterMove

namespace FsyncMove

variable {stop : Bool} {stream later : OfStream} {needFsync laterFsync : Bool}
  {place next : FsyncPlace} {use : Mutex.Use} {activity : Activity}

theorem fits (move : FsyncMove stop stream needFsync place later laterFsync next use activity) :
    use.Fits place.holdsMu next.holdsMu := by
  cases move with
  | lock => exact ⟨fun _ => Or.inl rfl, nofun⟩
  | flush | skip | fsync => exact ⟨fun _ => Or.inr ⟨rfl, rfl⟩, nofun⟩
  | goOn | exit | wake | take | pass => exact ⟨nofun, nofun⟩
  | unlock => exact ⟨nofun, fun _ => rfl⟩

theorem streamMove
    (move : FsyncMove stop stream needFsync place later laterFsync next use activity) :
    StreamMove stream activity later := by
  cases move with
  | flush isOpen => exact .flush
  | fsync => exact .fsync
  | goOn | exit | wake | take | pass | lock | skip | unlock => exact .stay nofun rfl

theorem isOpen_eq
    (move : FsyncMove stop stream needFsync place later laterFsync next use activity) :
    later.isOpen = stream.isOpen := by
  cases move with
  | goOn | exit | wake | take | pass | lock | flush | skip | fsync | unlock => rfl

theorem activity_cases
    (move : FsyncMove stop stream needFsync place later laterFsync next use activity) :
    activity = .flush ∨ activity = .quiet := by
  cases move with
  | flush => exact Or.inl rfl
  | goOn | exit | wake | take | pass | lock | skip | fsync | unlock => exact Or.inr rfl

theorem not_ended
    (move : FsyncMove stop stream needFsync place later laterFsync next use activity) :
    place.ended = false := by
  cases move with
  | goOn | exit | wake | take | pass | lock | flush | skip | fsync | unlock => rfl

/-- The fsync thread lowers the flag only to do what is left to do. -/
theorem owes (move : FsyncMove stop stream needFsync place later laterFsync next use activity)
    (streamOpen : stream.isOpen = true) {activities : List Activity} {debt : Debt}
    (isOpen : debt.Open (activities ++ [activity]) later)
    (covered : needFsync = true ∨ place.owes debt = true) :
    laterFsync = true ∨ next.owes debt = true := by
  cases move with
  | take | lock => exact Or.inr (by cases debt <;> rfl)
  | pass lowered =>
      rcases covered with raised | owes
      · rw [lowered] at raised
        cases raised
      · cases debt <;> cases owes
  | flush =>
      cases debt with
      | flush => exact absurd (unflushed_append_flush _) isOpen
      | fsync => exact Or.inr rfl
  | skip closed =>
      rw [streamOpen] at closed
      cases closed
  | fsync =>
      rcases covered with raised | owes
      · exact Or.inl raised
      · cases debt with
        | flush => cases owes
        | fsync => exact absurd rfl isOpen
  | goOn | exit | wake | unlock =>
      rcases covered with raised | owes
      · exact Or.inl raised
      · cases debt <;> cases owes

end FsyncMove

namespace DestructorMove

variable {fsyncThread : FsyncPlace} {stop laterStop : Bool} {stream later : OfStream}
  {place next : DestructorPlace} {use : Mutex.Use} {activity : Activity}

theorem fits (move : DestructorMove fsyncThread stop stream place later laterStop next use
    activity) : use.Fits place.holdsMu next.holdsMu := by
  cases move with
  | lock => exact ⟨fun _ => Or.inl rfl, nofun⟩
  | flush | skip | close => exact ⟨fun _ => Or.inr ⟨rfl, rfl⟩, nofun⟩
  | stop | join => exact ⟨nofun, nofun⟩
  | unlock => exact ⟨nofun, fun _ => rfl⟩

theorem streamMove (move : DestructorMove fsyncThread stop stream place later laterStop next use
    activity) : StreamMove stream activity later := by
  cases move with
  | flush isOpen => exact .flush
  | close => exact .close
  | stop | join | lock | skip | unlock => exact .stay nofun rfl

theorem activity_cases (move : DestructorMove fsyncThread stop stream place later laterStop next
    use activity) : activity = .flush ∨ activity = .quiet := by
  cases move with
  | flush | close => exact Or.inl rfl
  | stop | join | lock | skip | unlock => exact Or.inr rfl

/-- The stream is closed behind the end of the fsync thread. -/
theorem ended (move : DestructorMove fsyncThread stop stream place later laterStop next use
    activity)
    (before : stream.isOpen = false ∨ place.joined = true → fsyncThread.ended = true)
    (after : later.isOpen = false ∨ next.joined = true) : fsyncThread.ended = true := by
  cases move with
  | stop => exact before after
  | join ended => exact ended
  | lock | flush | skip | close | unlock => exact before (Or.inr rfl)

theorem closed (move : DestructorMove fsyncThread stop stream place later laterStop next use
    activity) (before : place.closed = true → stream.isOpen = false)
    (after : next.closed = true) : later.isOpen = false := by
  cases move with
  | skip closed => exact closed
  | close => rfl
  | unlock => exact before rfl
  | stop | join | lock | flush => cases after

/-- The stream is closed by the destructor, inside `mu_`. -/
theorem isOpen_cases (move : DestructorMove fsyncThread stop stream place later laterStop next use
    activity) : later.isOpen = stream.isOpen ∨ place.holdsMu = true := by
  cases move with
  | close => exact Or.inr rfl
  | stop | join | lock | flush | skip | unlock => exact Or.inl rfl

end DestructorMove

end AofThreads

end RedisCpp.Store
