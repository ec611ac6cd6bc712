import RedisCpp.Store.AofFlush

/-!
# What survives a loss of power

A loss of power leaves all of the file that an `fsync` has reached, and as much of what follows
as the kernel has written by then.  The end of the process alone leaves the whole file.  In
both cases the last record may be torn.

Whatever is left is read back as an initial part of the records, in the order in which their
writers have entered `mu_`.  How long it is at least depends on the mode.
-/

namespace RedisCpp.Store

/-- What is left of a log is read back as an initial part of its records, with every record that
is left as a whole. -/
theorem replay_of_isPrefix {records : List Record} (fits : ∀ record ∈ records, record.Fits)
    {left : Bytes} (ahead : left <+: fileBytes records) :
    ∃ count ≤ records.length, replay left = ⟨records.take count, .returned count⟩ ∧
      ∀ whole ≤ records.length, fileBytes (records.take whole) <+: left → whole ≤ count := by
  have left_eq := List.prefix_iff_eq_take.mp ahead
  rcases completeWithin_eq_take left.length records with ⟨count, bound, taken, within⟩
  refine ⟨count, bound, ?_, ?_⟩
  · have enough : ((fileBytes records).take left.length).length < left.length + 1 := by
      rw [← left_eq]
      exact Nat.lt_succ_self _
    have replayed := replayLoop_take fits left.length enough 0
    rw [← left_eq, taken, List.length_take, Nat.min_eq_left bound, zero_add] at replayed
    exact replayed
  · intro whole within_records kept
    cases whole with
    | zero => exact Nat.zero_le _
    | succ index =>
        apply (within index within_records).mpr
        exact kept.length_le.trans (Nat.le_add_right _ _)

namespace AofThreads

variable {Writer : Type}

/-- What may be left of the file. -/
def Survives (state : AofThreads Writer) (left : Bytes) : Prop :=
  state.stream.disk <+: left ∧ left <+: state.stream.file

theorem StreamMove.disk_isPrefix {stream later : OfStream} {activity : Activity}
    (move : StreamMove stream activity later) (behind : stream.disk <+: stream.file) :
    stream.disk <+: later.disk ∧ later.disk <+: later.file := by
  cases move with
  | stay | put => exact ⟨List.prefix_rfl, behind⟩
  | spill | flush | close =>
      exact ⟨List.prefix_rfl, behind.trans (List.prefix_append _ _)⟩
  | fsync => exact ⟨behind, List.prefix_rfl⟩

variable [DecidableEq Writer] {sync : AofSync} {state final after : AofThreads Writer}
  {activity : Activity} {moves later : List (Transition.Move (AofThreads Writer) Activity)}

theorem Step.streamMove (step : Step sync state activity after) :
    StreamMove state.stream activity after.stream := by
  cases step with
  | writer writer move available => exact move.streamMove
  | fsync move available => exact move.streamMove
  | destructor move available => exact move.streamMove

/-- What has reached the disk stays there. -/
theorem disk_run (continued : Transition.Run (Step sync) state later final)
    (behind : state.stream.disk <+: state.stream.file) :
    state.stream.disk <+: final.stream.disk ∧ final.stream.disk <+: final.stream.file := by
  apply continued.invariant ⟨List.prefix_rfl, behind⟩
  intro _ _ _ _ _ before step
  have moved := step.streamMove.disk_isPrefix before.2
  exact ⟨before.1.trans moved.1, moved.2⟩

theorem file_isPrefix {isOpen : Bool} {base : Bytes}
    (run : Transition.Run (Step sync) (initial sync isOpen base) moves state) :
    state.stream.file <+: base ++ fileBytes (written (moves.map Transition.Move.label)) := by
  rw [← (Invariant.run run).contents, OfStream.contents, List.append_assoc]
  exact List.prefix_append _ _

/-- In the mode `ALWAYS` a writer that is about to leave `mu_` leaves nothing to do. -/
theorem settled_of_unlocking {isOpen : Bool} {base : Bytes} {writer : Writer}
    (run : Transition.Run (Step .always) (initial .always isOpen base) moves state)
    (unlocking : state.writers writer = .unlocking) : ¬state.Covered .fsync := by
  have invariant := Invariant.run run
  have quiet := invariant.idle nofun
  rintro (raised | owes | ⟨other, owes⟩)
  · rw [quiet.2] at raised
    cases raised
  · rw [quiet.1] at owes
    cases owes
  · have here : state.holdsMu (.writer writer) = true := by
      rw [holdsMu, unlocking]
      rfl
    have inside : state.holdsMu (.writer other) = true := by
      rw [holdsMu]
      cases place : state.writers other with
      | writing | syncing | flushed | unlocking => rfl
      | idle | called | locking =>
          rw [place] at owes
          cases owes
    have same := invariant.exclusive.unique inside here
    simp only [Thread.writer.injEq] at same
    rw [same, unlocking] at owes
    cases owes

section Crash

variable {isOpen : Bool} {old : List Record} {left : Bytes}

/-- What is left after a crash is read back as an initial part of the records, those that were
there before among them. -/
theorem exists_replay
    (run : Transition.Run (Step sync) (initial sync isOpen (fileBytes old)) moves final)
    (fits : ∀ record ∈ old ++ written (moves.map Transition.Move.label), record.Fits)
    (survives : final.Survives left) :
    ∃ count ≤ (old ++ written (moves.map Transition.Move.label)).length,
      replay left = ⟨(old ++ written (moves.map Transition.Move.label)).take count,
        .returned count⟩ ∧
      ∀ kept, kept <+: written (moves.map Transition.Move.label) →
        fileBytes (old ++ kept) <+: final.stream.disk → (old ++ kept).length ≤ count := by
  have ahead := survives.2.trans (file_isPrefix run)
  rw [← fileBytes_append] at ahead
  rcases replay_of_isPrefix fits ahead with ⟨count, bound, replayed, whole⟩
  refine ⟨count, bound, replayed, ?_⟩
  rintro kept ⟨rest, split⟩ reached
  apply whole
  · rw [← split, ← List.append_assoc, @List.length_append _ (old ++ kept)]
    exact Nat.le_add_right _ _
  · rw [← split, ← List.append_assoc, List.take_left]
    exact reached.trans survives.1

/-- A loss of power at any moment leaves a log that is read back as an initial part of the
records, in the order of their writers, behind those that were there before.  In the modes
`EVERY_SECOND` and `ALWAYS` it has at least the records that were written when nothing was left
to flush, and in the mode `ALWAYS` also those that were written when any writer was about to
leave `mu_`. -/
theorem crash_keeps_synced
    (run : Transition.Run (Step sync) (initial sync isOpen (fileBytes old)) moves state)
    (continued : Transition.Run (Step sync) state later final)
    (fits : ∀ record ∈ old ++ written ((moves ++ later).map Transition.Move.label), record.Fits)
    (survives : final.Survives left) :
    ∃ count ≤ (old ++ written ((moves ++ later).map Transition.Move.label)).length,
      replay left = ⟨(old ++ written ((moves ++ later).map Transition.Move.label)).take count,
        .returned count⟩ ∧
      old.length ≤ count ∧
      (sync ≠ .never → ¬state.Covered .fsync →
        old.length + (written (moves.map Transition.Move.label)).length ≤ count) ∧
      ∀ writer, sync = .always → state.writers writer = .unlocking →
        old.length + (written (moves.map Transition.Move.label)).length ≤ count := by
  rcases exists_replay (run.trans continued) fits survives with ⟨count, bound, replayed, kept⟩
  have start := disk_run run List.prefix_rfl
  have onward := disk_run continued start.2
  have settledKept : sync ≠ .never → ¬state.Covered .fsync →
      old.length + (written (moves.map Transition.Move.label)).length ≤ count := by
    intro mode settled
    rw [← List.length_append]
    apply kept
    · simp only [List.map_append, written, List.flatMap_append]
      exact List.prefix_append _ _
    · rw [fileBytes_append, ← disk_of_settled run mode settled]
      exact onward.1
  refine ⟨count, bound, replayed, ?_, settledKept, ?_⟩
  · have base := kept [] List.nil_prefix
    rw [List.append_nil] at base
    exact base (start.1.trans onward.1)
  · rintro writer rfl unlocking
    exact settledKept AofSync.noConfusion (settled_of_unlocking run unlocking)

end Crash

/-- A record that has been written in the mode `ALWAYS`, and then the power fails. -/
theorem crash_keeps_synced_always :
    ∃ (moves : List (Transition.Move (AofThreads Unit) Activity)) (state : AofThreads Unit),
      Transition.Run (Step .always) (initial .always true (fileBytes [])) moves state ∧
        state.writers () = .unlocking ∧
        replay state.stream.disk = ⟨[.del [65]], .returned 1⟩ := by
  have start : Transition.Run (Step .always) (initial .always true (fileBytes [])) []
      (sole ⟨[], [], [], true⟩ none false false .idle .absent .alive) :=
    @Transition.Run.nil _ _ (@Step Unit _ .always) _
  have holding := ((start.snoc (sole_writer (.call (.del [65])) nofun)).snoc
    (sole_writer (.goOn rfl) nofun)).snoc (sole_writer .lock fun _ => rfl)
  have put := (holding.snoc (sole_writer (.put rfl (List.append_nil _).symm) nofun)).snoc
    (sole_writer .written nofun)
  have synced := (put.snoc (sole_writer (.always rfl) nofun)).snoc (sole_writer .fsync nofun)
  rcases crash_keeps_synced synced .nil (by simp [written, Activity.written, Record.Fits,
    maxStringSize]) ⟨List.prefix_rfl, List.prefix_rfl⟩ with ⟨count, bound, replayed, -, -, kept⟩
  have all := kept () rfl rfl
  have one : count = 1 := Nat.le_antisymm bound all
  subst one
  exact ⟨_, _, synced, rfl, replayed⟩

end AofThreads

end RedisCpp.Store
