import Mathlib.Data.List.Nodup

/-!
# The ready list of a poller

A poller keeps the sources on which something has happened in the order in which it happened,
each of them once.  A poll goes through the list from the front, reports the sources on which it
finds something, at most so many of them, and takes off what it has gone through.  A source that
is watched for its level goes back to the end of the list while it has something to report; all
others come back only when something happens again.

So sources are polled round robin: each poll that does not come to a source leaves fewer ahead
of it.
-/

/-- Sources on which something has happened, each of them once. -/
structure ReadyList (Source : Type*) where
  sources : List Source
  nodup : sources.Nodup

namespace ReadyList

variable {Source Event : Type*}

/-- Nothing has happened. -/
def empty : ReadyList Source :=
  ⟨[], List.nodup_nil⟩

instance : Membership Source (ReadyList Source) :=
  ⟨fun ready source => source ∈ ready.sources⟩

theorem mem_def {ready : ReadyList Source} {source : Source} :
    source ∈ ready ↔ source ∈ ready.sources := Iff.rfl

/-- What a poll finds and leaves.  `report` is what a source has to report, and `level` tells which
sources are watched for their level. -/
structure Polled (report : Source → Option Event) (level : Source → Bool) (limit : ℕ)
    (ready : ReadyList Source) (events : List Event) (after : ReadyList Source) : Prop where
  scan : ∃ scanned rest, ready.sources = scanned ++ rest ∧ events = scanned.filterMap report ∧
    events.length ≤ limit ∧ (rest = [] ∨ events.length = limit) ∧
      after.sources = rest ++ scanned.filter fun source => level source && (report source).isSome

section Polling

variable {report : Source → Option Event} {level : Source → Bool} {limit : ℕ}
  {ready after : ReadyList Source} {events : List Event} {source : Source} {event : Event}

/-- A source that is watched for its level stays listed while it has something to report. -/
theorem Polled.mem_of_level (polled : Polled report level limit ready events after)
    (mem : source ∈ ready) (levelled : level source = true)
    (reports : report source = some event) : source ∈ after := by
  rcases polled.scan with ⟨scanned, rest, split, -, -, -, left⟩
  rw [mem_def, left]
  rw [mem_def, split] at mem
  rcases List.mem_append.mp mem with passed | waiting
  · apply List.mem_append_right
    apply List.mem_filter.mpr
    exact ⟨passed, by rw [levelled, reports, Option.isSome_some, Bool.and_self]⟩
  · exact List.mem_append_left _ waiting

variable [DecidableEq Source]

/-- The number of sources that are polled before a source. -/
def ahead (ready : ReadyList Source) (source : Source) : ℕ :=
  ready.sources.idxOf source

/-- A source that has something to report is reported, or there are fewer ahead of it after the
poll, as many as a poll may report. -/
theorem Polled.reported_or_ahead (polled : Polled report level limit ready events after)
    (mem : source ∈ ready) (reports : report source = some event) :
    event ∈ events ∨ source ∈ after ∧ after.ahead source + limit ≤ ready.ahead source := by
  rcases polled.scan with ⟨scanned, rest, split, found, -, full, left⟩
  by_cases passed : source ∈ scanned
  · left
    rw [found]
    exact List.mem_filterMap.mpr ⟨source, passed, reports⟩
  · right
    rw [mem_def, split] at mem
    have waiting : source ∈ rest := (List.mem_append.mp mem).resolve_left passed
    have reached : events.length = limit := by
      rcases full with rfl | reached
      · cases waiting
      · exact reached
    have room : limit ≤ scanned.length := by
      rw [← reached, found]
      exact List.length_filterMap_le report scanned
    refine ⟨?_, ?_⟩
    · rw [mem_def, left]
      exact List.mem_append_left _ waiting
    · rw [ahead, ahead, split, left, List.idxOf_append_of_mem waiting,
        List.idxOf_append_of_notMem passed, Nat.add_comm]
      exact Nat.add_le_add_right room _

end Polling

section Changes

variable [DecidableEq Source] {ready : ReadyList Source} {source other : Source}

/-- Something has happened on a source. -/
def signal (ready : ReadyList Source) (source : Source) : ReadyList Source where
  sources := if source ∈ ready.sources then ready.sources else ready.sources ++ [source]
  nodup := by
    split
    · exact ready.nodup
    · rename_i fresh
      apply ready.nodup.append (List.nodup_singleton source)
      simpa using fresh

theorem mem_signal_self : source ∈ ready.signal source := by
  simp only [mem_def, signal]
  split
  · assumption
  · exact List.mem_append_right _ (List.mem_singleton_self source)

theorem mem_signal (mem : source ∈ ready) : source ∈ ready.signal other := by
  simp only [mem_def, signal]
  split
  · exact mem
  · exact List.mem_append_left _ mem

/-- What happens elsewhere does not put a source back. -/
theorem ahead_signal (mem : source ∈ ready) :
    (ready.signal other).ahead source = ready.ahead source := by
  simp only [ahead, signal]
  split
  · rfl
  · exact List.idxOf_append_of_mem mem

/-- The sources that are still watched. -/
def keep (ready : ReadyList Source) (watched : Source → Bool) : ReadyList Source where
  sources := ready.sources.filter watched
  nodup := ready.nodup.filter watched

omit [DecidableEq Source] in
theorem mem_keep {watched : Source → Bool} (mem : source ∈ ready)
    (still : watched source = true) : source ∈ ready.keep watched :=
  List.mem_filter.mpr ⟨mem, still⟩

theorem ahead_keep_le {watched : Source → Bool} (still : watched source = true) :
    (ready.keep watched).ahead source ≤ ready.ahead source := by
  simp only [ahead, keep]
  induction ready.sources with
  | nil => exact Nat.le_refl _
  | cons first sources inductionHypothesis =>
      by_cases same : first = source
      · subst same
        rw [List.filter_cons_of_pos still, List.idxOf_cons_self]
        exact Nat.zero_le _
      · rw [List.idxOf_cons_ne _ same]
        by_cases kept : watched first = true
        · rw [List.filter_cons_of_pos kept, List.idxOf_cons_ne _ same]
          exact Nat.succ_le_succ inductionHypothesis
        · rw [List.filter_cons_of_neg kept]
          exact Nat.le_succ_of_le inductionHypothesis

/-- A source that is listed stays listed, with no more sources ahead of it. -/
def Stays (ready after : ReadyList Source) (source : Source) : Prop :=
  source ∈ ready → source ∈ after ∧ after.ahead source ≤ ready.ahead source

namespace Stays

variable {after later : ReadyList Source}

theorem refl (ready : ReadyList Source) (source : Source) : ready.Stays ready source :=
  fun mem => ⟨mem, Nat.le_refl _⟩

theorem trans (first : ready.Stays after source) (second : after.Stays later source) :
    ready.Stays later source := by
  intro mem
  rcases first mem with ⟨still, fewer⟩
  rcases second still with ⟨again, fewest⟩
  exact ⟨again, Nat.le_trans fewest fewer⟩

theorem signal (ready : ReadyList Source) (source other : Source) :
    ready.Stays (ready.signal other) source :=
  fun mem => ⟨mem_signal mem, Nat.le_of_eq (ahead_signal mem)⟩

theorem keep {watched : Source → Bool} (still : watched source = true) :
    ready.Stays (ready.keep watched) source :=
  fun mem => ⟨mem_keep mem still, ahead_keep_le still⟩

end Stays

end Changes

end ReadyList
