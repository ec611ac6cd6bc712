import Mathlib.Data.Option.Basic
import Mathlib.Logic.Function.Basic

/-!
# Maps whose entries expire

A map from keys to entries together with a test that says until when an entry is
live.  An implementation may drop an entry that has expired, at any moment or
never, without an observer noticing: this is the relation `Purged` between the
implementation's map and a reference map that keeps everything.  The rules below
say how the relation is established and kept: time may pass, both maps may change
in the same way, and the implementation may drop an expired entry.
-/

namespace ExpiringMap

variable {Key Entry Time : Type*}

/-- The entry of a slot, if it is there and live. -/
def visible (live : Entry → Time → Bool) (now : Time) (slot : Option Entry) : Option Entry :=
  slot.filter fun entry => live entry now

/-- Expiry is final: an entry that is live later on is live now. -/
def Antitone [LE Time] (live : Entry → Time → Bool) : Prop :=
  ∀ entry earlier later, earlier ≤ later → live entry later = true → live entry earlier = true

/-- `memory` is `reference` with some of the expired entries removed. -/
def Purged (live : Entry → Time → Bool) (now : Time) (memory reference : Key → Option Entry) :
    Prop :=
  ∀ key, memory key = reference key ∨
    memory key = none ∧ ∃ entry, reference key = some entry ∧ live entry now = false

namespace Purged

variable {live : Entry → Time → Bool} {now : Time} {memory reference : Key → Option Entry}

theorem refl (live : Entry → Time → Bool) (now : Time) (memory : Key → Option Entry) :
    Purged live now memory memory :=
  fun _ => Or.inl rfl

theorem visible_eq (purged : Purged live now memory reference) (key : Key) :
    visible live now (memory key) = visible live now (reference key) := by
  rcases purged key with equal | ⟨absent, entry, present, expired⟩
  · rw [equal]
  · simp [visible, absent, present, Option.filter, expired]

theorem reference_eq (purged : Purged live now memory reference) {key : Key} {entry : Entry}
    (present : memory key = some entry) : reference key = some entry := by
  rcases purged key with equal | ⟨absent, -⟩
  · rw [← equal, present]
  · rw [absent] at present
    exact absurd present (by simp)

theorem later [LE Time] (antitone : Antitone live) {later : Time} (le : now ≤ later)
    (purged : Purged live now memory reference) : Purged live later memory reference := by
  intro key
  rcases purged key with equal | ⟨absent, entry, present, expired⟩
  · exact Or.inl equal
  · refine Or.inr ⟨absent, entry, present, ?_⟩
    by_contra alive
    rw [antitone entry now later le (by simpa using alive)] at expired
    exact Bool.noConfusion expired

theorem update [DecidableEq Key] (purged : Purged live now memory reference) (key : Key)
    (slot : Option Entry) :
    Purged live now (Function.update memory key slot) (Function.update reference key slot) := by
  intro other
  by_cases same : other = key
  · subst other
    simp
  · simpa [Function.update_of_ne same] using purged other

theorem purge [DecidableEq Key] (purged : Purged live now memory reference) {key : Key}
    {entry : Entry} (present : memory key = some entry) (expired : live entry now = false) :
    Purged live now (Function.update memory key none) reference := by
  intro other
  by_cases same : other = key
  · subst other
    exact Or.inr ⟨by simp, entry, purged.reference_eq present, expired⟩
  · simpa [Function.update_of_ne same] using purged other

/-- The reference drops an entry that the memory no longer has. -/
theorem catchUp [DecidableEq Key] (purged : Purged live now memory reference) {key : Key}
    (absent : memory key = none) : Purged live now memory (Function.update reference key none) := by
  intro other
  by_cases same : other = key
  · subst other
    left
    rw [absent, Function.update_self]
  · simpa [Function.update_of_ne same] using purged other

end Purged

/-- Nobody can tell the two maps apart from now on. -/
def Alike (live : Entry → Time → Bool) (now : Time) (memory other : Key → Option Entry) : Prop :=
  ∀ key, visible live now (memory key) = visible live now (other key)

namespace Alike

variable {live : Entry → Time → Bool} {now : Time} {memory other third : Key → Option Entry}

theorem symm (alike : Alike live now memory other) : Alike live now other memory :=
  fun key => (alike key).symm

theorem trans (first : Alike live now memory other) (second : Alike live now other third) :
    Alike live now memory third :=
  fun key => (first key).trans (second key)

/-- What is seen in one map and live is in the other one. -/
theorem eq_some (alike : Alike live now memory other) {key : Key} {entry : Entry}
    (present : memory key = some entry) (alive : live entry now = true) :
    other key = some entry := by
  have shown : visible live now (memory key) = some entry :=
    Option.filter_eq_some_iff.mpr ⟨present, alive⟩
  rw [alike key] at shown
  exact (Option.filter_eq_some_iff.mp shown).1

theorem later [LE Time] (antitone : Antitone live) {later : Time} (le : now ≤ later)
    (alike : Alike live now memory other) : Alike live later memory other := by
  have again : ∀ slot : Option Entry,
      visible live later (visible live now slot) = visible live later slot := by
    intro slot
    cases slot with
    | none => rfl
    | some entry =>
        simp only [visible, Option.filter_filter]
        congr 1
        funext found
        cases alive : live found later with
        | false => exact Bool.and_false _
        | true => rw [antitone found now later le alive, Bool.and_true]
  intro key
  rw [← again, alike key, again]

theorem update [DecidableEq Key] (alike : Alike live now memory other) (key : Key)
    {slot otherSlot : Option Entry} (same : visible live now slot = visible live now otherSlot) :
    Alike live now (Function.update memory key slot) (Function.update other key otherSlot) := by
  intro found
  rcases eq_or_ne found key with rfl | different
  · rw [Function.update_self, Function.update_self, same]
  · rw [Function.update_of_ne different, Function.update_of_ne different]
    exact alike found

end Alike

end ExpiringMap
