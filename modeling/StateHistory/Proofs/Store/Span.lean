import StateHistory.Proofs.Store.Calls

/-!
# How far recording has come

The start of recording is fixed by the first step that has a time, and its end is the latest time so
far. So while a store grows, recording lies between the times of the steps that were taken.
-/

namespace StateHistory.Store

/-- The time that a step moves recording to. -/
def Step.time? : Step → Option Time
  | .advance t | .write t _ _ => some t
  | .add .. | .amend .. | .close _ => none

/-- Recording has not gone past `now`. -/
structure UpTo (s : Store) (now : Time) : Prop where
  start_le : ∀ start, s.start = some start → start ≤ now
  stop_le : ∀ stop, s.stop = some stop → stop ≤ now

/-- Recording goes at least from `first` to `last`. -/
structure Reaches (s : Store) (first last : Time) : Prop where
  start_le : ∃ start, s.start = some start ∧ start ≤ first
  le_stop : ∃ stop, s.stop = some stop ∧ last ≤ stop

section
variable {s s' : Store} {a : Step} {steps : List Step} {now first last t : Time}

theorem upTo_new (now : Time) : new.UpTo now := by
  refine ⟨?_, ?_⟩ <;> rintro t ⟨⟩

theorem UpTo.mono {later : Time} (h : s.UpTo now) (hle : now ≤ later) : s.UpTo later :=
  ⟨fun start hs => Int.le_trans (h.start_le start hs) hle,
    fun stop hs => Int.le_trans (h.stop_le stop hs) hle⟩

theorem UpTo.reach (h : s.UpTo now) (hle : t ≤ now) : (s.reach t).UpTo now := by
  refine ⟨fun start hs => ?_, fun stop hs => ?_⟩
  · rw [start_reach, Option.some.injEq] at hs
    cases hstart : s.start with
    | none => simpa [hstart, ← hs] using hle
    | some a => simpa [hstart, ← hs] using h.start_le a hstart
  · unfold Store.reach at hs
    cases hstart : s.start with
    | none =>
      rw [hstart] at hs
      obtain rfl := Option.some.inj hs
      exact hle
    | some a =>
      rw [hstart] at hs
      obtain rfl := Option.some.inj hs
      cases hstop : s.stop with
      | none => exact hle
      | some b => exact Int.max_le.2 ⟨h.stop_le b hstop, hle⟩

theorem UpTo.takes (h : s.UpTo now) (ha : a.Takes s s') (hc : s'.closed = false)
    (htime : ∀ t, a.time? = some t → t ≤ now) : s'.UpTo now := by
  cases ha with
  | add _ => exact ⟨h.start_le, h.stop_le⟩
  | advance _ => exact h.reach (htime _ rfl)
  | write _ => exact UpTo.reach ⟨h.start_le, h.stop_le⟩ (htime _ rfl)
  | amend _ => exact ⟨h.start_le, h.stop_le⟩
  | close _ => cases hc

/-- Moving to `t` leaves the start alone and the end where it was, or at `t` if that is later. -/
theorem Reaches.reach (h : s.Reaches first last) (t : Time) :
    (s.reach t).Reaches first (max last t) := by
  obtain ⟨⟨start, hstart, hfirst⟩, stop, hstop, hlast⟩ := h
  refine ⟨⟨start, by rw [start_reach, hstart]; rfl, hfirst⟩, max stop t, ?_, by lia⟩
  unfold Store.reach
  rw [hstart]
  simp [hstop]

theorem Reaches.takes (h : s.Reaches first last) (ha : a.Takes s s') (hc : s'.closed = false) :
    s'.Reaches first last := by
  have hreach : ∀ {s : Store} {t : Time}, s.Reaches first last →
      (s.reach t).Reaches first last := by
    intro s t h
    obtain ⟨hstart, stop, hstop, hle⟩ := h.reach t
    exact ⟨hstart, stop, hstop, Int.le_trans (Int.le_max_left _ _) hle⟩
  cases ha with
  | add _ => exact ⟨h.start_le, h.le_stop⟩
  | advance _ => exact hreach h
  | write _ => exact hreach ⟨h.start_le, h.le_stop⟩
  | amend _ => exact ⟨h.start_le, h.le_stop⟩
  | close _ => cases hc

/-- The first move starts recording. -/
theorem reaches_reach (h : s.UpTo t) : (s.reach t).Reaches t t := by
  refine ⟨⟨s.start.getD t, start_reach, ?_⟩, ?_⟩
  · cases hs : s.start with
    | none => exact Int.le_refl t
    | some start => exact h.start_le start hs
  · unfold Store.reach
    cases s.start with
    | none => exact ⟨t, rfl, Int.le_refl t⟩
    | some start => exact ⟨_, rfl, by cases s.stop <;> simp⟩

theorem Reaches.trail (h : s.Reaches first last) (ht : Trail s steps s') (hc : s'.closed = false) :
    s'.Reaches first last := by
  induction ht with
  | nil => exact h
  | cons head rest ih => exact ih (h.takes (Step.takes_of_edit head) (rest.building hc)) hc

end

end StateHistory.Store
