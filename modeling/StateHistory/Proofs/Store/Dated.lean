import StateHistory.Proofs.Store.Extent

/-!
# Stores that grow at 64-bit times

A call that neither amends nor closes takes steps at its own time alone (`Call.at_of_mem_steps`). If
that time has 64 bits, all times in the store keep 64 bits (`Ranged`), and no state begins past the
end of recording (`Dated`); an amendment could break the second, since it starts a state where
nothing may have been recorded yet. Closing keeps the first.
-/

namespace StateHistory

theorem Time.inRange_before {t : Time} (h : t.InRange) : t.before.InRange := by
  unfold Time.InRange Time.before Time.earliest Time.latest at *
  lia

theorem Time.inRange_after {t : Time} (h : t.InRange) : t.after.InRange := by
  unfold Time.InRange Time.after Time.earliest Time.latest at *
  lia

theorem Time.inRange_max {t u : Time} (h : t.InRange) (h' : u.InRange) :
    Time.InRange (max t u) := by
  rcases Int.le_total t u with hle | hle
  · rwa [Int.max_eq_right hle]
  · rwa [Int.max_eq_left hle]

theorem Time.inRange_min {t u : Time} (h : t.InRange) (h' : u.InRange) :
    Time.InRange (min t u) := by
  rcases Int.le_total t u with hle | hle
  · rwa [Int.min_eq_left hle]
  · rwa [Int.min_eq_right hle]

namespace Timeline

/-- Every time in the timeline has 64 bits. -/
structure Ranged (l : Timeline) : Prop where
  closed_inRange : ∀ iv ∈ l.closed, iv.start.InRange ∧ iv.stop.InRange
  ongoing_inRange : ∀ o, l.ongoing = some o → o.start.InRange

section
variable {l : Timeline} {q : Quark} {t : Time}

theorem ranged_empty : Ranged {} := ⟨by simp, by simp⟩

theorem Ranged.opened (h : l.Ranged) (ht : t.InRange) (v : Value) : (l.opened q t v).Ranged := by
  refine ⟨fun iv hiv => ?_, ?_⟩
  · rcases mem_cut.1 hiv with hiv | ⟨o, ho, hlt, rfl⟩
    · exact h.closed_inRange iv hiv
    · -- the state that is cut off began before `t`
      have hstart := h.ongoing_inRange o ho
      refine ⟨hstart, ?_⟩
      unfold Time.InRange at *
      simp only
      lia
  · rintro o ⟨⟩
    exact ht

theorem Ranged.close (h : l.Ranged) (ht : t.InRange) : (l.close q t).2.Ranged := by
  refine ⟨fun iv hiv => ?_, ?_⟩
  · rcases mem_close.1 hiv with hiv | ⟨o, ho, rfl⟩
    · exact h.closed_inRange iv hiv
    · exact ⟨h.ongoing_inRange o ho,
        Time.inRange_max (Time.inRange_before ht) (h.ongoing_inRange o ho)⟩
  · rw [close_ongoing t]
    simp

end

end Timeline

namespace Store

/-! ## Calls at a time -/

/-- The step is plain and has no other time than `t`. -/
def Step.At (t : Time) : Step → Prop
  | .add .. => True
  | .advance u | .write u _ _ => u = t
  | .amend .. | .close _ => False

/-- The call neither amends nor closes and has no other time than `t`. -/
def Call.At (t : Time) : Call → Prop
  | .step a => a.At t
  | .push u .. | .pop u _ | .addLong u .. | .addInt u .. | .addDouble u .. | .clear u _
  | .offer u .. | .poll u _ => u = t

section
variable {s s' : Store} {a : Step} {c : Call} {t : Time} {q : Quark}

theorem Step.At.ne_close (h : a.At t) (u : Time) : a ≠ .close u := by
  rintro rfl
  exact h

theorem Call.At.ne_close (h : c.At t) (u : Time) : c ≠ .step (.close u) := by
  rintro rfl
  exact h

/-- All steps of a call are at its time. -/
theorem Call.at_of_mem_steps (hc : c.At t) (ha : a ∈ c.steps s) : a.At t := by
  have hparts : ∀ a ∈ c.parts s, a.At t := by
    cases c with
    | step b =>
      intro a ha
      obtain rfl := List.mem_singleton.1 ha
      exact hc
    | clear u q =>
      obtain rfl : u = t := hc
      intro a ha
      simp only [Call.parts] at ha
      split at ha
      · rcases List.mem_append.1 ha with ha | ha
        · obtain ⟨_, -, rfl⟩ := List.mem_map.1 ha
          rfl
        · obtain rfl := List.mem_singleton.1 ha
          rfl
      · cases ha
    | poll u q =>
      obtain rfl : u = t := hc
      intro a ha
      obtain ⟨_, -, rfl⟩ := List.mem_map.1 ha
      rfl
    | _ =>
      obtain rfl := hc
      simp only [Call.parts]
      repeat' split
      all_goals simp [Step.At]
  have hleft : ∀ a ∈ c.leftover s, a.At t := by
    cases c <;> simp only [Call.leftover] <;> (repeat' split) <;> simp [Step.At]
  unfold Call.steps at ha
  split at ha
  · exact hparts a ha
  · exact hleft a ha

/-- What every step at a time keeps holds after a call at that time. -/
theorem Call.induct_at {P : Store → Prop} (hs : s.Covered) (hc : c.At t)
    (hstep : ∀ {a : Step} {s₁ s₂ : Store}, a.At t → P s₁ → a.Takes s₁ s₂ → P s₂) (hP : P s) :
    P (c.after s) :=
  (Call.trail hs c).induct_of (Q := Step.At t) hstep (fun _ ha => Call.at_of_mem_steps hc ha) hP

/-! ## Times of 64 bits -/

/-- Every time in the store has 64 bits. -/
structure Ranged (s : Store) : Prop where
  start_inRange : ∀ t, s.start = some t → t.InRange
  stop_inRange : ∀ t, s.stop = some t → t.InRange
  timelines : ∀ q, (s.timelineOf q).Ranged

theorem ranged_new : new.Ranged := by
  refine ⟨?_, ?_, fun q => ?_⟩
  · rintro t ⟨⟩
  · rintro t ⟨⟩
  · rw [timelineOf_new]
    exact Timeline.ranged_empty

theorem Ranged.reach (h : s.Ranged) (ht : t.InRange) : (s.reach t).Ranged := by
  refine ⟨fun u hu => ?_, fun u hu => ?_, fun q => by rw [timelineOf_reach]; exact h.timelines q⟩
  · rw [start_reach, Option.some.injEq] at hu
    subst hu
    cases hs : s.start with
    | none => exact ht
    | some start => exact h.start_inRange start hs
  · unfold Store.reach at hu
    split at hu
    · obtain rfl := Option.some.inj hu
      exact ht
    · obtain rfl := Option.some.inj hu
      cases hs : s.stop with
      | none => exact ht
      | some stop => exact Time.inRange_max (h.stop_inRange stop hs) ht

theorem Ranged.takes (h : s.Ranged) (ha : a.Takes s s') (hat : a.At t) (ht : t.InRange) :
    s'.Ranged := by
  cases ha with
  | add _ =>
    exact ⟨h.start_inRange, h.stop_inRange, fun q => by rw [timelineOf_grown]; exact h.timelines q⟩
  | advance _ =>
    obtain rfl := hat
    exact h.reach ht
  | @write u v q hw =>
    obtain rfl := hat
    have hreach := h.reach ht
    refine ⟨?_, ?_, fun p => ?_⟩
    · rw [start_wrote, ← start_reach]
      exact hreach.start_inRange
    · rw [stop_wrote]
      exact hreach.stop_inRange
    · rw [timelineOf_wrote hw.covered]
      split
      · exact (h.timelines q).opened ht v
      · exact h.timelines p
  | amend _ => exact hat.elim
  | close _ => exact hat.elim

/-- Closing at a time of 64 bits sets no other bound. -/
theorem Ranged.ended (h : s.Ranged) (ht : t.InRange) : (s.ended t).Ranged := by
  have hlast : (s.lastTime t).InRange := by
    have hbase : Time.InRange (s.stop.elim t (max t.before)) := by
      cases hs : s.stop with
      | none => exact ht
      | some stop => exact Time.inRange_max (Time.inRange_before ht) (h.stop_inRange stop hs)
    rcases closeAll_attained (t := t) s.timelines.toList 0 (s.stop.elim t (max t.before)) with
      hsame | ⟨i, l, o, hl, ho, heq⟩
    · rw [lastTime, hsame]
      exact hbase
    · -- the state that is ended last has begun at such a time
      obtain ⟨hi, rfl⟩ := List.getElem?_eq_some_iff.1 hl
      have hstart := (h.timelines ⟨i⟩).ongoing_inRange o
      rw [timelineOf_eq (q := ⟨i⟩) (by simpa using hi)] at hstart
      rw [lastTime, heq]
      exact Time.inRange_max (Time.inRange_before ht) (hstart (by simpa using ho))
  refine ⟨?_, ?_, fun q => by rw [timelineOf_ended]; exact (h.timelines q).close ht⟩
  · rintro u ⟨⟩
    cases hs : s.start with
    | none => exact Time.inRange_min hlast hlast
    | some start => exact Time.inRange_min (h.start_inRange start hs) hlast
  · rintro u ⟨⟩
    exact hlast

/-! ## Times up to the end -/

/-- Recording has an end of 64 bits, what is closed lies before it, and no state has begun after
it. -/
structure Dated (s : Store) : Prop extends s.Ranged, s.Bounded where
  begun : ∀ q o, (s.timelineOf q).ongoing = some o → ∃ stop, s.stop = some stop ∧ o.start ≤ stop

theorem dated_new : new.Dated := by
  refine ⟨ranged_new, bounded_new, fun q o ho => ?_⟩
  rw [timelineOf_new] at ho
  cases ho

theorem Dated.takes (h : s.Dated) (hcov : s.Covered) (ha : a.Takes s s') (hc : s'.closed = false)
    (hat : a.At t) (ht : t.InRange) : s'.Dated := by
  refine ⟨h.toRanged.takes ha hat ht, h.toBounded.takes hcov ha hc, fun p o ho => ?_⟩
  -- the end is not moved back, so what had begun by then still has
  have hmono : ∀ {s' : Store}, s'.stop = (s.reach t).stop → (s.timelineOf p).ongoing = some o →
      ∃ stop, s'.stop = some stop ∧ o.start ≤ stop := by
    intro s' hs' ho
    obtain ⟨last, hlast, -, hle⟩ := stop_reach h.started t
    obtain ⟨stop, hstop, hbegun⟩ := h.begun p o ho
    exact ⟨last, hs'.trans hlast, Int.le_trans hbegun (hle stop hstop)⟩
  cases ha with
  | add _ =>
    rw [timelineOf_grown] at ho
    exact h.begun p o ho
  | advance _ =>
    obtain rfl := hat
    rw [timelineOf_reach] at ho
    exact hmono rfl ho
  | @write u v q hw =>
    obtain rfl := hat
    rw [timelineOf_wrote hw.covered] at ho
    split at ho
    · obtain rfl := Option.some.inj ho
      obtain ⟨last, hlast, hle, -⟩ := stop_reach h.started u
      exact ⟨last, (stop_wrote s u v q).trans hlast, hle⟩
    · exact hmono (stop_wrote s u v q) ho
  | amend _ => exact hat.elim
  | close _ => exact hat.elim

/-- What is dated stays so through calls at times of 64 bits. -/
theorem Dated.after (h : s.Dated) (hl : s.Lawful) (hbuilding : s.closed = false) (hc : c.At t)
    (ht : t.InRange) :
    (c.after s).Dated := by
  have hkept :=
    Call.induct_at (P := fun s => s.Dated ∧ s.Covered ∧ s.closed = false) hl.covered hc ?_
    ⟨h, hl.covered, hbuilding⟩
  · exact hkept.1
  · rintro a s₁ s₂ hat ⟨hd, hcov, hb⟩ ha
    have hb' : s₂.closed = false := (ha.closed_eq hat.ne_close).trans hb
    exact ⟨hd.takes hcov ha hb' hat ht, hcov.takes ha, hb'⟩

end

end Store

end StateHistory
