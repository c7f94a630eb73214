import StateHistory.Proofs.Store.Intervals
import StateHistory.Proofs.Timeline.Held

/-!
# The end of recording

While a store grows, recording runs ahead of what the timelines hold: no interval is closed and no
state begins past its end. There is one exception: where nothing is recorded yet, amending starts a
state at zero, and recording may begin before that.
-/

namespace StateHistory

namespace Timeline

/-- What is closed lies before the end of recording. So does the start of the ongoing state, unless
the state was amended into being at zero. -/
structure Within (l : Timeline) (stop : Option Time) : Prop where
  closed_lt : ∀ iv ∈ l.closed, ∃ last, stop = some last ∧ iv.stop < last
  ongoing_le : ∀ o, l.ongoing = some o → o.start = 0 ∨ ∃ last, stop = some last ∧ o.start ≤ last

section
variable {l : Timeline} {q : Quark} {stop : Option Time} {last t : Time}

theorem within_empty : Within {} none := by
  refine ⟨?_, ?_⟩ <;> simp

theorem Within.mono (h : l.Within stop) (hle : ∀ t, stop = some t → t ≤ last) :
    l.Within (some last) := by
  refine ⟨fun iv hiv => ?_, fun o ho => ?_⟩
  · obtain ⟨t, ht, hlt⟩ := h.closed_lt iv hiv
    exact ⟨last, rfl, Int.lt_of_lt_of_le hlt (hle t ht)⟩
  · rcases h.ongoing_le o ho with h0 | ⟨t, ht, hle'⟩
    · exact Or.inl h0
    · exact Or.inr ⟨last, rfl, Int.le_trans hle' (hle t ht)⟩

/-- What a write closes ends just before it. -/
theorem Within.opened (h : l.Within (some last)) (hle : t ≤ last) (v : Value) :
    (l.opened q t v).Within (some last) := by
  refine ⟨fun iv hiv => ?_, ?_⟩
  · rcases mem_cut.1 hiv with hiv | ⟨o, -, -, rfl⟩
    · exact h.closed_lt iv hiv
    · exact ⟨last, rfl, Int.lt_of_lt_of_le (Int.sub_one_lt_of_le (Int.le_refl t)) hle⟩
  · rintro o ⟨⟩
    exact Or.inr ⟨last, rfl, hle⟩

/-- A state that is amended into being starts at the end of recording, and at zero if there is
none. -/
theorem Within.amend (h : l.Within stop) (v : Value) : (l.amend v (stop.getD 0)).Within stop := by
  unfold Timeline.amend
  cases ho : l.ongoing with
  | some o =>
    refine ⟨h.closed_lt, ?_⟩
    rintro _ ⟨⟩
    exact h.ongoing_le o ho
  | none =>
    refine ⟨h.closed_lt, ?_⟩
    rintro _ ⟨⟩
    cases hl : l.last? with
    | some iv =>
      obtain ⟨last, hlast, hlt⟩ := h.closed_lt iv (Array.mem_of_back? hl)
      exact Or.inr ⟨last, hlast, hlt⟩
    | none =>
      cases stop with
      | some last => exact Or.inr ⟨last, rfl, Int.le_refl last⟩
      | none => exact Or.inl rfl

end

end Timeline

namespace Store

/-- Recording has an end if it has a start, and the timelines lie within it. -/
structure Bounded (s : Store) : Prop where
  started : s.start.isSome = s.stop.isSome
  within : ∀ q, (s.timelineOf q).Within s.stop

section
variable {s s' : Store} {a : Step}

theorem bounded_new : new.Bounded := by
  refine ⟨rfl, fun q => ?_⟩
  rw [timelineOf_new]
  exact Timeline.within_empty

/-- Moving to `t` moves the end to `t` or leaves it behind `t`, and never moves it back. -/
theorem stop_reach (h : s.start.isSome = s.stop.isSome) (t : Time) :
    ∃ last, (s.reach t).stop = some last ∧ t ≤ last ∧ ∀ old, s.stop = some old → old ≤ last := by
  unfold reach
  cases hs : s.start with
  | none =>
    have hstop : s.stop = none := by simpa [hs] using h
    exact ⟨t, rfl, Int.le_refl t, by simp [hstop]⟩
  | some start =>
    obtain ⟨old, hold⟩ := Option.isSome_iff_exists.1 (h.symm.trans (by rw [hs]; rfl))
    refine ⟨max old t, by simp [hold], Int.le_max_right _ _, ?_⟩
    intro old' h'
    obtain rfl : old = old' := by simpa [hold] using h'
    exact Int.le_max_left _ _

theorem stop_wrote (s : Store) (t : Time) (v : Value) (q : Quark) :
    (s.wrote t v q).stop = (s.reach t).stop := by
  unfold wrote reach setTimeline
  cases s.start <;> rfl

theorem Bounded.takes (h : s.Bounded) (hcov : s.Covered) (ha : a.Takes s s')
    (hc : s'.closed = false) :
    s'.Bounded := by
  cases ha with
  | add hb =>
    refine ⟨h.started, fun p => ?_⟩
    rw [timelineOf_grown]
    exact h.within p
  | @advance t ho =>
    obtain ⟨last, hlast, -, hmono⟩ := stop_reach h.started t
    refine ⟨by rw [start_reach, hlast]; rfl, fun p => ?_⟩
    rw [timelineOf_reach, hlast]
    exact (h.within p).mono hmono
  | @write t v q hw =>
    obtain ⟨last, hlast, hle, hmono⟩ := stop_reach h.started t
    refine ⟨by rw [start_wrote, stop_wrote, hlast]; rfl, fun p => ?_⟩
    rw [timelineOf_wrote hw.covered, stop_wrote, hlast]
    split
    · exact ((h.within q).mono hmono).opened hle v
    · exact (h.within p).mono hmono
  | amend hq =>
    -- nothing is started where nothing has ended
    have hstop : s.stop.or s.start = s.stop := by
      cases hs : s.stop with
      | some last => rfl
      | none => simpa [hs] using h.started
    refine ⟨h.started, fun p => ?_⟩
    rw [timelineOf_amended (hcov.contains_iff.1 hq), hstop]
    split
    · exact (h.within _).amend _
    · exact h.within p
  | close hle => cases hc

theorem bounded_run (calls : List Call) (hc : (new.run calls).closed = false) :
    (new.run calls).Bounded := by
  have h := run_induct (P := fun s => s.Covered ∧ (s.closed = false → s.Bounded))
    ⟨covered_new, fun _ => bounded_new⟩ ?_ calls
  · exact h.2 hc
  · rintro s s' a ⟨hcov, hb⟩ ha
    exact ⟨hcov.takes ha, fun hc => (hb (ha.building hc)).takes hcov ha hc⟩

end

end Store

end StateHistory
