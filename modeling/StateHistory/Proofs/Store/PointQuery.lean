import StateHistory.Proofs.Store.Intervals
import StateHistory.Proofs.Store.Span
import StateHistory.Proofs.Timeline.Held
import StateHistory.Store.Query

/-!
# Point queries

When a point query succeeds, and what it answers in terms of the timeline alone.
-/

namespace StateHistory.Store

/-- Queries may ask for `t`: it is not before the start, nor past the end of a closed store. -/
structure InReach (s : Store) (t : Time) : Prop where
  started : ∃ start, s.start = some start ∧ start ≤ t
  le_stop : s.closed = true → ∀ stop, s.stop = some stop → t ≤ stop

section
variable {s : Store} {q : Quark} {t : Time}

theorem checkAsked_ok_iff {u : Unit} : s.checkAsked t = .ok u ↔ s.InReach t := by
  unfold checkAsked
  cases hs : s.start with
  | none =>
    have : ¬ s.InReach t := fun ⟨⟨_, h, _⟩, _⟩ => by rw [hs] at h; cases h
    simp [this]
  | some start =>
    by_cases hlt : t < start
    · have : ¬ s.InReach t := fun ⟨⟨_, h, hle⟩, _⟩ => by
        rw [hs] at h
        cases h
        exact Int.not_le.2 hlt hle
      simp [hlt, this]
    · cases hc : s.closed with
      | false =>
        have : s.InReach t := ⟨⟨start, hs, Int.not_lt.1 hlt⟩, fun h => by rw [hc] at h; cases h⟩
        simp [hlt, this]
      | true =>
        cases hst : s.stop with
        | none =>
          have : s.InReach t :=
            ⟨⟨start, hs, Int.not_lt.1 hlt⟩, fun _ stop h => by rw [hst] at h; cases h⟩
          simp [hlt, this]
        | some stop =>
          by_cases hgt : stop < t
          · have : ¬ s.InReach t := fun h => Int.not_le.2 hgt (h.le_stop hc stop hst)
            simp [hlt, hgt, this]
          · have : s.InReach t := by
              refine ⟨⟨start, hs, Int.not_lt.1 hlt⟩, fun _ stop' h => ?_⟩
              rw [hst] at h
              cases h
              exact Int.not_lt.1 hgt
            simp [hlt, hgt, this]

/-- Closing just after the last recorded time keeps what was recorded in reach. -/
theorem Reaches.ended {first last : Time} (h : s.Reaches first last) (hfirst : first ≤ t)
    (hlast : t ≤ last) (hlatest : last < Time.latest) :
    t < s.stop.elim 0 Time.after ∧ (s.ended (s.stop.elim 0 Time.after)).InReach t := by
  obtain ⟨⟨start, hstart, hstart'⟩, stop, hstop, hstop'⟩ := h
  have hlt : t < s.stop.elim 0 Time.after := by
    rw [hstop]
    simp only [Option.elim_some, Time.after]
    lia
  refine ⟨hlt, ⟨_, rfl, ?_⟩, fun _ stop' hs => ?_⟩
  · rw [hstart]
    simp only [Option.getD_some]
    lia
  · rw [stop_ended, Option.some.injEq] at hs
    have := sub_one_le_lastTime s (s.stop.elim 0 Time.after)
    lia

theorem single_ok_iff {iv : Interval} :
    single t q s = .ok iv ↔ s.tree.contains q = true ∧ s.InReach t ∧ iv = s.intervalAt q t := by
  unfold single
  cases hq : s.checkQuark q with
  | error e =>
    have : ¬ s.tree.contains q = true := fun h => by
      rw [checkQuark_ok_iff (u := ()) |>.2 h] at hq
      cases hq
    simp [bind, Except.bind, this]
  | ok u =>
    have hq' := checkQuark_ok_iff.1 hq
    cases ht : s.checkAsked t with
    | error e =>
      have : ¬ s.InReach t := fun h => by
        rw [checkAsked_ok_iff (u := ()) |>.2 h] at ht
        cases ht
      simp [bind, Except.bind, this]
    | ok u => simp [bind, Except.bind, pure, Except.pure, hq', checkAsked_ok_iff.1 ht, eq_comm]

theorem ongoingValue_eq (hq : q.index < s.timelines.size) :
    ongoingValue q s = .ok (s.valueOf q) := by
  rw [ongoingValue, timeline_eq_ok_iff.2 ⟨hq, rfl⟩]
  rfl

theorem ongoingStart_ok_iff {start : Option Time} :
    ongoingStart q s = .ok start ↔
      q.index < s.timelines.size ∧ (s.timelineOf q).ongoing.map (·.start) = start := by
  unfold ongoingStart
  cases hl : s.timeline q with
  | error e =>
    have : ¬ q.index < s.timelines.size := fun hq => by
      rw [timeline_eq_ok_iff.2 ⟨hq, rfl⟩] at hl
      cases hl
    simp [bind, Except.bind, this]
  | ok l =>
    obtain ⟨hq, rfl⟩ := timeline_eq_ok_iff.1 hl
    simp [bind, Except.bind, pure, Except.pure, hq]

/-! ## Answers by position -/

theorem intervalAt_of_closed (h : (s.timelineOf q).Seamless q) {iv : Interval}
    (hiv : iv ∈ (s.timelineOf q).closed) (hlo : iv.start ≤ t) (hhi : t ≤ iv.stop) :
    s.intervalAt q t = iv := by
  rw [intervalAt, h.lookup_eq_iff.2 (.closed hiv hlo hhi)]

theorem intervalAt_of_ongoing (h : (s.timelineOf q).Seamless q) {o : Ongoing}
    (ho : (s.timelineOf q).ongoing = some o) (hlo : o.start ≤ t) :
    s.intervalAt q t = s.presented q o t := by
  rw [intervalAt, h.lookup_eq_iff.2 (.ongoing ho hlo)]

theorem intervalAt_of_before (h : (s.timelineOf q).Seamless q)
    (hlt : ∀ a, (s.timelineOf q).start? = some a → t < a) :
    s.intervalAt q t = s.gapAt q t none (s.timelineOf q).start? := by
  rw [intervalAt, h.lookup_eq_iff.2 (.before hlt)]

theorem intervalAt_of_after (h : (s.timelineOf q).Seamless q) {iv : Interval}
    (ho : (s.timelineOf q).ongoing = none) (hl : (s.timelineOf q).last? = some iv)
    (hlt : iv.stop < t) :
    s.intervalAt q t = s.gapAt q t (some iv.stop) none := by
  rw [intervalAt, h.lookup_eq_iff.2 (.after ho hl hlt)]

theorem intervalAt_value : (s.intervalAt q t).value = (s.timelineOf q).valueAt t := by
  unfold intervalAt Timeline.valueAt
  cases (s.timelineOf q).lookup t <;> rfl

end

/-! ## Stores with a recorded time -/

/-- Recording has begun: it reaches from `start` to `stop`. -/
structure Spanned (s : Store) (start stop : Time) : Prop where
  seamless : ∀ q, (s.timelineOf q).Seamless q
  start_eq : s.start = some start
  stop_eq : s.stop = some stop

namespace Spanned

section
variable {s : Store} {q : Quark} {start stop t : Time}

theorem intervalAt_quark (h : s.Spanned start stop) : (s.intervalAt q t).quark = q := by
  have hp := (h.seamless q).lookup_position t
  unfold intervalAt
  generalize (s.timelineOf q).lookup t = found at hp
  cases hp with
  | closed hiv _ _ => exact (h.seamless q).quark_eq _ hiv
  | ongoing _ _ => rfl
  | before _ => rfl
  | after _ _ _ => rfl

/-- Before the first record the answer reaches from the start of the store up to that record. -/
theorem intervalAt_before (h : s.Spanned start stop) (hlo : start ≤ t)
    (hlt : ∀ a, (s.timelineOf q).start? = some a → t < a) :
    s.intervalAt q t = ⟨q, start, (s.timelineOf q).start?.elim (max stop t) (· - 1), .null⟩ := by
  rw [intervalAt_of_before (h.seamless q) hlt, gapAt, h.start_eq, h.stop_eq]
  simp only [Option.elim_none, Option.getD_some]
  rw [Int.min_eq_left hlo]

/-- Behind the last record of an attribute without an ongoing state the answer reaches up to the end
of the store. -/
theorem intervalAt_after (h : s.Spanned start stop) (hhi : t ≤ stop) {iv : Interval}
    (ho : (s.timelineOf q).ongoing = none) (hl : (s.timelineOf q).last? = some iv)
    (hlt : iv.stop < t) :
    s.intervalAt q t = ⟨q, iv.stop + 1, stop, .null⟩ := by
  rw [intervalAt_of_after (h.seamless q) ho hl hlt, gapAt, h.stop_eq]
  simp only [Option.elim_some, Option.elim_none, Option.getD_some]
  rw [Int.min_eq_left (Int.add_one_le_of_lt hlt), Int.max_eq_left hhi]

theorem single_ok_iff (h : s.Spanned start stop) (hq : s.tree.contains q = true) {iv : Interval} :
    single t q s = .ok iv ↔ start ≤ t ∧ (s.closed = true → t ≤ stop) ∧ s.intervalAt q t = iv := by
  rw [Store.single_ok_iff, and_iff_right hq, eq_comm (a := iv), ← and_assoc]
  refine and_congr_left fun _ => ?_
  constructor
  · rintro ⟨⟨a, ha, hlo⟩, hhi⟩
    obtain rfl : start = a := by simpa [h.start_eq] using ha
    exact ⟨hlo, fun hc => hhi hc stop h.stop_eq⟩
  · rintro ⟨hlo, hhi⟩
    refine ⟨⟨start, h.start_eq, hlo⟩, fun hc last hl => ?_⟩
    obtain rfl : stop = last := by simpa [h.stop_eq] using hl
    exact hhi hc

end

end Spanned

end StateHistory.Store
