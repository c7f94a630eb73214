import StateHistory.Proofs.Store.Dated
import StateHistory.Proofs.Store.PointQuery
import StateHistory.Proofs.Store.RangeQuery

/-!
# Point queries and scans

A point query searches one timeline; a scan goes through all that is recorded of an attribute. They
agree: what a point query answers is the recorded interval with the time, and where there is none,
the stretch around the time up to the nearest records, or up to the bounds of the store
(`single_scan`). The scan has to see every record, so the times of the calls have 64 bits, as has
everything between the bounds that it asks for.
-/

namespace StateHistory

/-! ## Runs at times of 64 bits -/

namespace Timeline

/-- A state that is amended into being starts just after the last interval, which ends before the
end of recording. -/
theorem Ranged.amend {l : Timeline} {stop : Option Time} (h : l.Ranged) (hw : l.Within stop)
    (hstop : ∀ t, stop = some t → t.InRange) (v : Value) : (l.amend v (stop.getD 0)).Ranged := by
  unfold Timeline.amend
  cases ho : l.ongoing with
  | some o =>
    refine ⟨h.closed_inRange, ?_⟩
    rintro _ ⟨⟩
    exact h.ongoing_inRange o ho
  | none =>
    refine ⟨h.closed_inRange, ?_⟩
    rintro _ ⟨⟩
    cases hl : l.last? with
    | some iv =>
      have hmem := Array.mem_of_back? hl
      obtain ⟨last, hlast, hlt⟩ := hw.closed_lt iv hmem
      have hiv := (h.closed_inRange iv hmem).2
      have hend := hstop last hlast
      unfold Time.InRange at *
      simp only
      lia
    | none =>
      cases stop with
      | some last => exact hstop last rfl
      | none => exact show Time.InRange 0 by decide

end Timeline

namespace Store

/-- The step has no time that takes more than 64 bits. -/
def Step.InRange : Step → Prop
  | .add .. | .amend .. => True
  | .advance t | .write t _ _ | .close t => t.InRange

instance : DecidablePred Step.InRange
  | .add .. | .amend .. => inferInstanceAs (Decidable True)
  | .advance t | .write t _ _ | .close t => inferInstanceAs (Decidable t.InRange)

/-- The call has no time that takes more than 64 bits. -/
def Call.InRange : Call → Prop
  | .step a => a.InRange
  | .push t .. | .pop t _ | .addLong t .. | .addInt t .. | .addDouble t .. | .clear t _
  | .offer t .. | .poll t _ =>
    t.InRange

instance : DecidablePred Call.InRange
  | .step a => inferInstanceAs (Decidable a.InRange)
  | .push t .. | .pop t _ | .addLong t .. | .addInt t .. | .addDouble t .. | .clear t _
  | .offer t .. | .poll t _ =>
    inferInstanceAs (Decidable t.InRange)

section
variable {s : Store} {q : Quark} {calls : List Call} {c : Call}

theorem Ranged.amended (h : s.Ranged) (hb : s.Bounded) (hq : q.index < s.timelines.size)
    (v : Value) :
    (s.amended v q).Ranged := by
  refine ⟨h.start_inRange, h.stop_inRange, fun p => ?_⟩
  -- nothing has begun where nothing has ended
  have hstop : s.stop.or s.start = s.stop := by
    cases hs : s.stop with
    | some last => rfl
    | none => simpa [hs] using hb.started
  rw [timelineOf_amended hq, hstop]
  split
  · exact (h.timelines q).amend (hb.within q) h.stop_inRange v
  · exact h.timelines p

/-- A call is at one time that has 64 bits, or it amends, or it closes at such a time. -/
theorem Call.InRange.cases (h : c.InRange) :
    (∃ t, c.At t ∧ t.InRange) ∨ (∃ v q, c = .step (.amend v q)) ∨ ∃ t, c = .step (.close t) ∧
      t.InRange := by
  cases c with
  | step a =>
    cases a with
    | add base path => exact Or.inl ⟨0, trivial, by decide⟩
    | advance t => exact Or.inl ⟨t, rfl, h⟩
    | write t v q => exact Or.inl ⟨t, rfl, h⟩
    | amend v q => exact Or.inr (Or.inl ⟨v, q, rfl⟩)
    | close t => exact Or.inr (Or.inr ⟨t, rfl, h⟩)
  | _ => exact Or.inl ⟨_, rfl, h⟩

/-- Calls at times of 64 bits leave only such times in a store, unless they amend. -/
theorem Ranged.after_of_ne_amend (h : s.Ranged) (hcov : s.Covered) (hc : c.InRange)
    (hne : ∀ v q, c ≠ .step (.amend v q)) : (c.after s).Ranged := by
  obtain ⟨t, hat, ht⟩ | ⟨v, q, rfl⟩ | ⟨t, rfl, ht⟩ := hc.cases
  · exact Call.induct_at hcov hat (fun hat h ha => h.takes ha hat ht) h
  · exact absurd rfl (hne v q)
  · rcases Call.after_step (.close t) s with hok | ⟨-, hsame⟩
    · generalize (Call.step (.close t)).after s = s' at hok ⊢
      cases Step.takes_of_edit hok with
      | close _ => exact h.ended ht
    · rwa [hsame]

/-- As long as a store grows, so do amendments. -/
theorem Ranged.after (h : s.Ranged) (hcov : s.Covered) (hb : s.Bounded) (hc : c.InRange) :
    (c.after s).Ranged := by
  by_cases hamend : ∃ v q, c = .step (.amend v q)
  · obtain ⟨v, q, rfl⟩ := hamend
    rcases Call.after_step (.amend v q) s with hok | ⟨-, hsame⟩
    · generalize (Call.step (.amend v q)).after s = s' at hok ⊢
      cases Step.takes_of_edit hok with
      | amend hq => exact h.amended hb (hcov.contains_iff.1 hq) v
    · rwa [hsame]
  · exact h.after_of_ne_amend hcov hc fun v q heq => hamend ⟨v, q, heq⟩

theorem ranged_building (hopen : (new.run calls).closed = false) (hr : ∀ c ∈ calls, c.InRange) :
    (new.run calls).Ranged := by
  induction calls using List.reverseRecOn with
  | nil => exact ranged_new
  | append_singleton calls c ih =>
    rw [run_append] at hopen ⊢
    have hbefore := (trail_run (covered_run calls) [c]).building hopen
    exact (ih hbefore fun c hc => hr c (by simp [hc])).after (covered_run calls) (bounded_run calls
      hbefore) (hr c (by simp))

/-- Up to the first close, calls at times of 64 bits leave only such times in the store. -/
theorem ranged_run (hopen : (new.run calls.dropLast).closed = false) (hr : ∀ c ∈ calls, c.InRange) :
    (new.run calls).Ranged := by
  rcases List.eq_nil_or_concat' calls with rfl | ⟨calls, c, rfl⟩
  · exact ranged_new
  · rw [List.dropLast_concat] at hopen
    have hbefore := ranged_building hopen fun c hc => hr c (by simp [hc])
    rw [run_append]
    exact hbefore.after (covered_run calls) (bounded_run calls hopen) (hr c (by simp))

end

/-! ## Gaps -/

/-- Around `t` nothing of `stored` is in `gap`, and it could not be larger: each of its bounds is a
bound of the store or next to something stored. -/
structure IsGap (stored : List Interval) (q : Quark) (start stop t : Time)
    (gap : Interval) : Prop where
  quark_eq : gap.quark = q
  value_eq : gap.value = .null
  contains : gap.contains t = true
  disjoint : ∀ iv ∈ stored, iv.stop < gap.start ∨ gap.stop < iv.start
  start_eq : gap.start = start ∨ ∃ iv ∈ stored, gap.start = iv.stop + 1
  stop_eq : gap.stop = stop ∨ ∃ iv ∈ stored, gap.stop = iv.start - 1

section
variable {s : Store} {q : Quark} {start stop t : Time} {stored : List Interval} {gap iv : Interval}

/-- What is free around `t` between the bounds of the store is in the gap. -/
theorem IsGap.largest (h : IsGap stored q start stop t gap)
    (hstored : ∀ iv ∈ stored, iv.start ≤ iv.stop) {a b : Time} (hlo : start ≤ a) (ha : a ≤ t)
    (hb : t ≤ b) (hhi : b ≤ stop) (hfree : ∀ iv ∈ stored, iv.stop < a ∨ b < iv.start) :
    gap.start ≤ a ∧ b ≤ gap.stop := by
  have hcontains := Interval.contains_iff.1 h.contains
  constructor
  · rcases h.start_eq with heq | ⟨iv, hiv, heq⟩
    · lia
    · have := hstored iv hiv
      have := hfree iv hiv
      lia
  · rcases h.stop_eq with heq | ⟨iv, hiv, heq⟩
    · lia
    · have := hstored iv hiv
      have := hfree iv hiv
      lia

theorem start_le_stop_recorded (h : (s.timelineOf q).Seamless q) (hiv : iv ∈ s.recorded q) :
    iv.start ≤ iv.stop := by
  rcases mem_recorded.1 hiv with hiv | ⟨o, -, rfl⟩
  · exact h.start_le iv hiv
  · exact Int.le_max_right _ _

/-- All that is recorded at times of 64 bits lies between the earliest time and the latest. -/
theorem Ranged.filter_recorded (hr : s.Ranged) (q : Quark) :
    (s.recorded q).filter (·.intersects Time.earliest Time.latest) = s.recorded q := by
  refine List.filter_eq_self.2 fun iv hiv => ?_
  rw [Interval.intersects, Bool.and_eq_true, decide_eq_true_eq, decide_eq_true_eq]
  rcases mem_recorded.1 hiv with hiv | ⟨o, ho, rfl⟩
  · obtain ⟨hstart, hstop⟩ := (hr.timelines q).closed_inRange iv hiv
    exact ⟨hstart.2, hstop.1⟩
  · have hstart := (hr.timelines q).ongoing_inRange o ho
    exact ⟨hstart.2, Int.le_trans hstart.1 (Int.le_max_right _ _)⟩

theorem Ranged.range_eq_recorded (hr : s.Ranged) (h : (s.timelineOf q).Ordered)
    (hq : q.index < s.timelines.size) :
    s.range q Time.earliest Time.latest = .ok (s.recorded q) := by
  rw [range_eq h hq, hr.filter_recorded]

namespace Spanned

theorem recorded_ongoing (h : s.Spanned start stop) {o : Ongoing}
    (ho : (s.timelineOf q).ongoing = some o) (t : Time) :
    s.presented q o t ∈ s.recorded q := by
  refine mem_recorded.2 (Or.inr ⟨o, ho, ?_⟩)
  rw [presented, presented, h.stop_eq]
  rfl

/-- The first record starts where its timeline does. -/
theorem start?_eq_recorded (h : s.Spanned start stop) {a : Time}
    (ha : (s.timelineOf q).start? = some a) :
    ∃ iv ∈ s.recorded q, iv.start = a := by
  rcases Nat.eq_zero_or_pos (s.timelineOf q).closed.size with h0 | hpos
  · rw [Timeline.start?_of_empty h0, Option.map_eq_some_iff] at ha
    obtain ⟨o, ho, rfl⟩ := ha
    exact ⟨_, h.recorded_ongoing ho o.start, rfl⟩
  · rw [Timeline.start?_of_closed hpos, Option.some.injEq] at ha
    exact ⟨_, mem_recorded.2 (Or.inl (Array.getElem_mem hpos)), ha⟩

theorem start?_le_recorded (h : s.Spanned start stop) (hiv : iv ∈ s.recorded q) :
    ∃ a, (s.timelineOf q).start? = some a ∧ a ≤ iv.start := by
  rcases mem_recorded.1 hiv with hiv | ⟨o, ho, rfl⟩
  · obtain ⟨a, ha⟩ := Timeline.start?_isSome_of_closed hiv
    exact ⟨a, ha, (h.seamless q).start?_le_closed ha hiv⟩
  · obtain ⟨a, ha⟩ := Timeline.start?_isSome_of_ongoing ho
    exact ⟨a, ha, (h.seamless q).start?_le_ongoing ha ho⟩

/-- **The answer at a time is the record with that time, or a gap.** -/
theorem intervalAt_scan (h : s.Spanned start stop) (hlo : start ≤ t) (hhi : t ≤ stop) (q : Quark) :
    (s.intervalAt q t ∈ s.recorded q ∧ (s.intervalAt q t).contains t = true) ∨
    IsGap (s.recorded q) q start stop t (s.intervalAt q t) := by
  have hp := (h.seamless q).lookup_position t
  generalize (s.timelineOf q).lookup t = found at hp
  cases hp with
  | closed hiv hl hr =>
    left
    rw [intervalAt_of_closed (h.seamless q) hiv hl hr]
    exact ⟨mem_recorded.2 (Or.inl hiv), Interval.contains_iff.2 ⟨hl, hr⟩⟩
  | ongoing ho hl =>
    left
    rw [intervalAt_of_ongoing (h.seamless q) ho hl]
    refine ⟨h.recorded_ongoing ho t, ?_⟩
    rw [Interval.contains_iff, presented, h.stop_eq]
    exact ⟨hl, Int.le_trans hhi (Int.le_max_left _ _)⟩
  | before hlt =>
    right
    rw [h.intervalAt_before hlo hlt]
    cases ha : (s.timelineOf q).start? with
    | none =>
      -- nothing is recorded at all
      have hempty : ∀ iv, iv ∉ s.recorded q := by
        intro iv hiv
        obtain ⟨a, hsome, -⟩ := h.start?_le_recorded hiv
        rw [ha] at hsome
        cases hsome
      rw [Option.elim_none, Int.max_eq_left hhi]
      exact ⟨rfl, rfl, Interval.contains_iff.2 ⟨hlo, hhi⟩, fun iv hiv => absurd hiv (hempty iv),
        Or.inl rfl, Or.inl rfl⟩
    | some a =>
      have hta := hlt a ha
      rw [Option.elim_some]
      refine ⟨rfl, rfl, ?_, fun iv hiv => Or.inr ?_, Or.inl rfl, Or.inr ?_⟩
      · exact Interval.contains_iff.2 ⟨hlo, Int.le_sub_one_of_lt hta⟩
      · obtain ⟨b, hb, hle⟩ := h.start?_le_recorded hiv
        obtain rfl : a = b := Option.some.inj (ha.symm.trans hb)
        exact Int.lt_of_lt_of_le (Int.sub_one_lt_of_le (Int.le_refl a)) hle
      · obtain ⟨iv, hiv, hstart⟩ := h.start?_eq_recorded ha
        exact ⟨iv, hiv, by rw [hstart]⟩
  | @after last ho hl hlt =>
    right
    have hmem := Array.mem_of_back? hl
    rw [h.intervalAt_after hhi ho hl hlt]
    refine ⟨rfl, rfl, ?_, fun iv hiv => Or.inl ?_, Or.inr ⟨last, mem_recorded.2 (Or.inl hmem), rfl⟩,
      Or.inl rfl⟩
    · exact Interval.contains_iff.2 ⟨Int.add_one_le_of_lt hlt, hhi⟩
    · rcases mem_recorded.1 hiv with hiv | ⟨o, ho', -⟩
      · exact Int.lt_add_one_of_le ((h.seamless q).ordered.stop_le_last hiv hl)
      · rw [ho] at ho'
        cases ho'

end Spanned

/-- Of intervals in order that do not overlap, at most one has a given time. -/
theorem filter_contains_eq (hordered : stored.Pairwise fun a b => a.stop < b.start)
    (hiv : iv ∈ stored) (ht : iv.contains t = true) : stored.filter (·.contains t) = [iv] := by
  obtain ⟨before, behind, rfl⟩ := List.append_of_mem hiv
  obtain ⟨-, hbehind, hcross⟩ := List.pairwise_append.1 hordered
  have hhas := Interval.contains_iff.1 ht
  have hno : ∀ jv : Interval, jv.stop < iv.start ∨ iv.stop < jv.start → ¬ jv.contains t = true := by
    intro jv hjv hcontains
    have := Interval.contains_iff.1 hcontains
    lia
  have hbefore : before.filter (·.contains t) = [] :=
    List.filter_eq_nil_iff.2 fun jv hjv => hno jv (Or.inl (hcross jv hjv iv (by simp)))
  have hafter : behind.filter (·.contains t) = [] :=
    List.filter_eq_nil_iff.2 fun jv hjv => hno jv (Or.inr (List.rel_of_pairwise_cons hbehind hjv))
  rw [List.filter_append, hbefore, List.filter_cons, if_pos ht, hafter]
  rfl

/-- What is stored and has the time would overlap a gap around it. -/
theorem IsGap.filter_contains_eq_nil (h : IsGap stored q start stop t gap) :
    stored.filter (·.contains t) = [] := by
  have hcontains := Interval.contains_iff.1 h.contains
  refine List.filter_eq_nil_iff.2 fun iv hiv hhas => ?_
  have := Interval.contains_iff.1 hhas
  have := h.disjoint iv hiv
  lia

end

/-- **Point queries agree with scans.** Between the bounds of a store that grows or was just closed,
a point query answers with the one record that has the time. If none has, it answers with the gap
around the time, which has all that is free there. The query over all attributes has one such answer
for each. -/
theorem single_scan (calls : List Call) (hopen : (new.run calls.dropLast).closed = false)
    (hr : ∀ c ∈ calls, c.InRange) {start stop t : Time}
    (hstart : (new.run calls).start = some start) (hstop : (new.run calls).stop = some stop)
    (hlo : start ≤ t) (hhi : t ≤ stop) :
    (∀ q, (new.run calls).tree.contains q = true → ∃ iv stored,
      single t q (new.run calls) = .ok iv ∧
      range q Time.earliest Time.latest (new.run calls) = .ok stored ∧
      (stored.filter (·.contains t) = [iv] ∨
        stored.filter (·.contains t) = [] ∧ IsGap stored q start stop t iv ∧
          ∀ a b, start ≤ a → a ≤ t → t ≤ b → b ≤ stop →
          (∀ jv ∈ stored, jv.stop < a ∨ b < jv.start) →
            iv.start ≤ a ∧ b ≤ iv.stop)) ∧
    ∃ ivs, full t (new.run calls) = .ok ivs ∧ ivs.length = (new.run calls).tree.size ∧
      ∀ i (hi : i < ivs.length), single t ⟨i⟩ (new.run calls) = .ok ivs[i] := by
  have hs := sound_run calls
  have hspanned : (new.run calls).Spanned start stop := ⟨hs.seamless, hstart, hstop⟩
  have hsingle : ∀ q, (new.run calls).tree.contains q = true →
      single t q (new.run calls) = .ok ((new.run calls).intervalAt q t) :=
    fun q hq => (hspanned.single_ok_iff hq).2 ⟨hlo, fun _ => hhi, rfl⟩
  constructor
  · intro q hq
    refine ⟨_, _, hsingle q hq, (ranged_run hopen hr).range_eq_recorded (hs.seamless q).ordered
      (hs.covered.contains_iff.1 hq), ?_⟩
    rcases hspanned.intervalAt_scan hlo hhi q with ⟨hmem, hcontains⟩ | hgap
    · exact Or.inl (filter_contains_eq (recorded_pairwise (hs.seamless q).ordered) hmem hcontains)
    · refine Or.inr ⟨hgap.filter_contains_eq_nil, hgap, fun a b hloa hat htb hbhi hfree => ?_⟩
      exact hgap.largest (fun iv hiv => start_le_stop_recorded
        (hs.seamless q) hiv) hloa hat htb hbhi hfree
  · have hasked : (new.run calls).checkAsked t = .ok () := by
      refine checkAsked_ok_iff.2 ⟨⟨start, hstart, hlo⟩, fun _ last hlast => ?_⟩
      obtain rfl := Option.some.inj (hstop.symm.trans hlast)
      exact hhi
    refine ⟨_, by rw [full, hasked]; rfl, by simp, fun i hi => ?_⟩
    have hsize : i < (new.run calls).tree.size := by simpa using hi
    rw [List.getElem_map, List.getElem_range]
    exact hsingle ⟨i⟩ (by simpa [Tree.contains, Tree.size] using hsize)

/-- Two attributes, of which the second is first written while the first holds its second value, and
then a close. -/
def closedLate : List Call :=
  [.step (.add ⟨0⟩ ["a"]), .step (.add ⟨0⟩ ["b"]), .step (.write 10 (.int 1) ⟨1⟩),
    .step (.write 20 (.int 2) ⟨1⟩), .step (.write 30 (.int 3) ⟨2⟩), .step (.close 31)]

theorem single_scan_closedLate :
    IsGap [⟨⟨2⟩, 30, 30, .int 3⟩] ⟨2⟩ 10 30 15 ⟨⟨2⟩, 10, 29, .null⟩ ∧
    ∃ ivs, full 15 (new.run closedLate) = .ok ivs ∧ ivs.length = 3 := by
  have hstart : (new.run closedLate).start = some 10 := by decide +kernel
  have hstop : (new.run closedLate).stop = some 30 := by decide +kernel
  have hlo : (10 : Time) ≤ 15 := by decide
  have hhi : (15 : Time) ≤ 30 := by decide
  obtain ⟨hquarks, ivs, hfull, hlength, -⟩ :=
    single_scan closedLate (by decide +kernel) (by decide +kernel) hstart hstop hlo hhi
  constructor
  · obtain ⟨iv, stored, hiv, hstored, hscan⟩ := hquarks ⟨2⟩ (by decide +kernel)
    have hiv' : single 15 ⟨2⟩ (new.run closedLate) = .ok ⟨⟨2⟩, 10, 29, .null⟩ := by decide +kernel
    have hstored' : range ⟨2⟩ Time.earliest Time.latest (new.run closedLate) =
        .ok [⟨⟨2⟩, 30, 30, .int 3⟩] := by
      decide +kernel
    obtain rfl := Except.ok.inj (hiv.symm.trans hiv')
    obtain rfl := Except.ok.inj (hstored.symm.trans hstored')
    rcases hscan with hone | ⟨-, hgap, -⟩
    · exact absurd hone (by decide)
    · exact hgap
  · exact ⟨ivs, hfull, hlength.trans (by decide +kernel)⟩

end Store

end StateHistory
