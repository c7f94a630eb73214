import StateHistory.Proofs.Timeline.Ordered

/-!
# Looking up and scanning

A lookup searches the closed intervals by bisection and looks at the two around the place where the
search ends. A scan goes through all that there is, whatever its order: what contains the time, and
failing that, which end before the time is the greatest and which start after it is the least. In an
ordered timeline they agree (`lookup_eq_scan`), holes or not, and the answer is exact: it tells
which interval is the only one with the time, or that there is none (`finds_lookup`).
-/

namespace StateHistory

/-- The greatest of ascending times is the last. -/
theorem max?_eq_getLast? {ts : List Time} (h : ts.Pairwise (· < ·)) : ts.max? = ts.getLast? := by
  cases hlast : ts.getLast? with
  | none => rw [List.getLast?_eq_none_iff.1 hlast, List.max?_nil]
  | some last =>
    obtain ⟨front, rfl⟩ := List.getLast?_eq_some_iff.1 hlast
    rw [List.max?_eq_some_iff]
    refine ⟨by simp, fun t ht => ?_⟩
    rcases List.mem_append.1 ht with ht | ht
    · exact Int.le_of_lt ((List.pairwise_append.1 h).2.2 t ht last (List.mem_singleton_self _))
    · exact Int.le_of_eq (List.mem_singleton.1 ht)

/-- The least of ascending times is the first. -/
theorem min?_eq_head? {ts : List Time} (h : ts.Pairwise (· < ·)) : ts.min? = ts.head? :=
  List.min?_eq_head? (h.imp fun hlt => Int.min_eq_left (Int.le_of_lt hlt))

namespace Timeline

/-! ## Scans -/

/-- The ends before `t`. -/
def stopsBefore (l : Timeline) (t : Time) : List Time :=
  (l.closed.toList.map (·.stop)).filter (· < t)

/-- The starts after `t`, that of the ongoing state among them. -/
def startsAfter (l : Timeline) (t : Time) : List Time :=
  (l.closed.toList.map (·.start) ++ (l.ongoing.map (·.start)).toList).filter (t < ·)

/-- What the timeline holds at `t`, found without a search. -/
def scan (l : Timeline) (t : Time) : Lookup :=
  match l.closed.toList.find? (·.contains t) with
  | some iv => .closed iv
  | none =>
    match l.ongoing.filter fun o => o.start ≤ t with
    | some o => .ongoing o
    | none => .gap (l.stopsBefore t).max? (l.startsAfter t).min?

/-- What was found at `t` is the one closed interval that contains `t`; or the ongoing state, which
has begun by then; or that there is neither, and how far away the nearest are on both sides. -/
structure Finds (l : Timeline) (t : Time) (found : Lookup) : Prop where
  closed_iff : ∀ iv, found = .closed iv ↔ l.closed.toList.filter (·.contains t) = [iv]
  ongoing_iff : ∀ o, found = .ongoing o ↔ l.ongoing = some o ∧ o.start ≤ t
  gap_iff : ∀ stop start, found = .gap stop start ↔
    (∀ iv ∈ l.closed, iv.contains t = false) ∧ (∀ o, l.ongoing = some o → t < o.start) ∧
    stop = (l.stopsBefore t).max? ∧ start = (l.startsAfter t).min?

section
variable {l : Timeline} {t : Time}

/-! ## What contains the time -/

/-- Only the first interval that is not passed over can contain `t`: those behind it start after its
end. -/
theorem Ordered.find?_contains (h : l.Ordered) (t : Time) :
    l.closed.toList.find? (·.contains t) = (l.ahead t).head?.filter fun iv => iv.start ≤ t := by
  have hpassed : (l.passed t).find? (·.contains t) = none := by
    refine List.find?_eq_none.2 fun iv hiv hcontains => ?_
    have hlt := h.stop_lt_of_passed hiv
    have hle := (Interval.contains_iff.1 hcontains).2
    lia
  rw [← passed_append_ahead l t, List.find?_append, hpassed, Option.none_or]
  have hpairwise := (h.pairwise_split t).2
  have hstop : ∀ iv ∈ l.ahead t, t ≤ iv.stop := fun iv hiv => h.le_stop_of_ahead hiv
  generalize l.ahead t = ivs at hpairwise hstop
  cases ivs with
  | nil => rfl
  | cons iv rest =>
    have hle := hstop iv (List.mem_cons_self ..)
    rw [List.head?_cons, Option.filter_some]
    by_cases hstart : iv.start ≤ t
    · have hcontains := Interval.contains_iff.2 ⟨hstart, hle⟩
      simp [hcontains, hstart]
    · have hnot : ¬ iv.contains t = true := fun hcontains =>
        hstart (Interval.contains_iff.1 hcontains).1
      have hrest : rest.find? (·.contains t) = none := by
        refine List.find?_eq_none.2 fun jv hjv hcontains => ?_
        have hlt := (List.pairwise_cons.1 hpairwise).1 jv hjv
        have hge := (Interval.contains_iff.1 hcontains).1
        lia
      simp [hnot, hstart, hrest]

/-- At most one closed interval contains `t`. -/
theorem Ordered.filter_contains (h : l.Ordered) (t : Time) :
    l.closed.toList.filter (·.contains t) = (l.closed.toList.find? (·.contains t)).toList := by
  have hpairwise := h.pairwise.filter (·.contains t)
  have hcontains : ∀ iv ∈ l.closed.toList.filter (·.contains t), iv.start ≤ t ∧ t ≤ iv.stop :=
    fun iv hiv => Interval.contains_iff.1 (List.mem_filter.1 hiv).2
  rw [← List.head?_filter]
  generalize l.closed.toList.filter (·.contains t) = ivs at hpairwise hcontains
  match ivs with
  | [] => rfl
  | [iv] => rfl
  | a :: b :: rest =>
    have hlt := (List.pairwise_cons.1 hpairwise).1 b (List.mem_cons_self ..)
    have ha := (hcontains a (by simp)).2
    have hb := (hcontains b (by simp)).1
    lia

/-! ## The nearest on both sides -/

theorem Ordered.max?_stopsBefore (h : l.Ordered) (t : Time) :
    (l.stopsBefore t).max? = (l.passed t).getLast?.map (·.stop) := by
  have hstops : l.stopsBefore t = (l.passed t).map (·.stop) := by
    have hpassed : ((l.passed t).map (·.stop)).filter (· < t) = (l.passed t).map (·.stop) := by
      refine List.filter_eq_self.2 fun u hu => ?_
      obtain ⟨iv, hiv, rfl⟩ := List.mem_map.1 hu
      exact decide_eq_true (h.stop_lt_of_passed hiv)
    have hahead : ((l.ahead t).map (·.stop)).filter (· < t) = [] := by
      refine List.filter_eq_nil_iff.2 fun u hu => ?_
      obtain ⟨iv, hiv, rfl⟩ := List.mem_map.1 hu
      simpa using h.le_stop_of_ahead hiv
    rw [stopsBefore, ← passed_append_ahead l t, List.map_append, List.filter_append,
      hpassed, hahead, List.append_nil]
  have hascending : ((l.passed t).map (·.stop)).Pairwise (· < ·) := by
    rw [List.pairwise_map]
    refine (h.pairwise_split t).1.imp_of_mem fun _ hb hlt => ?_
    exact Int.lt_of_lt_of_le hlt (h.start_le _ (mem_closed_of_passed hb))
  rw [hstops, max?_eq_getLast? hascending, List.getLast?_map]

/-- If nothing is held at `t`, what is not passed over starts after it. -/
theorem Ordered.min?_startsAfter (h : l.Ordered) (hfree : ∀ iv ∈ l.closed, iv.contains t = false)
    (hlate : ∀ o, l.ongoing = some o → t < o.start) :
    (l.startsAfter t).min? = ((l.ahead t).head?.map (·.start)).or (l.ongoing.map (·.start)) := by
  have hpassed : ((l.passed t).map (·.start)).filter (t < ·) = [] := by
    refine List.filter_eq_nil_iff.2 fun u hu => ?_
    obtain ⟨iv, hiv, rfl⟩ := List.mem_map.1 hu
    have hlt := h.stop_lt_of_passed hiv
    have hle := h.start_le iv (mem_closed_of_passed hiv)
    simp only [decide_eq_true_eq]
    lia
  have hahead : ((l.ahead t).map (·.start)).filter (t < ·) = (l.ahead t).map (·.start) := by
    refine List.filter_eq_self.2 fun u hu => decide_eq_true ?_
    obtain ⟨iv, hiv, rfl⟩ := List.mem_map.1 hu
    have hle := h.le_stop_of_ahead hiv
    have hnot := Bool.eq_false_iff.1 (hfree iv (mem_closed_of_ahead hiv))
    rw [Ne, Interval.contains_iff] at hnot
    lia
  have hongoing : (l.ongoing.map (·.start)).toList.filter (t < ·) =
      (l.ongoing.map (·.start)).toList := by
    refine List.filter_eq_self.2 fun u hu => decide_eq_true ?_
    obtain ⟨o, ho, rfl⟩ := Option.map_eq_some_iff.1 (Option.mem_toList.1 hu)
    exact hlate o ho
  have hstarts : l.startsAfter t = (l.ahead t).map (·.start) ++
      (l.ongoing.map (·.start)).toList := by
    rw [startsAfter, ← passed_append_ahead l t, List.map_append, List.filter_append,
      List.filter_append, hpassed, hahead, hongoing, List.nil_append]
  have hascending : ((l.ahead t).map (·.start) ++ (l.ongoing.map (·.start)).toList).Pairwise
      (· < ·) := by
    refine List.pairwise_append.2 ⟨?_, ?_, ?_⟩
    · rw [List.pairwise_map]
      refine (h.pairwise_split t).2.imp_of_mem fun ha _ hlt => ?_
      exact Int.lt_of_le_of_lt (h.start_le _ (mem_closed_of_ahead ha)) hlt
    · cases l.ongoing <;> simp
    · intro u hu v hv
      obtain ⟨iv, hiv, rfl⟩ := List.mem_map.1 hu
      obtain ⟨o, ho, rfl⟩ := Option.map_eq_some_iff.1 (Option.mem_toList.1 hv)
      have hmem := mem_closed_of_ahead hiv
      exact Int.lt_of_le_of_lt (h.start_le iv hmem) (h.stop_lt_ongoing hmem ho)
  rw [hstarts, min?_eq_head? hascending, List.head?_append, List.head?_map, Option.head?_toList]

/-! ## The scan -/

theorem scan_eq_closed_iff {iv : Interval} :
    l.scan t = .closed iv ↔ l.closed.toList.find? (·.contains t) = some iv := by
  unfold scan
  cases l.closed.toList.find? (·.contains t) with
  | some jv => simp
  | none => cases l.ongoing.filter fun o => o.start ≤ t <;> simp

theorem scan_eq_ongoing_iff {o : Ongoing} : l.scan t = .ongoing o ↔
    l.closed.toList.find? (·.contains t) = none ∧ l.ongoing = some o ∧ o.start ≤ t := by
  have hbegun : (l.ongoing.filter fun o => o.start ≤ t) = some o ↔
      l.ongoing = some o ∧ o.start ≤ t := by
    rw [Option.filter_eq_some_iff, decide_eq_true_eq]
  rw [← hbegun]
  unfold scan
  cases l.closed.toList.find? (·.contains t) with
  | some jv => simp
  | none => cases l.ongoing.filter fun o => o.start ≤ t <;> simp

theorem scan_eq_gap_iff {stop start : Option Time} : l.scan t = .gap stop start ↔
    l.closed.toList.find? (·.contains t) = none ∧ (∀ o, l.ongoing = some o → t < o.start) ∧
    stop = (l.stopsBefore t).max? ∧ start = (l.startsAfter t).min? := by
  have hlate : (l.ongoing.filter fun o => o.start ≤ t) = none ↔ ∀ o, l.ongoing = some o →
      t < o.start := by
    simp [Option.filter_eq_none_iff]
  rw [← hlate]
  unfold scan
  cases l.closed.toList.find? (·.contains t) with
  | some jv => simp
  | none => cases l.ongoing.filter fun o => o.start ≤ t <;> simp [eq_comm]

theorem find?_contains_eq_none_iff :
    l.closed.toList.find? (·.contains t) = none ↔ ∀ iv ∈ l.closed, iv.contains t = false := by
  simp

/-- **A lookup finds what a scan finds.** -/
theorem Ordered.lookup_eq_scan (h : l.Ordered) (t : Time) : l.lookup t = l.scan t := by
  rw [lookup_eq, ← h.find?_contains, ← h.max?_stopsBefore]
  unfold scan
  cases hfound : l.closed.toList.find? (·.contains t) with
  | some iv => rfl
  | none =>
    cases hbegun : l.ongoing.filter fun o => o.start ≤ t with
    | some o => rfl
    | none =>
      have hlate : ∀ o, l.ongoing = some o → t < o.start := by
        simpa [Option.filter_eq_none_iff] using hbegun
      rw [h.min?_startsAfter (find?_contains_eq_none_iff.1 hfound) hlate]

/-- What a lookup finds is exact. -/
theorem Ordered.finds_lookup (h : l.Ordered) (t : Time) : l.Finds t (l.lookup t) := by
  rw [h.lookup_eq_scan]
  refine ⟨fun iv => ?_, fun o => ?_, fun stop start => ?_⟩
  · rw [scan_eq_closed_iff, h.filter_contains, Option.toList_eq_singleton_iff]
  · -- an ongoing state that has begun by `t` has left all closed intervals behind
    rw [scan_eq_ongoing_iff, and_iff_right_iff_imp]
    rintro ⟨ho, hstart⟩
    rw [find?_contains_eq_none_iff]
    intro iv hiv
    have hlt := h.stop_lt_ongoing hiv ho
    rw [← Bool.not_eq_true, Interval.contains_iff]
    lia
  · rw [scan_eq_gap_iff, find?_contains_eq_none_iff]

end

end Timeline

end StateHistory
