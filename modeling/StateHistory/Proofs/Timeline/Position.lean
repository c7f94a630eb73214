import StateHistory.Proofs.Timeline.Seamless

/-!
# Where a time lies in a timeline

In a seamless timeline a time lies in exactly one closed interval, in the ongoing state, before all
that is recorded, or behind it; there is no hole to lie in. `Position` says which, without a search,
and `lookup_eq_iff` says that bisection finds just that.
-/

namespace StateHistory.Timeline

/-- Where recording starts. -/
def start? (l : Timeline) : Option Time := (l.closed[0]?.map (·.start)).or (l.ongoing.map (·.start))

/-- What a timeline without holes holds at `t`. -/
inductive Position (l : Timeline) (t : Time) : Lookup → Prop where
  | closed {iv : Interval} (mem : iv ∈ l.closed) (start_le : iv.start ≤ t) (le_stop : t ≤ iv.stop) :
    Position l t (.closed iv)
  | ongoing {o : Ongoing} (ongoing_eq : l.ongoing = some o) (start_le : o.start ≤ t) :
    Position l t (.ongoing o)
  | before (lt_start : ∀ s, l.start? = some s → t < s) : Position l t (.gap none l.start?)
  | after {iv : Interval} (ongoing_eq : l.ongoing = none) (last_eq : l.last? = some iv)
    (stop_lt : iv.stop < t) : Position l t (.gap (some iv.stop) none)

section
variable {l : Timeline} {q : Quark} {t : Time}

/-! ## The start of recording -/

theorem start?_of_closed (h : 0 < l.closed.size) : l.start? = some l.closed[0].start := by
  simp [start?, h]

theorem start?_of_empty (h : l.closed.size = 0) : l.start? = l.ongoing.map (·.start) := by
  simp [start?, h]

theorem Seamless.start?_le_closed (h : l.Seamless q) {s : Time} {iv : Interval}
    (hs : l.start? = some s) (hiv : iv ∈ l.closed) : s ≤ iv.start := by
  obtain ⟨i, hi, rfl⟩ := Array.mem_iff_getElem.1 hiv
  rw [start?_of_closed (by omega)] at hs
  cases hs
  rcases Nat.eq_zero_or_pos i with rfl | hpos
  · exact Int.le_refl _
  · have := h.ordered.stop_lt_start hpos hi
    have := h.ordered.start_le_stop (i := 0) (by omega)
    lia

theorem Seamless.start?_le_ongoing (h : l.Seamless q) {s : Time} {o : Ongoing}
    (hs : l.start? = some s) (ho : l.ongoing = some o) : s ≤ o.start := by
  rcases Nat.eq_zero_or_pos l.closed.size with h0 | hpos
  · rw [start?_of_empty h0, ho] at hs
    cases hs
    exact Int.le_refl _
  · rw [start?_of_closed hpos] at hs
    cases hs
    have := h.ordered.start_le_stop hpos
    have := h.ordered.stop_lt_ongoing (Array.getElem_mem hpos) ho
    lia

theorem start?_isSome_of_closed {iv : Interval} (hiv : iv ∈ l.closed) : ∃ s, l.start? = some s := by
  obtain ⟨i, hi, -⟩ := Array.mem_iff_getElem.1 hiv
  exact ⟨_, start?_of_closed (by omega)⟩

theorem start?_isSome_of_ongoing {o : Ongoing} (ho : l.ongoing = some o) :
    ∃ s, l.start? = some s := by
  rcases Nat.eq_zero_or_pos l.closed.size with h0 | hpos
  · exact ⟨o.start, by rw [start?_of_empty h0, ho]; rfl⟩
  · exact ⟨_, start?_of_closed hpos⟩

theorem start?_push {o : Ongoing} (ho : l.ongoing = some o) {iv : Interval}
    (hiv : iv.start = o.start) (o' : Option Ongoing) :
    Timeline.start? ⟨l.closed.push iv, o'⟩ = l.start? := by
  rcases Nat.eq_zero_or_pos l.closed.size with h0 | hpos
  · simp [start?, Array.eq_empty_of_size_eq_zero h0, ho, hiv]
  · simp [start?, hpos, Array.getElem_push_lt hpos]

theorem start?_replace {o : Ongoing} (ho : l.ongoing = some o) (v : Value) :
    Timeline.start? { l with ongoing := some ⟨o.start, v⟩ } = l.start? := by
  simp [start?, ho]

/-- A write starts recording if nothing has. -/
theorem start?_opened (h : l.tooEarly t = none) (v : Value) :
    (l.opened q t v).start? = some (l.start?.getD t) := by
  cases ho : l.ongoing with
  | none =>
    simp only [opened, cut, ho]
    rcases Nat.eq_zero_or_pos l.closed.size with h0 | hpos
    · simp [start?, h0, ho]
    · simp [start?, hpos]
  | some o =>
    obtain ⟨a, ha⟩ := start?_isSome_of_ongoing ho
    have hle := tooEarly_eq_none_iff.1 h _ (floor_of_ongoing ho)
    simp only [opened, cut, ho, ha, Option.getD_some]
    by_cases hlt : o.start < t
    · rw [if_pos hlt, start?_push ho rfl, ha]
    · obtain rfl : o.start = t := Int.le_antisymm hle (Int.not_lt.1 hlt)
      rw [if_neg hlt, start?_replace ho, ha]

/-- An amendment starts recording if nothing has. -/
theorem start?_amend (v : Value) (t : Time) : (l.amend v t).start? = some (l.start?.getD t) := by
  unfold amend
  cases ho : l.ongoing with
  | none =>
    rcases Nat.eq_zero_or_pos l.closed.size with h0 | hpos
    · have hlast : l.last? = none := by simp [last?, Array.eq_empty_of_size_eq_zero h0]
      simp [start?, h0, ho, hlast]
    · simp [start?, hpos]
  | some o =>
    obtain ⟨a, ha⟩ := start?_isSome_of_ongoing ho
    simp only [ha, Option.getD_some]
    rw [start?_replace ho, ha]

theorem start?_close (t : Time) : (l.close q t).2.start? = l.start? := by
  unfold close
  cases ho : l.ongoing with
  | none => rfl
  | some o => exact start?_push ho rfl none

/-! ## The search -/

/-- Where nothing is held at `t`, a search that passes over one closed interval passes over all that
there is: the next to begin would begin by `t`, or leave a hole. -/
theorem Seamless.past_of_passed (h : l.Seamless q) (hpos : 0 < l.endedBefore t)
    (hnext : ∀ iv, (l.ahead t).head? = some iv → t < iv.start)
    (hlate : ∀ o, l.ongoing = some o → t < o.start) :
    l.ahead t = [] ∧ l.ongoing = none := by
  have hsize := l.endedBefore_le t
  have hend : l.endedBefore t = l.closed.size := by
    refine Decidable.byContradiction fun hne => ?_
    have hlt : l.endedBefore t < l.closed.size := by omega
    have hlast :=
      h.ordered.stop_lt_of_endedBefore (t := t) (i := l.endedBefore t - 1) (by omega) (by omega)
    have hadj := h.adjacent (l.endedBefore t - 1) (by omega)
    simp only [Nat.sub_add_cancel hpos] at hadj
    have hstart := hnext l.closed[l.endedBefore t] (by simp [ahead])
    lia
  constructor
  · simp [ahead, hend]
  · cases ho : l.ongoing with
    | none => rfl
    | some o =>
      have hlast :=
        h.ordered.stop_lt_of_endedBefore (t := t) (i := l.closed.size - 1) (by omega) (by omega)
      have hadj := h.ongoing_start o _ ho (last?_isSome (by omega))
      have hstart := hlate o ho
      lia

/-- **Bisection finds the position of a time.** -/
theorem Seamless.lookup_position (h : l.Seamless q) (t : Time) : l.Position t (l.lookup t) := by
  rw [lookup_eq]
  cases hnext : (l.ahead t).head?.filter fun iv => iv.start ≤ t with
  | some iv =>
    obtain ⟨hhead, hstart⟩ := Option.filter_eq_some_iff.1 hnext
    have hmem := List.mem_of_mem_head? hhead
    exact .closed (mem_closed_of_ahead hmem) (of_decide_eq_true hstart)
      (h.ordered.le_stop_of_ahead hmem)
  | none =>
    have hnext : ∀ iv, (l.ahead t).head? = some iv → t < iv.start := by
      simpa [Option.filter_eq_none_iff] using hnext
    cases hbegun : l.ongoing.filter fun o => o.start ≤ t with
    | some o =>
      obtain ⟨ho, hstart⟩ := Option.filter_eq_some_iff.1 hbegun
      exact .ongoing ho (of_decide_eq_true hstart)
    | none =>
      have hlate : ∀ o, l.ongoing = some o → t < o.start := by
        simpa [Option.filter_eq_none_iff] using hbegun
      rcases Nat.eq_zero_or_pos (l.endedBefore t) with h0 | hpos
      · have hpassed : l.passed t = [] := by rw [passed, h0, List.take_zero]
        have hstart : ((l.ahead t).head?.map (·.start)).or (l.ongoing.map (·.start)) =
            l.start? := by
          rw [ahead, List.head?_drop, Array.getElem?_toList, h0, start?]
        rw [hpassed, hstart]
        refine .before fun s hs => ?_
        rw [← hstart] at hs
        rcases Option.or_eq_some_iff.1 hs with hs | ⟨-, hs⟩
        · obtain ⟨iv, hiv, rfl⟩ := Option.map_eq_some_iff.1 hs
          exact hnext iv hiv
        · obtain ⟨o, ho, rfl⟩ := Option.map_eq_some_iff.1 hs
          exact hlate o ho
      · obtain ⟨hahead, ho⟩ := h.past_of_passed hpos hnext hlate
        have hpassed : l.passed t = l.closed.toList := by
          rw [← passed_append_ahead l t, hahead, List.append_nil]
        obtain ⟨last, hlast⟩ : ∃ last, l.last? = some last :=
          ⟨_, last?_isSome (Nat.lt_of_lt_of_le hpos (l.endedBefore_le t))⟩
        have hmem : last ∈ l.passed t := by
          rw [hpassed]
          exact Array.mem_toList_iff.2 (Array.mem_of_back? hlast)
        have hback : (l.passed t).getLast? = some last := by
          rw [hpassed, Array.getLast?_toList]
          exact hlast
        rw [hback, hahead, ho]
        exact .after ho hlast (h.ordered.stop_lt_of_passed hmem)

/-- A time has one position only. -/
theorem Seamless.position_unique (h : l.Seamless q) {a b : Lookup} (ha : l.Position t a)
    (hb : l.Position t b) : a = b := by
  have closed_closed : ∀ {iv jv : Interval}, iv ∈ l.closed → iv.start ≤ t → t ≤ iv.stop →
      jv ∈ l.closed → jv.start ≤ t → t ≤ jv.stop → iv = jv :=
    fun hi h1 h2 hj h3 h4 => h.ordered.eq_of_share hi hj (by lia) (by lia)
  have closed_ongoing : ∀ {iv : Interval} {o : Ongoing}, iv ∈ l.closed → t ≤ iv.stop →
      l.ongoing = some o → o.start ≤ t → False := by
    intro iv o hi h1 ho h2
    have := h.ordered.stop_lt_ongoing hi ho
    lia
  have closed_before : ∀ {iv : Interval}, iv ∈ l.closed → iv.start ≤ t →
      (∀ s, l.start? = some s → t < s) → False := by
    intro iv hi h1 hlt
    obtain ⟨s, hs⟩ := start?_isSome_of_closed hi
    have := hlt s hs
    have := h.start?_le_closed hs hi
    lia
  have ongoing_before : ∀ {o : Ongoing}, l.ongoing = some o → o.start ≤ t →
      (∀ s, l.start? = some s → t < s) → False := by
    intro o ho h1 hlt
    obtain ⟨s, hs⟩ := start?_isSome_of_ongoing ho
    have := hlt s hs
    have := h.start?_le_ongoing hs ho
    lia
  have closed_after : ∀ {iv jv : Interval}, iv ∈ l.closed → t ≤ iv.stop → l.last? = some jv →
      jv.stop < t → False := by
    intro iv jv hi h1 hl h2
    have := h.ordered.stop_le_last hi hl
    lia
  have before_after : ∀ {jv : Interval}, (∀ s, l.start? = some s → t < s) → l.last? = some jv →
      jv.stop < t → False := by
    intro jv hlt hl h2
    obtain ⟨hs, rfl⟩ := last?_eq_some hl
    have := h.ordered.start_le_stop hs
    exact closed_before (Array.getElem_mem hs) (by lia) hlt
  cases ha with
  | closed hi h1 h2 => cases hb with
    | closed hj h3 h4 => rw [closed_closed hi h1 h2 hj h3 h4]
    | ongoing ho h3 => exact (closed_ongoing hi h2 ho h3).elim
    | before hlt => exact (closed_before hi h1 hlt).elim
    | after _ hl h3 => exact (closed_after hi h2 hl h3).elim
  | ongoing ho h1 => cases hb with
    | closed hj _ h4 => exact (closed_ongoing hj h4 ho h1).elim
    | ongoing ho' _ => rw [ho] at ho'; cases ho'; rfl
    | before hlt => exact (ongoing_before ho h1 hlt).elim
    | after ho' _ _ => rw [ho] at ho'; cases ho'
  | before hlt => cases hb with
    | closed hj h3 _ => exact (closed_before hj h3 hlt).elim
    | ongoing ho h3 => exact (ongoing_before ho h3 hlt).elim
    | before _ => rfl
    | after _ hl h3 => exact (before_after hlt hl h3).elim
  | after ho hl h1 => cases hb with
    | closed hj _ h4 => exact (closed_after hj h4 hl h1).elim
    | ongoing ho' _ => rw [ho] at ho'; cases ho'
    | before hlt => exact (before_after hlt hl h1).elim
    | after _ hl' _ => rw [hl] at hl'; cases hl'; rfl

theorem Seamless.lookup_eq_iff (h : l.Seamless q) {a : Lookup} : l.lookup t = a ↔ l.Position t a :=
  ⟨fun ha => ha ▸ h.lookup_position t, fun ha => h.position_unique (h.lookup_position t) ha⟩

/-- No time between two closed intervals is without one. -/
theorem Seamless.no_hole (h : l.Seamless q) {a b : Interval} (ha : a ∈ l.closed) (hb : b ∈ l.closed)
    (hat : a.start ≤ t) (htb : t ≤ b.stop) : ∃ iv ∈ l.closed, iv.start ≤ t ∧ t ≤ iv.stop := by
  have hp := h.lookup_position t
  generalize l.lookup t = found at hp
  cases hp with
  | closed hiv hlo hhi => exact ⟨_, hiv, hlo, hhi⟩
  | ongoing ho hlo =>
    have := h.ordered.stop_lt_ongoing hb ho
    lia
  | before hlt =>
    obtain ⟨s, hs⟩ := start?_isSome_of_closed ha
    have := hlt s hs
    have := h.start?_le_closed hs ha
    lia
  | after _ hl hlt =>
    have := h.ordered.stop_le_last hb hl
    lia

end

end StateHistory.Timeline
