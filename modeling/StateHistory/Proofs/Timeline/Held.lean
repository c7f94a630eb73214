import StateHistory.Proofs.Timeline.Position

/-!
# The value held at a time

What a timeline answers at each time, and how writing, amending and closing change the answers: a
write at `t` changes them from `t` on and nowhere else (`valueAt_opened`), amending from the start
of the ongoing state on, and closing at `t` leaves all that lies before `t` as it is.
-/

namespace StateHistory.Timeline

/-- The value that the timeline holds at `t`, null where nothing is recorded. -/
def valueAt (l : Timeline) (t : Time) : Value :=
  match l.lookup t with
  | .closed iv => iv.value
  | .ongoing o => o.value
  | .gap _ _ => .null

section
variable {l : Timeline} {q : Quark} {t : Time}

theorem Seamless.valueAt_of_closed (h : l.Seamless q) {iv : Interval} (hiv : iv ∈ l.closed)
    (hlo : iv.start ≤ t) (hhi : t ≤ iv.stop) : l.valueAt t = iv.value := by
  rw [valueAt, h.lookup_eq_iff.2 (.closed hiv hlo hhi)]

theorem Seamless.valueAt_of_ongoing (h : l.Seamless q) {o : Ongoing} (ho : l.ongoing = some o)
    (hlo : o.start ≤ t) : l.valueAt t = o.value := by
  rw [valueAt, h.lookup_eq_iff.2 (.ongoing ho hlo)]

theorem Seamless.valueAt_of_none (h : l.Seamless q)
    (hc : ∀ iv ∈ l.closed, iv.start ≤ t → ¬ t ≤ iv.stop)
    (ho : ∀ o, l.ongoing = some o → t < o.start) : l.valueAt t = .null := by
  have hp := h.lookup_position t
  unfold valueAt
  generalize l.lookup t = found at hp
  cases hp with
  | closed hiv hlo hhi => exact absurd hhi (hc _ hiv hlo)
  | ongoing ho' hlo => exact absurd hlo (Int.not_le.2 (ho _ ho'))
  | before _ => rfl
  | after _ _ _ => rfl

/-- Two timelines hold the same at `t` if every closed interval at `t` of either has its like in the
other, and so has an ongoing state. -/
theorem Seamless.valueAt_congr {l' : Timeline} (h : l.Seamless q) (h' : l'.Seamless q)
    (hc : ∀ iv ∈ l.closed, iv.start ≤ t → t ≤ iv.stop → iv ∈ l'.closed)
    (ho : ∀ o, l.ongoing = some o → o.start ≤ t → l'.valueAt t = o.value)
    (hnone : (∀ iv ∈ l.closed, iv.start ≤ t → ¬ t ≤ iv.stop) →
      (∀ o, l.ongoing = some o → t < o.start) →
      l'.valueAt t = .null) : l'.valueAt t = l.valueAt t := by
  have hp := h.lookup_position t
  unfold valueAt at ho hnone ⊢
  generalize l.lookup t = found at hp
  cases hp with
  | closed hiv hlo hhi => exact h'.valueAt_of_closed (hc _ hiv hlo hhi) hlo hhi
  | ongoing ho' hlo => exact ho _ ho' hlo
  | before hlt =>
    refine hnone (fun iv hiv hlo _ => ?_) fun o ho' => ?_
    · obtain ⟨s, hs⟩ := start?_isSome_of_closed hiv
      have := hlt s hs
      have := h.start?_le_closed hs hiv
      lia
    · obtain ⟨s, hs⟩ := start?_isSome_of_ongoing ho'
      have := hlt s hs
      have := h.start?_le_ongoing hs ho'
      lia
  | after ho' hl hlt =>
    refine hnone (fun iv hiv _ hhi => ?_) (by simp [ho'])
    have := h.ordered.stop_le_last hiv hl
    lia

/-- Cutting at `t` keeps all closed intervals and adds at most the one that the ongoing state
becomes. -/
theorem mem_cut {t : Time} {iv : Interval} : iv ∈ l.cut q t ↔
    iv ∈ l.closed ∨ ∃ o, l.ongoing = some o ∧ o.start < t ∧ iv = ⟨q, o.start, t - 1, o.value⟩ := by
  unfold cut
  cases ho : l.ongoing with
  | none => simp
  | some o =>
    by_cases hlt : o.start < t
    · simp [hlt]
    · simp [hlt]

/-- **A write counts from its own time on.** -/
theorem Seamless.valueAt_opened (h : l.Seamless q) (hg : l.Growing) {t₀ : Time} (v : Value)
    (ht : l.tooEarly t₀ = none) (t : Time) :
    (l.opened q t₀ v).valueAt t = if t₀ ≤ t then v else l.valueAt t := by
  have h' := h.opened hg v ht
  have hongoing : (l.opened q t₀ v).ongoing = some ⟨t₀, v⟩ := rfl
  by_cases hle : t₀ ≤ t
  · rw [if_pos hle]
    exact h'.valueAt_of_ongoing hongoing hle
  · rw [if_neg hle]
    refine h.valueAt_congr h' ?_ ?_ ?_
    · exact fun iv hiv _ _ => mem_cut.2 (Or.inl hiv)
    · intro o ho hlo
      exact h'.valueAt_of_closed (mem_cut.2 (Or.inr ⟨o, ho, by lia, rfl⟩)) hlo (by simp; lia)
    · intro hc ho
      refine h'.valueAt_of_none (fun iv hiv hlo => ?_) ?_
      · rcases mem_cut.1 hiv with hiv | ⟨o, ho', -, rfl⟩
        · exact hc iv hiv hlo
        · exact absurd hlo (Int.not_le.2 (ho o ho'))
      · rintro o ⟨⟩
        exact Int.not_le.1 hle

/-- Amending counts from the start of the ongoing state on. -/
theorem Seamless.valueAt_amend (h : l.Seamless q) {o : Ongoing} (ho : l.ongoing = some o)
    (v : Value) (d t : Time) :
    (l.amend v d).valueAt t = if o.start ≤ t then v else l.valueAt t := by
  have h' := h.amend v d
  have hamend : l.amend v d = { l with ongoing := some ⟨o.start, v⟩ } := by
    simp [Timeline.amend, ho]
  rw [hamend] at h' ⊢
  by_cases hle : o.start ≤ t
  · rw [if_pos hle]
    exact h'.valueAt_of_ongoing (o := ⟨o.start, v⟩) rfl hle
  · rw [if_neg hle]
    refine h.valueAt_congr h' (fun iv hiv _ _ => hiv) ?_ ?_
    · intro o' ho' hlo
      rw [ho, Option.some.injEq] at ho'
      subst ho'
      exact absurd hlo hle
    · intro hc _
      refine h'.valueAt_of_none hc ?_
      rintro _ ⟨⟩
      exact Int.not_le.1 hle

/-- Closing at `t` changes nothing before `t`. -/
theorem Seamless.valueAt_close (h : l.Seamless q) {stop t : Time} (hlt : t < stop) :
    (l.close q stop).2.valueAt t = l.valueAt t := by
  have h' := h.close stop
  cases ho : l.ongoing with
  | none =>
    have : (l.close q stop).2 = l := by simp [Timeline.close, ho]
    rw [this]
  | some o =>
    have hclose : (l.close q stop).2 =
        { closed := l.closed.push ⟨q, o.start, max stop.before o.start, o.value⟩, ongoing :=
          none } := by
      simp [Timeline.close, ho]
    rw [hclose] at h' ⊢
    have hlast : t ≤ max stop.before o.start := by
      unfold Time.before
      lia
    refine h.valueAt_congr h' (fun iv hiv _ _ => Array.mem_push_of_mem _ hiv) ?_ ?_
    · intro o' ho' hlo
      rw [ho, Option.some.injEq] at ho'
      subst ho'
      exact h'.valueAt_of_closed (Array.mem_push_self) hlo hlast
    · intro hc ho'
      refine h'.valueAt_of_none (fun iv hiv hlo => ?_) (by simp)
      rcases Array.mem_push.1 hiv with hiv | rfl
      · exact hc iv hiv hlo
      · exact absurd hlo (Int.not_le.2 (ho' o ho))

end

end StateHistory.Timeline
