import StateHistory.Proofs.Timeline.Ordered

/-!
# Timelines without overlaps and holes

In a seamless timeline every closed interval starts just after the one before it, and the ongoing
state just after the last of them. Writing keeps this only while the timeline is growing, that is,
while the last closed interval is followed by an ongoing state: a write to a timeline that was
closed could leave a hole behind the last interval.
-/

namespace StateHistory.Timeline

/-- The closed intervals are those of `q`, none is empty, each starts just after the one before it,
and the ongoing state starts just after the last one. -/
structure Seamless (l : Timeline) (q : Quark) : Prop where
  quark_eq : ∀ iv ∈ l.closed, iv.quark = q
  start_le : ∀ iv ∈ l.closed, iv.start ≤ iv.stop
  adjacent : ∀ (i : Nat) (h : i + 1 < l.closed.size), l.closed[i].stop + 1 = l.closed[i + 1].start
  ongoing_start : ∀ o iv, l.ongoing = some o → l.last? = some iv → o.start = iv.stop + 1

/-- Whatever is closed is followed by an ongoing state. -/
def Growing (l : Timeline) : Prop := l.ongoing = none → l.closed = #[]

/-- The timeline after a write at `t` that does not come too early. -/
def opened (l : Timeline) (q : Quark) (t : Time) (v : Value) : Timeline where
  closed := l.cut q t
  ongoing := some ⟨t, v⟩

theorem seamless_empty (q : Quark) : Seamless {} q := by
  constructor <;> simp [last?]

theorem growing_empty : Growing {} := fun _ => rfl

theorem Growing.last?_eq_none {l : Timeline} (h : l.Growing) (ho : l.ongoing = none) :
    l.last? = none := by simp [last?, h ho]

/-! ## The order of the closed intervals -/

section
variable {l : Timeline} {q : Quark}

theorem Seamless.pairwise (h : l.Seamless q) :
    l.closed.toList.Pairwise fun a b => a.stop < b.start := by
  rw [List.pairwise_iff_getElem]
  intro i j hi hj hij
  simp only [Array.getElem_toList]
  induction j with
  | zero => exact absurd hij (Nat.not_lt_zero _)
  | succ j ih =>
    have hadj := h.adjacent j hj
    rcases Nat.lt_or_eq_of_le (Nat.le_of_lt_succ hij) with hlt | rfl
    · have := ih (Nat.lt_of_succ_lt hj) hlt
      have := h.start_le _ (Array.getElem_mem (Nat.lt_of_succ_lt hj))
      lia
    · lia

theorem Seamless.ordered (h : l.Seamless q) : l.Ordered := by
  refine ⟨h.start_le, h.pairwise, fun o iv ho hl => ?_⟩
  have := h.ongoing_start o iv ho hl
  lia

/-! ## Writes -/

theorem floor_of_ongoing {o : Ongoing} (ho : l.ongoing = some o) : l.floor = some o.start := by
  simp [floor, ho]

theorem tooEarly_eq_none_iff {t : Time} : l.tooEarly t = none ↔ ∀ f, l.floor = some f → f ≤ t := by
  simp [tooEarly, Option.filter_eq_none_iff]

theorem write_eq_opened {t : Time} (v : Value) (h : l.tooEarly t = none) :
    l.write q t v = .ok (l.opened q t v) := by
  simp [write, h, opened]

/-- A timeline grows by one more interval at its end. -/
theorem Seamless.push (h : l.Seamless q) (iv : Interval) (o : Option Ongoing) (hq : iv.quark = q)
    (hle : iv.start ≤ iv.stop) (hlast : ∀ last, l.last? = some last → iv.start = last.stop + 1)
    (ho : ∀ o', o = some o' → o'.start = iv.stop + 1) :
    Seamless { closed := l.closed.push iv, ongoing := o } q := by
  refine ⟨?_, ?_, ?_, ?_⟩
  · intro a ha
    rcases Array.mem_push.1 ha with ha | rfl
    · exact h.quark_eq a ha
    · exact hq
  · intro a ha
    rcases Array.mem_push.1 ha with ha | rfl
    · exact h.start_le a ha
    · exact hle
  · intro i hi
    simp only [Array.size_push] at hi
    simp only [Array.getElem_push]
    rw [dif_pos (by omega : i < l.closed.size)]
    by_cases hend : i + 1 < l.closed.size
    · rw [dif_pos hend]
      exact h.adjacent i hend
    · rw [dif_neg hend]
      have hl := last?_isSome (l := l) (by omega)
      have : i = l.closed.size - 1 := by omega
      subst this
      exact (hlast _ hl).symm
  · intro o' last ho' hl
    simp only [last?, Array.back?_push, Option.some.injEq] at hl
    subst hl
    exact ho o' ho'

/-- Replacing the ongoing state by one with the same start. -/
theorem Seamless.replace (h : l.Seamless q) {o : Ongoing} (ho : l.ongoing = some o) (v : Value) :
    Seamless { l with ongoing := some ⟨o.start, v⟩ } q := by
  refine ⟨h.quark_eq, h.start_le, h.adjacent, ?_⟩
  intro o' iv ho' hl
  simp only [Option.some.injEq] at ho'
  subst ho'
  exact h.ongoing_start o iv ho hl

theorem Seamless.opened (h : l.Seamless q) (hg : l.Growing) {t : Time} (v : Value)
    (ht : l.tooEarly t = none) : (l.opened q t v).Seamless q := by
  rw [tooEarly_eq_none_iff] at ht
  cases ho : l.ongoing with
  | none =>
    have hc := hg ho
    simp only [Timeline.opened, cut, ho, hc]
    constructor <;> simp [last?]
  | some o =>
    have hle := ht _ (floor_of_ongoing ho)
    simp only [Timeline.opened, cut, ho]
    by_cases hlt : o.start < t
    · rw [if_pos hlt]
      refine h.push ⟨q, o.start, t - 1, o.value⟩ (some ⟨t, v⟩) rfl (by simp; lia) ?_ ?_
      · exact fun last hl => h.ongoing_start o last ho hl
      · rintro o' ⟨⟩
        simp
    · rw [if_neg hlt]
      have : o.start = t := by lia
      subst this
      exact h.replace ho v

theorem growing_opened (t : Time) (v : Value) : (l.opened q t v).Growing := by
  simp [Growing, Timeline.opened]

theorem Seamless.amend (h : l.Seamless q) (v : Value) (t : Time) : (l.amend v t).Seamless q := by
  unfold Timeline.amend
  cases ho : l.ongoing with
  | some o => exact h.replace ho v
  | none =>
    refine ⟨h.quark_eq, h.start_le, h.adjacent, ?_⟩
    intro o iv ho' hl
    have hl' : l.last? = some iv := hl
    simp only [Option.some.injEq] at ho'
    subst ho'
    simp [hl']

theorem growing_amend (v : Value) (t : Time) : (l.amend v t).Growing := by
  unfold Growing Timeline.amend
  split <;> simp

theorem Seamless.close (h : l.Seamless q) (t : Time) : (l.close q t).2.Seamless q := by
  unfold Timeline.close
  cases ho : l.ongoing with
  | none => exact h
  | some o =>
    refine h.push _ none rfl (Int.le_max_right _ _) ?_ (by simp)
    exact fun last hl => h.ongoing_start o last ho hl

theorem close_of_ended (h : l.ongoing = none) (q : Quark) (t : Time) : l.close q t = (none, l) := by
  simp [Timeline.close, h]

theorem close_ongoing (t : Time) : (l.close q t).2.ongoing = none := by
  unfold Timeline.close
  cases ho : l.ongoing with
  | none => exact ho
  | some o => rfl

end

end StateHistory.Timeline
