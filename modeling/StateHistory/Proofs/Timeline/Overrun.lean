import StateHistory.Proofs.Store.Dated
import StateHistory.Proofs.Timeline.Reopened

/-!
# Timelines past the latest time

An amendment starts a state just after the last closed interval. If that interval ends at the latest
time (`Full`), there is nothing after it in 64 bits, and the state starts at the earliest time
instead, before all that is recorded. From there on the timeline is out of order for good
(`Overrun`). No other amendment goes past the latest time (`wrapped_amend`).
-/

namespace StateHistory

/-! ## Times -/

namespace Time

theorem inRange_wrap (t : Time) : t.wrap.InRange := by
  have hlow := Int.le_bmod (x := t) (m := 18446744073709551616) (by decide)
  have hhigh := Int.bmod_lt (x := t) (m := 18446744073709551616) (by decide)
  unfold InRange earliest latest wrap
  lia

end Time

/-! ## Timelines -/

namespace Timeline

/-- All is closed up to the latest time, so that nothing can come after it. -/
def Full (l : Timeline) : Prop := l.ongoing = none ∧ l.last?.map (·.stop) = some Time.latest

instance (l : Timeline) : Decidable l.Full := inferInstanceAs (Decidable (_ ∧ _))

/-- Something comes after an interval that ends at the latest time. -/
def Overrun (l : Timeline) : Prop :=
  ∃ front iv back, l.closed.toList = front ++ iv :: back ∧ iv.stop = Time.latest ∧
    (back ≠ [] ∨ l.ongoing ≠ none)

section
variable {l : Timeline}

/-- The ongoing state may be replaced. -/
theorem Overrun.begun (h : l.Overrun) (o : Ongoing) : Overrun { l with ongoing := some o } := by
  obtain ⟨front, iv, back, hclosed, hstop, -⟩ := h
  exact ⟨front, iv, back, hclosed, hstop, Or.inr (by simp)⟩

/-- What is ongoing may be closed. -/
theorem Overrun.ended (h : l.Overrun) (iv : Interval) (next : Option Ongoing) :
    Overrun { closed := l.closed.push iv, ongoing := next } := by
  obtain ⟨front, full, back, hclosed, hstop, -⟩ := h
  refine ⟨front, full, back ++ [iv], ?_, hstop, Or.inl (by simp)⟩
  rw [Array.toList_push, hclosed, List.append_assoc, List.cons_append]

theorem Overrun.after (h : l.Overrun) (c : Call) : (c.after l).Overrun := by
  cases c with
  | write q t v =>
    unfold Call.after
    cases ht : l.tooEarly t with
    | some floor => simpa only [write, ht] using h
    | none =>
      simp only [write_eq_opened v ht]
      unfold opened cut
      cases l.ongoing with
      | none => exact h.begun ⟨t, v⟩
      | some o =>
        simp only
        split
        · exact h.ended _ _
        · exact h.begun ⟨t, v⟩
  | amend v default =>
    unfold Call.after amend
    cases l.ongoing with
    | some o => exact h.begun _
    | none => exact h.begun _
  | close q t =>
    unfold Call.after close
    cases l.ongoing with
    | some o => exact h.ended _ _
    | none => exact h

theorem Overrun.wrapped (h : l.Overrun) : l.wrapped.Overrun := by
  obtain ⟨front, iv, back, hclosed, hstop, hmore⟩ := h
  refine ⟨front, iv, back, hclosed, hstop, hmore.imp_right fun hne => ?_⟩
  simpa [Timeline.wrapped] using hne

theorem Overrun.run (h : l.Overrun) (calls : List Call) : (l.run calls).Overrun := by
  induction calls generalizing l with
  | nil => exact h
  | cons c calls ih => exact ih (h.after c)

theorem Ranged.wrapped (h : l.Ranged) (v : Value) (default : Time) :
    (l.amend v default).wrapped.Ranged := by
  refine ⟨?_, ?_⟩
  · intro iv hiv
    refine h.closed_inRange iv ?_
    unfold Timeline.wrapped Timeline.amend at hiv
    cases ho : l.ongoing <;> simpa [ho] using hiv
  · intro o ho
    obtain ⟨o', -, rfl⟩ := Option.map_eq_some_iff.1 ho
    exact Time.inRange_wrap _

end

end Timeline

end StateHistory
