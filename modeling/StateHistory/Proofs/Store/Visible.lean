import StateHistory.Proofs.Store.Dated

/-!
# What is still seen at the end

A store that is closed just after its last recorded time keeps that time as its end, and what was
ongoing is asked for there. There is no time after the latest of 64 bits: closing at that time
itself ends just before it all that has begun earlier, and leaves nothing to be seen at the end
(`Dated.single_ended`).
-/

namespace StateHistory

namespace Time

section
variable {t : Time}

theorem before_after_le (h : t.InRange) : t.after.before ≤ t := by
  unfold InRange before after earliest latest at *
  lia

theorem le_before_after_iff (h : t.InRange) : t ≤ t.after.before ↔ t < latest := by
  unfold InRange before after earliest latest at *
  lia

end

end Time

namespace Store

/-- What is ongoing at `q` is seen at `t` after closing just after `t`: unless `t` is the latest
time, or else if it has begun at `t` or is null. -/
def StaysVisible (s : Store) (q : Quark) (t : Time) : Prop :=
  t < Time.latest ∨ ∀ o, (s.timelineOf q).ongoing = some o → o.start = t ∨ o.value = .null

section
variable {s : Store} {q : Quark} {t : Time} {o : Ongoing}

/-- Closing just after the end of recording does not move it. -/
theorem Dated.lastTime_after (h : s.Dated) (hstop : s.stop = some t) : s.lastTime t.after = t := by
  have ht := h.stop_inRange t hstop
  have hbase : s.stop.elim t.after (max t.after.before) = t := by
    rw [hstop]
    exact Int.max_eq_right (Time.before_after_le ht)
  rcases closeAll_attained (t := t.after) s.timelines.toList 0
      (s.stop.elim t.after (max t.after.before)) with
    hsame | ⟨i, l, o, hl, ho, heq⟩
  · rw [lastTime, hsame, hbase]
  · refine Int.le_antisymm ?_ (stop_le_lastTime hstop _)
    obtain ⟨hi, rfl⟩ := List.getElem?_eq_some_iff.1 hl
    have hbegun := h.begun ⟨i⟩ o
    rw [timelineOf_eq (q := ⟨i⟩) (by simpa using hi), hstop] at hbegun
    obtain ⟨stop, hsome, hle⟩ := hbegun (by simpa using ho)
    obtain rfl := Option.some.inj hsome
    rw [lastTime, heq]
    exact Int.max_le.2 ⟨Time.before_after_le ht, hle⟩

/-- What is seen at the end of what was ongoing. -/
theorem Dated.valueAt_close (h : s.Dated) (hs : s.Sound) (hstop : s.stop = some t)
    (ho : (s.timelineOf q).ongoing = some o) :
    ((s.timelineOf q).close q t.after).2.valueAt t = if t < Time.latest ∨
      o.start = t then o.value else .null := by
  have ht := h.stop_inRange t hstop
  have hseamless := (hs.seamless q).close t.after
  have hbegun : o.start ≤ t := by
    obtain ⟨stop, hsome, hle⟩ := h.begun q o ho
    rw [hstop] at hsome
    exact Option.some.inj hsome ▸ hle
  have hreaches : t ≤ max t.after.before o.start ↔ t < Time.latest ∨ o.start = t := by
    have hbefore := Time.le_before_after_iff ht
    lia
  by_cases hvisible : t < Time.latest ∨ o.start = t
  · rw [if_pos hvisible]
    exact hseamless.valueAt_of_closed (Timeline.mem_close.2 (Or.inr ⟨o, ho, rfl⟩)) hbegun
      (hreaches.2 hvisible)
  · rw [if_neg hvisible]
    refine hseamless.valueAt_of_none (fun iv hiv _ hle => ?_) (by simp [Timeline.close_ongoing])
    rcases Timeline.mem_close.1 hiv with hiv | ⟨o', ho', rfl⟩
    · obtain ⟨stop, hsome, hlt⟩ := (h.within q).closed_lt iv hiv
      rw [hstop] at hsome
      obtain rfl := Option.some.inj hsome
      exact absurd hle (Int.not_le.2 hlt)
    · rw [ho] at ho'
      obtain rfl := Option.some.inj ho'
      exact hvisible (hreaches.1 hle)

/-- **What is seen at the end of a store that is closed just after it.** The end stays where it was
and can be asked for at every attribute. The answer has the value that was ongoing, exactly if that
stays visible. -/
theorem Dated.single_ended (h : s.Dated) (hs : s.Sound) (hstop : s.stop = some t)
    (hq : s.tree.contains q = true) :
    (s.ended t.after).stop = some t ∧ ∃ iv, single t q (s.ended t.after) = .ok iv ∧
      (iv.value = s.valueOf q ↔ s.StaysVisible q t) := by
  have hlast := h.lastTime_after hstop
  have hreach : (s.ended t.after).InReach t := by
    refine ⟨⟨_, rfl, ?_⟩, fun _ stop hstop' => ?_⟩
    · rw [hlast]
      exact Int.min_le_right _ _
    · rw [stop_ended, hlast] at hstop'
      exact Int.le_of_eq (Option.some.inj hstop')
  refine ⟨by rw [stop_ended, hlast], _, single_ok_iff.2 ⟨hq, hreach, rfl⟩, ?_⟩
  rw [intervalAt_value, timelineOf_ended, valueOf, Timeline.value, StaysVisible]
  cases ho : (s.timelineOf q).ongoing with
  | none =>
    -- where nothing was ongoing all ends before the end of recording
    rw [Timeline.close_of_ended ho]
    have hnull : (s.timelineOf q).valueAt t = .null := by
      refine (hs.seamless q).valueAt_of_none (fun iv hiv _ hle => ?_) (by simp [ho])
      obtain ⟨stop, hsome, hlt⟩ := (h.within q).closed_lt iv hiv
      rw [hstop] at hsome
      obtain rfl := Option.some.inj hsome
      exact absurd hle (Int.not_le.2 hlt)
    simp [hnull]
  | some o =>
    rw [h.valueAt_close hs hstop ho]
    by_cases hvisible : t < Time.latest ∨ o.start = t
    · rw [if_pos hvisible]
      refine iff_of_true rfl (hvisible.imp_right fun hstart o' ho' => ?_)
      exact Or.inl (Option.some.inj ho' ▸ hstart)
    · rw [if_neg hvisible]
      obtain ⟨hlatest, hstart⟩ := not_or.1 hvisible
      simp [hlatest, hstart, eq_comm (a := Value.null)]

end

end Store

end StateHistory
