import StateHistory.Proofs.Store.Growth
import StateHistory.Proofs.Store.Span

/-!
# The extent of recording

The bounds of a store are never set directly: writes and advances move recording to their times, one
by one, and composed calls move it through the steps that they take. So while a store grows, its
bounds are the first and the latest of these times (`Extent`), and all that is closed ends before
the latest. Closing sets the end anew, from three sources at once: where recording stood, the time
of closing, and the ends of what it closes (`stop_ended_eq_max`).
-/

namespace StateHistory.Store

/-- The times that some calls on a new store move recording to, in order. -/
def moves (calls : List Call) : List Time := (new.trace calls).filterMap Step.time?

/-- The ends of all closed intervals. -/
def stops (s : Store) : List Time :=
  s.timelines.toList.flatMap fun l => l.closed.toList.map (·.stop)

/-- Recording goes from the first of some times to the latest of them. -/
structure Extent (s : Store) (times : List Time) : Prop where
  start_eq : s.start = times.head?
  stop_eq : s.stop = times.max?

section
variable {s s' : Store} {a : Step} {steps : List Step} {times : List Time} {t : Time}

/-! ## While the store grows -/

theorem max?_concat (times : List Time) (t : Time) :
    (times ++ [t]).max? = some (times.max?.elim t (max · t)) := by
  cases times with
  | nil => rfl
  | cons first rest =>
    rw [List.cons_append, List.max?_cons', List.max?_cons', List.foldl_append]
    rfl

theorem extent_new : new.Extent [] := ⟨rfl, rfl⟩

theorem Extent.reach (h : s.Extent times) (t : Time) : (s.reach t).Extent (times ++ [t]) := by
  obtain ⟨hstart, hstop⟩ := h
  constructor
  · rw [start_reach, hstart]
    cases times <;> rfl
  · rw [max?_concat]
    unfold Store.reach
    cases times with
    | nil => rw [hstart]; rfl
    | cons first rest => simp only [hstart, hstop, List.head?_cons]

/-- A step moves recording to its time, if it has one. -/
theorem Extent.takes (h : s.Extent times) (ha : a.Takes s s') (hc : s'.closed = false) :
    s'.Extent (times ++ a.time?.toList) := by
  cases ha with
  | add _ =>
    rw [Step.time?, Option.toList_none, List.append_nil]
    exact ⟨h.start_eq, h.stop_eq⟩
  | advance _ => exact h.reach _
  | @write t v q _ =>
    have hr := h.reach t
    exact ⟨by rw [start_wrote, ← start_reach]; exact hr.start_eq, by
      rw [stop_wrote]; exact hr.stop_eq⟩
  | amend _ =>
    rw [Step.time?, Option.toList_none, List.append_nil]
    exact ⟨h.start_eq, h.stop_eq⟩
  | close _ => cases hc

theorem Extent.trail (ht : Trail s steps s') (h : s.Extent times) (hc : s'.closed = false) :
    s'.Extent (times ++ steps.filterMap Step.time?) := by
  induction ht generalizing times with
  | nil => simpa using h
  | @cons s s₁ s' a steps head rest ih =>
    have h₁ := h.takes (Step.takes_of_edit head) (rest.building hc)
    have h' := ih h₁ hc
    cases htime : a.time? with
    | none => simpa [htime] using h'
    | some t => simpa [htime] using h'

theorem extent_run (calls : List Call) (hc : (new.run calls).closed = false) :
    (new.run calls).Extent (moves calls) := by
  simpa [moves] using Extent.trail (trail_run covered_new calls) extent_new hc

/-! ## Closing -/

theorem mem_stops : t ∈ s.stops ↔ ∃ q, ∃ iv ∈ (s.timelineOf q).closed, iv.stop = t := by
  unfold stops
  simp only [List.mem_flatMap, List.mem_map, Array.mem_toList_iff]
  constructor
  · rintro ⟨l, hl, iv, hiv, rfl⟩
    obtain ⟨i, hi, rfl⟩ := Array.mem_iff_getElem.1 hl
    exact ⟨⟨i⟩, iv, by rwa [timelineOf_eq (q := ⟨i⟩) hi], rfl⟩
  · rintro ⟨q, iv, hiv, rfl⟩
    by_cases hq : q.index < s.timelines.size
    · rw [timelineOf_eq hq] at hiv
      exact ⟨_, Array.getElem_mem hq, iv, hiv, rfl⟩
    · rw [timelineOf_outside (Nat.le_of_not_lt hq)] at hiv
      simp at hiv

/-- The end that closing sets is the one it starts from, or the end of some state that it ends. -/
theorem closeAll_attained (ls : List Timeline) : ∀ (i : Nat) (stop : Time),
    (closeAll t ls i stop).2 = stop ∨
      ∃ (j : Nat) (l : Timeline) (o : Ongoing), ls[j]? = some l ∧ l.ongoing = some o ∧
        (closeAll t ls i stop).2 = max t.before o.start := by
  induction ls with
  | nil => exact fun _ _ => Or.inl rfl
  | cons l ls ih =>
    intro i stop
    simp only [closeAll]
    rcases ih (i + 1) ((l.close ⟨i⟩ t).1.elim stop (max stop)) with hsame | ⟨j, l', o, hl, ho, heq⟩
    · rw [hsame]
      cases ho : l.ongoing with
      | none => simp [Timeline.close, ho]
      | some o =>
        have hclose : (l.close ⟨i⟩ t).1 = some (max t.before o.start) := by
          simp [Timeline.close, ho]
        rw [hclose, Option.elim_some]
        rcases Int.le_total stop (max t.before o.start) with hle | hle
        · exact Or.inr ⟨0, l, o, rfl, ho, Int.max_eq_right hle⟩
        · exact Or.inl (Int.max_eq_left hle)
    · exact Or.inr ⟨j + 1, l', o, hl, ho, heq⟩

/-- **Closing moves the end** to the latest of where recording stood, the time just before closing,
and the ends of all intervals. -/
theorem Framed.stop_ended_eq_max (h : s.Framed) {stop : Time} (hstop : s.stop = some stop)
    (t : Time) :
    (s.ended t).stop = (stop :: t.before :: (s.ended t).stops).max? := by
  rw [stop_ended, eq_comm, List.max?_eq_some_iff]
  have hbase : s.stop.elim t (max t.before) = max t.before stop := by rw [hstop]; rfl
  constructor
  · rcases closeAll_attained (t := t) s.timelines.toList 0 (s.stop.elim t (max t.before)) with
      hsame | ⟨j, l, o, hl, ho, heq⟩
    · rw [hbase] at hsame
      rcases Int.le_total t.before stop with hle | hle
      · have hlast : s.lastTime t = stop := by rw [lastTime, hbase, hsame, Int.max_eq_right hle]
        simp [hlast]
      · have hlast : s.lastTime t = t.before := by rw [lastTime, hbase, hsame, Int.max_eq_left hle]
        simp [hlast]
    · -- the state that is ended last becomes an interval of the closed store
      have hj : (s.timelineOf ⟨j⟩).ongoing = some o := by
        obtain ⟨hj, rfl⟩ := List.getElem?_eq_some_iff.1 hl
        rw [timelineOf_eq (q := ⟨j⟩) (by simpa using hj)]
        simpa using ho
      have hmem : s.lastTime t ∈ (s.ended t).stops := by
        refine mem_stops.2 ⟨⟨j⟩, ⟨⟨j⟩, o.start, max t.before o.start, o.value⟩, ?_, heq.symm⟩
        rw [timelineOf_ended]
        exact Timeline.mem_close.2 (Or.inr ⟨o, hj, rfl⟩)
      simp [hmem]
  · intro b hb
    rcases List.mem_cons.1 hb with rfl | hb
    · exact stop_le_lastTime hstop t
    rcases List.mem_cons.1 hb with rfl | hb
    · have hle : s.stop.elim t (max t.before) ≤ s.lastTime t := le_closeAll ..
      rw [hbase] at hle
      exact Int.le_trans (Int.le_max_left _ _) hle
    · obtain ⟨q, iv, hiv, rfl⟩ := mem_stops.1 hb
      obtain ⟨last, hlast, hle⟩ := (h.ended t).closed_le q iv hiv
      obtain rfl : s.lastTime t = last := by simpa using hlast
      exact hle

end

/-- **The bounds of recording.** After any calls both bounds are set or none is, and the start is
not behind the end. Whatever is called then, the start stays and the end does not move back. While
the store grows, the start is the first and the end the latest of the times that its calls moved
recording to, and all that is closed ends before the end. Closing moves the end to the latest of
where recording stood, the time just before closing and the ends of all intervals. -/
theorem bounds_run (calls more : List Call) :
    ((new.run calls).start.isSome = (new.run calls).stop.isSome ∧
      ∀ start stop, (new.run calls).start = some start → (new.run calls).stop = some stop →
      start ≤ stop) ∧
    ((∀ start, (new.run calls).start = some start → ((new.run calls).run more).start = some start) ∧
      ∀ stop, (new.run calls).stop = some stop → ∃ stop',
      ((new.run calls).run more).stop = some stop' ∧ stop ≤ stop') ∧
    ((new.run calls).closed = false →
      (new.run calls).start = (moves calls).head? ∧ (new.run calls).stop = (moves calls).max? ∧
      ∀ q, ∀ iv ∈ ((new.run calls).timelineOf q).closed, ∃ stop, (new.run calls).stop = some stop ∧
      iv.stop < stop) ∧
    ∀ t s' stop, close t (new.run calls) = .ok () s' → (new.run calls).stop = some stop →
      s'.stop = (stop :: t.before :: s'.stops).max? := by
  have h := lawful_run calls
  obtain ⟨-, he⟩ := (trail_run h.covered more).extends h
  refine ⟨⟨h.started, h.start_le_stop⟩, ⟨he.start_eq, he.stop_le⟩, ?_, ?_⟩
  · intro hc
    have hx := extent_run calls hc
    exact ⟨hx.start_eq, hx.stop_eq,
      fun q iv hiv => ((bounded_run calls hc).within q).closed_lt iv hiv⟩
  · intro t s' stop hclose hstop
    obtain ⟨-, rfl⟩ := close_ok_iff.1 hclose
    exact h.stop_ended_eq_max hstop t

end StateHistory.Store
