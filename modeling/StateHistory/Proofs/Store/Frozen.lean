import StateHistory.Proofs.Store.Growth
import StateHistory.Proofs.Store.Span

/-!
# What closing freezes

Closing a store is meant to freeze it. It does as far as writing goes: whatever has a time of its
own is refused from then on, and with it all composed calls. Three calls do not ask whether the
store is closed: attributes can still be added (an offer adds its slot before the write is refused),
an amendment starts a state where closing has ended the last one, and closing again moves the end.
`frozen_iff` shows that there is nothing else, and that even these calls take nothing back.
-/

namespace StateHistory

namespace Timeline

/-- An amended timeline has an ongoing state with the new value. -/
theorem ongoing_amend (l : Timeline) (v : Value) (t : Time) :
    ∃ start, (l.amend v t).ongoing = some ⟨start, v⟩ := by
  unfold amend
  cases l.ongoing with
  | none => exact ⟨_, rfl⟩
  | some o => exact ⟨o.start, rfl⟩

theorem amend_eq_self_iff {l : Timeline} {v : Value} {t : Time} :
    l.amend v t = l ↔ ∃ o, l.ongoing = some o ∧ o.value = v := by
  constructor
  · intro h
    obtain ⟨start, hstart⟩ := l.ongoing_amend v t
    rw [h] at hstart
    exact ⟨_, hstart, rfl⟩
  · rintro ⟨⟨start, v⟩, ho, rfl⟩
    obtain ⟨closed, ongoing⟩ := l
    subst ho
    rfl

end Timeline

namespace Store

section
variable {s s' : Store} {a : Step} {steps : List Step} {base q : Quark} {path : List String}
  {t : Time} {v : Value}

/-! ## Changes that change nothing -/

theorem Lawful.grown_eq_iff (h : s.Lawful) (hb : s.tree.contains base = true) :
    s.grown base path = s ↔ s.tree.descend base path ≠ none := by
  constructor
  · intro heq hnone
    have hself := h.grown.descend_grow_self hb path
    rw [← tree_grown, heq, hnone] at hself
    cases hself
  · intro hne
    obtain ⟨c, hc⟩ := Option.ne_none_iff_exists'.1 hne
    exact h.covered.grown_of_eq (Tree.grow_of_descend path hc)

theorem setTimeline_self (s : Store) (q : Quark) : s.setTimeline q (s.timelineOf q) = s := by
  unfold setTimeline
  by_cases hq : q.index < s.timelines.size
  · rw [timelineOf_eq hq, Array.setIfInBounds_def, dif_pos hq, Array.set_getElem_self]
  · rw [Array.setIfInBounds_eq_of_size_le (Nat.le_of_not_lt hq)]

theorem Lawful.amended_eq_iff (h : s.Lawful) (hq : s.tree.contains q = true) :
    s.amended v q = s ↔ ∃ o, (s.timelineOf q).ongoing = some o ∧ o.value = v := by
  have hamended := timelineOf_amended (p := q) (v := v) (h.covered.contains_iff.1 hq)
  rw [if_pos rfl] at hamended
  constructor
  · intro heq
    rw [heq] at hamended
    exact Timeline.amend_eq_self_iff.1 hamended.symm
  · intro ho
    rw [amended, Timeline.amend_eq_self_iff.2 ho, setTimeline_self]

/-- Closing timelines that have ended leaves them and the end as they are. -/
theorem closeAll_of_ended :
    ∀ (ls : List Timeline) (i : Nat) (stop : Time), (∀ l ∈ ls, l.ongoing = none) →
    closeAll t ls i stop = (ls, stop)
  | [], _, _, _ => rfl
  | l :: ls, i, stop, hls => by
    have hl := Timeline.close_of_ended (hls l (by simp)) ⟨i⟩ t
    have hrest := closeAll_of_ended ls (i + 1) stop fun l hl => hls l (by simp [hl])
    simp only [closeAll, hl, Option.elim_none, hrest]

theorem Lawful.ended_eq_iff (h : s.Lawful) (hc : s.closed = true) :
    s.ended t = s ↔ (∀ q, (s.timelineOf q).ongoing = none) ∧ ∃ stop,
      s.stop = some stop ∧ t.before ≤ stop := by
  constructor
  · intro heq
    constructor
    · intro q
      rw [← heq, timelineOf_ended]
      exact Timeline.close_ongoing t
    · have hstop : s.stop = some (s.lastTime t) := by rw [← stop_ended, heq]
      have hle : s.stop.elim t (max t.before) ≤ s.lastTime t := le_closeAll ..
      rw [hstop, Option.elim_some] at hle
      exact ⟨s.lastTime t, hstop, Int.le_trans (Int.le_max_left _ _) hle⟩
  · rintro ⟨hended, stop, hstop, hle⟩
    obtain ⟨start, hstart⟩ := Option.isSome_iff_exists.1 (h.started.trans (by rw [hstop]; rfl))
    have hls : ∀ l ∈ s.timelines.toList, l.ongoing = none := by
      intro l hl
      obtain ⟨i, hi, rfl⟩ := Array.mem_iff_getElem.1 (Array.mem_toList_iff.1 hl)
      rw [← timelineOf_eq (q := ⟨i⟩) hi]
      exact hended ⟨i⟩
    have hlast : s.stop.elim t (max t.before) = stop := by
      rw [hstop, Option.elim_some, Int.max_eq_right hle]
    have hall := closeAll_of_ended (t := t) _ 0 stop hls
    have hmin : min start stop = start := Int.min_eq_left (h.start_le_stop start stop hstart hstop)
    obtain ⟨tree, timelines, start', stop', closed⟩ := s
    simp only at hstart hstop hc
    subst hstart hstop hc
    simp only [Store.ended, lastTime, hlast, hall, Option.getD_some, hmin, Array.toArray_toList]

/-! ## Closed stores -/

/-- In a closed store no step with a time is taken. -/
theorem Trail.time?_eq_none (ht : Trail s steps s') (hc : s.closed = true) :
    ∀ a ∈ steps, a.time? = none := by
  induction ht with
  | nil => simp
  | @cons s s₁ s' a steps head rest ih =>
    have ha := Step.takes_of_edit head
    intro b hb
    rcases List.mem_cons.1 hb with rfl | hb
    · cases ha with
      | add _ | amend _ | close _ => rfl
      | advance ho => rw [ho.building] at hc; cases hc
      | write hw => rw [hw.building] at hc; cases hc
    · exact ih (ha.closed hc) b hb

/-- Calls for steps with a time take one if they take any, and so do composed calls other than
offers. -/
theorem Call.timed_parts {c : Call} (hstep : ∀ a, c = .step a → a.time? ≠ none)
    (hoffer : ∀ t v q, c ≠ .offer t v q) (hne : c.parts s ≠ []) :
    ∃ a ∈ c.parts s, a.time? ≠ none := by
  cases c with
  | step a => exact ⟨a, by simp [Call.parts], hstep a rfl⟩
  | push t v q =>
    simp only [Call.parts] at hne ⊢
    split at hne
    · exact ⟨_, List.mem_cons_of_mem _ (List.mem_cons_self ..), by simp [Step.time?]⟩
    · exact absurd rfl hne
  | pop t q =>
    simp only [Call.parts] at hne ⊢
    split at hne
    · split at hne
      · exact ⟨_, List.mem_cons_self .., by simp [Step.time?]⟩
      · exact absurd rfl hne
    · exact absurd rfl hne
  | addLong t q delta | addInt t q delta | addDouble t q delta =>
    simp only [Call.parts] at hne ⊢
    split at hne
    · exact ⟨_, List.mem_singleton_self _, by simp [Step.time?]⟩
    · exact absurd rfl hne
  | clear t q =>
    simp only [Call.parts] at hne ⊢
    split at hne
    · exact ⟨.advance t, by simp, by simp [Step.time?]⟩
    · exact absurd rfl hne
  | offer t v q => exact absurd rfl (hoffer t v q)
  | poll t q =>
    obtain ⟨a, ha⟩ := List.exists_mem_of_ne_nil _ hne
    obtain ⟨⟨slot, v⟩, -, rfl⟩ := List.mem_map.1 ha
    exact ⟨_, ha, by simp [Step.time?]⟩

/-- A closed store refuses calls that need a step with a time. -/
theorem Call.after_of_closed (hs : s.Covered) (hc : s.closed = true) {c : Call}
    (hstep : ∀ a, c = .step a → a.time? ≠ none) (hoffer : ∀ t v q, c ≠ .offer t v q) :
    c.after s = s := by
  have ht := Call.trail hs c
  have hnone := ht.time?_eq_none hc
  have hsteps : c.steps s = [] := by
    unfold Call.steps at hnone ⊢
    cases he : c.edit s with
    | error e s' => exact Call.leftover_eq_nil hoffer
    | ok u s' =>
      simp only [he] at hnone
      refine Decidable.byContradiction fun hne => ?_
      obtain ⟨a, ha, htime⟩ := Call.timed_parts hstep hoffer hne
      exact htime (hnone a ha)
  rw [hsteps] at ht
  exact ht.eq_of_nil

/-- An offer to a closed store fails, and leaves its slot. -/
theorem Call.after_offer (hs : s.Covered) (hc : s.closed = true) :
    (Call.offer t v q).after s =
      if s.tree.contains q = true then s.grown q (nextSlot s q) else s := by
  have ht := Call.trail hs (.offer t v q)
  have hsteps : (Call.offer t v q).steps s = (Call.offer t v q).leftover s := by
    have hnone := ht.time?_eq_none hc
    unfold Call.steps at hnone ⊢
    cases he : (Call.offer t v q).edit s with
    | error e s' => rfl
    | ok u s' => simp [he, Call.parts, Step.time?] at hnone
  rw [hsteps] at ht
  unfold Call.leftover at ht
  by_cases hq : s.tree.contains q = true
  · simp only [hq, ↓reduceIte] at ht ⊢
    cases ht with
    | cons head rest => rw [rest.eq_of_nil, (Step.add_edit_ok_iff.1 head).2]
  · simp only [hq, Bool.false_eq_true, ↓reduceIte] at ht ⊢
    exact ht.eq_of_nil

/-! ## What a closed store lets through -/

/-- The calls that a closed store does not refuse although they change it. -/
def Call.Thaws (s : Store) : Call → Prop
  | .step (.add base path) => s.tree.contains base = true ∧ s.tree.descend base path = none
  | .step (.amend v q) =>
    s.tree.contains q = true ∧ ∀ o, (s.timelineOf q).ongoing = some o → o.value ≠ v
  | .step (.close t) => (∀ stop, s.stop = some stop → stop ≤ t) ∧
    ((∃ q, (s.timelineOf q).ongoing ≠ none) ∨ ∀ stop, s.stop = some stop → stop < t.before)
  | .offer _ _ q => s.tree.contains q = true ∧ s.tree.descend q (nextSlot s q) = none
  | _ => False

/-- A closed store is changed by just these calls. -/
theorem Lawful.after_eq_iff (h : s.Lawful) (hc : s.closed = true) (c : Call) :
    c.after s = s ↔ ¬ c.Thaws s := by
  cases c with
  | step a =>
    cases a with
    | add base path =>
      rcases Call.after_step (.add base path) s with hok | ⟨hnot, hsame⟩
      · obtain ⟨hb, hafter⟩ := Step.add_edit_ok_iff.1 hok
        rw [hafter, h.grown_eq_iff hb]
        simp [Call.Thaws, hb]
      · have hb : ¬ s.tree.contains base = true := fun hb =>
          hnot _ (Step.add_edit_ok_iff.2 ⟨hb, rfl⟩)
        simp [Call.Thaws, hb, hsame]
    | amend v q =>
      rcases Call.after_step (.amend v q) s with hok | ⟨hnot, hsame⟩
      · obtain ⟨hq, hafter⟩ := amend_ok_iff.1 hok
        rw [hafter, h.amended_eq_iff hq]
        simp [Call.Thaws, hq]
      · have hq : ¬ s.tree.contains q = true := fun hq => hnot _ (amend_ok_iff.2 ⟨hq, rfl⟩)
        simp [Call.Thaws, hq, hsame]
    | close t =>
      rcases Call.after_step (.close t) s with hok | ⟨hnot, hsame⟩
      · obtain ⟨hle, hafter⟩ := close_ok_iff.1 hok
        rw [hafter, h.ended_eq_iff hc, Call.Thaws, not_and, forall_prop_of_true hle]
        simp
      · have hle : ¬ ∀ stop, s.stop = some stop → stop ≤ t := fun hle =>
          hnot _ (close_ok_iff.2 ⟨hle, rfl⟩)
        exact iff_of_true hsame fun hthaws => hle hthaws.1
    | advance t | write t v q =>
      exact iff_of_true (Call.after_of_closed h.covered hc (by simp [Step.time?]) (by simp))
        not_false
  | offer t v q =>
    rw [Call.after_offer h.covered hc]
    by_cases hq : s.tree.contains q = true
    · rw [if_pos hq, h.grown_eq_iff hq]
      simp [Call.Thaws, hq]
    · simp [Call.Thaws, hq]
  | push t v q | pop t q | addLong t q delta | addInt t q delta | addDouble t q delta
  | clear t q | poll t q =>
    exact iff_of_true (Call.after_of_closed h.covered hc (by simp) (by simp)) not_false

end

/-- **What closing freezes.** A closed store is left as it is by a call, attributes, intervals and
bounds included, exactly if the call adds no attribute, amends nothing into being or to another
value, fills no new slot of a queue, and does not close the store anew with something to end or a
later end. Whatever the call, the store stays closed, and no attribute and no closed interval is
lost, the start stays and the end does not move back. -/
theorem frozen_iff (calls : List Call) (hclosed : (new.run calls).closed = true) (c : Call) :
    (c.after (new.run calls) = new.run calls ↔ ¬ c.Thaws (new.run calls)) ∧
      (c.after (new.run calls)).closed = true ∧
      (new.run calls).Extends (c.after (new.run calls)) := by
  have h := lawful_run calls
  have ht := Call.trail h.covered c
  exact ⟨h.after_eq_iff hclosed c, ht.closed hclosed, (ht.extends h).2⟩

/-- An attribute that was written before the store was closed. -/
def closedAtTwenty : List Call :=
  [.step (.add ⟨0⟩ ["a"]), .step (.write 10 (.int 1) ⟨1⟩), .step (.close 20)]

/-- A push onto the closed store is refused before it adds its slot. -/
theorem frozen_iff_push :
    (Call.push 30 (.int 2) ⟨1⟩).after (new.run closedAtTwenty) = new.run closedAtTwenty := by
  have hclosed : (new.run closedAtTwenty).closed = true := by decide +kernel
  obtain ⟨hiff, -, -⟩ := frozen_iff closedAtTwenty hclosed (.push 30 (.int 2) ⟨1⟩)
  exact hiff.2 not_false

/-- **Bug.** The closed store is not frozen: an amendment makes a state ongoing again, behind the
end of the store, an attribute is added, a refused offer leaves its slot, and closing again moves
the end. -/
theorem closed_store_thaws :
    (new.run closedAtTwenty).closed = true ∧
    ((new.run closedAtTwenty).timelineOf ⟨1⟩).ongoing = none ∧
    (((Call.step (.amend (.int 9) ⟨1⟩)).after (new.run closedAtTwenty)).timelineOf ⟨1⟩).ongoing =
      some ⟨20, .int 9⟩ ∧
    (new.run closedAtTwenty).tree.size = 2 ∧
    ((Call.step (.add ⟨0⟩ ["b"])).after (new.run closedAtTwenty)).tree.size = 3 ∧
    ((Call.offer 30 (.int 2) ⟨1⟩).after (new.run closedAtTwenty)).tree.size = 3 ∧
    (new.run closedAtTwenty).stop = some 19 ∧
    ((Call.step (.close 50)).after (new.run closedAtTwenty)).stop = some 49 ∧
    ¬ ∀ c : Call, c.after (new.run closedAtTwenty) = new.run closedAtTwenty := by
  have hstop : (new.run closedAtTwenty).stop = some 19 := by decide +kernel
  have hmoved : ((Call.step (.close 50)).after (new.run closedAtTwenty)).stop = some 49 := by
    decide +kernel
  refine ⟨by decide +kernel, by decide +kernel, by decide +kernel, by decide +kernel, by
    decide +kernel,
    by decide +kernel, hstop, hmoved, ?_⟩
  intro hfrozen
  rw [hfrozen, hstop] at hmoved
  cases hmoved

end Store

end StateHistory
