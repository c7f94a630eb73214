import StateHistory.Proofs.Store.Intervals
import StateHistory.Proofs.Timeline.Held

/-!
# Several attributes written at one time

A call that writes several attributes asks for all of them first, and then writes them one after the
other at the same time (`forM_write_ok_iff`). The attributes are different ones, so each of them
gets the one value meant for it and no other attribute changes (`timelineOf_wroteAll`).
-/

namespace StateHistory.Store

open Edit

/-- The store after some attributes were written at `t`, one after the other. -/
def wroteAll (s : Store) (t : Time) (writes : List (Quark × Value)) : Store :=
  writes.foldl (fun s w => s.wrote t w.2 w.1) s

section
variable {s s' : Store} {q : Quark} {t : Time} {v : Value} {writes : List (Quark × Value)}
  {α : Type}

@[simp] theorem wroteAll_nil : s.wroteAll t [] = s := rfl

@[simp] theorem wroteAll_cons :
    s.wroteAll t ((q, v) :: writes) = (s.wrote t v q).wroteAll t writes := rfl

@[simp] theorem tree_wroteAll : (s.wroteAll t writes).tree = s.tree := by
  induction writes generalizing s with
  | nil => rfl
  | cons w writes ih => rw [wroteAll_cons, ih, tree_wrote]

@[simp] theorem closed_wroteAll : (s.wroteAll t writes).closed = s.closed := by
  induction writes generalizing s with
  | nil => rfl
  | cons w writes ih => rw [wroteAll_cons, ih, closed_wrote]

@[simp] theorem size_timelines_wroteAll :
    (s.wroteAll t writes).timelines.size = s.timelines.size := by
  induction writes generalizing s with
  | nil => rfl
  | cons w writes ih => rw [wroteAll_cons, ih, size_timelines_wrote]

theorem getD_start_wroteAll : (s.wroteAll t writes).start.getD t = s.start.getD t := by
  induction writes generalizing s with
  | nil => rfl
  | cons w writes ih => rw [wroteAll_cons, ih, start_wrote, Option.getD_some]

/-- What a write at `t` keeps is kept by several. -/
theorem wroteAll_induct {P : Store → Prop}
    (hstep : ∀ {s : Store} {q : Quark} (v : Value), P s → s.Writable q t →
    P (s.wrote t v q)) (hs : P s) (hw : ∀ w ∈ writes,
    s.Writable w.1 t) : P (s.wroteAll t writes) := by
  induction writes generalizing s with
  | nil => exact hs
  | cons w writes ih =>
    have hhead := hw w (List.mem_cons_self ..)
    exact ih (hstep w.2 hs hhead) fun r hr => (hw r (List.mem_cons_of_mem _ hr)).wrote hhead.covered

/-- What is not written stays as it is. -/
theorem timelineOf_wroteAll_of_notMem (hw : ∀ w ∈ writes, s.Writable w.1 t)
    (hq : q ∉ writes.map Prod.fst) :
    (s.wroteAll t writes).timelineOf q = s.timelineOf q := by
  induction writes generalizing s with
  | nil => rfl
  | cons w writes ih =>
    have hhead := hw w (List.mem_cons_self ..)
    rw [List.map_cons, List.mem_cons, not_or] at hq
    rw [wroteAll_cons, ih (fun r hr => (hw r (List.mem_cons_of_mem _ hr)).wrote hhead.covered) hq.2,
      timelineOf_wrote hhead.covered, if_neg hq.1]

/-- Each of different attributes is written as it was before. -/
theorem timelineOf_wroteAll (hw : ∀ w ∈ writes, s.Writable w.1 t)
    (hnodup : (writes.map Prod.fst).Nodup) (hmem : (q, v) ∈ writes) :
    (s.wroteAll t writes).timelineOf q = (s.timelineOf q).opened q t v := by
  induction writes generalizing s with
  | nil => cases hmem
  | cons w writes ih =>
    have hhead := hw w (List.mem_cons_self ..)
    have hrest : ∀ r ∈ writes, (s.wrote t w.2 w.1).Writable r.1 t :=
      fun r hr => (hw r (List.mem_cons_of_mem _ hr)).wrote hhead.covered
    rw [List.map_cons, List.nodup_cons] at hnodup
    rw [wroteAll_cons]
    rcases List.mem_cons.1 hmem with rfl | hmem
    · rw [timelineOf_wroteAll_of_notMem hrest hnodup.1, timelineOf_wrote hhead.covered, if_pos rfl]
    · have hne : q ≠ w.1 := by
        rintro rfl
        exact hnodup.1 (List.mem_map.2 ⟨_, hmem, rfl⟩)
      rw [ih hrest hnodup.2 hmem, timelineOf_wrote hhead.covered, if_neg hne]

/-- Each written attribute has its new value from the time of writing on. -/
theorem Sound.valueAt_wroteAll (hs : s.Sound) (hw : ∀ w ∈ writes, s.Writable w.1 t)
    (hnodup : (writes.map Prod.fst).Nodup) (hmem : (q, v) ∈ writes) (t' : Time) :
    ((s.wroteAll t writes).timelineOf q).valueAt t' =
      if t ≤ t' then v else (s.timelineOf q).valueAt t' := by
  have hq := hw _ hmem
  rw [timelineOf_wroteAll hw hnodup hmem,
    (hs.seamless q).valueAt_opened (hs.growing hq.building q) v hq.onTime]

/-! ## Checks and writes -/

theorem forM_write_ok_iff {f : α → Value} {g : α → Quark} {xs : List α}
    (hw : ∀ x ∈ xs, s.Writable (g x) t) :
    (xs.forM fun x => write t (f x) (g x)) s = .ok () s' ↔ s' = s.wroteAll t (xs.map fun x =>
      (g x, f x)) := by
  induction xs generalizing s with
  | nil => exact pure_ok.trans (by simp [eq_comm])
  | cons x xs ih =>
    have hhead := hw x (List.mem_cons_self ..)
    have hrest := ih (s := s.wrote t (f x) (g x)) fun y hy =>
      (hw y (List.mem_cons_of_mem _ hy)).wrote hhead.covered
    refine bind_ok.trans ?_
    rw [List.map_cons, wroteAll_cons, ← hrest]
    constructor
    · rintro ⟨_, s₁, hwrite, h⟩
      obtain ⟨-, rfl⟩ := write_ok_iff.1 hwrite
      exact h
    · exact fun h => ⟨(), _, write_ok_iff.2 ⟨hhead, rfl⟩, h⟩

end

end StateHistory.Store
