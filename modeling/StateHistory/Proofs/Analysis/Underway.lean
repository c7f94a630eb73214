import StateHistory.Proofs.Analysis.Quiet
import StateHistory.Proofs.Deferred
import StateHistory.Proofs.StateSystem.Keeps
import StateHistory.Proofs.StateSystem.Lifetime

/-!
# State systems that a run is building

What a run with a stock provider does to its state system, event by event, moves it on at times of
64 bits: the times of the events, and those that changes were deferred to. So all the times that it
records have 64 bits (`Underway`).
-/

namespace StateHistory

open StateSystem

theorem Change.call_at (c : Change) : c.call.At c.time := by
  unfold Change.call
  cases c.kind <;> exact rfl

theorem Event.inRange_fieldLong {e : Event} {field : String} {n : Int}
    (h : e.fieldLong field = some n) :
    Time.InRange n := by
  have hfits := Event.fitsLong_fieldLong h
  unfold Value.fitsLong at hfits
  exact of_decide_eq_true hfits

namespace Analysis

/-- The new state system `id` has moved on at times of 64 bits to those of the events in `past`, and
waits for no others. -/
structure Underway (id : String) (past : List Event) (s : StateSystem) : Prop where
  progress : (StateSystem.new id).Progress s
  dated : s.store.Dated
  waiting : ∀ c ∈ s.deferred.changes, c.time.InRange
  reached : ∀ e ∈ past, ∃ stop, s.store.stop = some stop ∧ e.timestamp ≤ stop

section
variable {id : String} {past events : List Event} {s s' : StateSystem} {handle : Handler}
  {e : Event} {t : Time}

theorem underway_new (id : String) : Underway id [] (.new id) :=
  ⟨.refl _, Store.dated_new, by simp [StateSystem.new], by simp⟩

theorem Underway.live (h : Underway id past s) : s.disposed = false := h.progress.disposed_eq

theorem Underway.building (h : Underway id past s) : s.status = .building := h.progress.status_eq

theorem Underway.lawful (h : Underway id past s) : s.store.Lawful :=
  (h.progress.extends_of_live rfl Store.lawful_new).1

theorem Underway.growing (h : Underway id past s) : s.store.closed = false :=
  (h.progress.extends_of_live rfl Store.lawful_new).2.2

theorem keeps_call {c : Store.Call} (hc : c.At t) (ht : t.InRange) :
    (edit c.edit).Keeps (Underway id past) := by
  intro s h
  have hp := progress_call hc.ne_close s
  refine ⟨h.progress.trans hp, ?_, ?_, fun e he => ?_⟩
  · have hdated := h.dated.after h.lawful h.growing hc ht
    rw [after_edit_of_live c h.live]
    exact hdated
  · rw [deferred_edit]
    exact h.waiting
  · obtain ⟨-, hextends, -⟩ := hp.extends_of_live h.live h.lawful
    obtain ⟨stop, hstop, hle⟩ := h.reached e he
    obtain ⟨stop', hstop', hle'⟩ := hextends.stop_le stop hstop
    exact ⟨stop', hstop', Int.le_trans hle hle'⟩

theorem keeps_schedule {c : Change} (ht : c.time.InRange) :
    (StateSystem.schedule c).Keeps (Underway id past) := by
  intro s h
  refine ⟨h.progress.deferred _, h.dated, fun d hd => ?_, h.reached⟩
  rcases Deferred.mem_insert.1 hd with rfl | hd
  · exact ht
  · exact h.waiting d hd

theorem keeps_flush (t : Time) : (flush t).Keeps (Underway id past) := by
  intro s h
  refine flushLoop_induct_of (P := fun c => c.time.InRange) ?_ ?_ t _ _ s h
  · intro s c deferred h hnext
    have hchanges := Deferred.changes_of_next hnext
    refine ⟨h.waiting c (by simp [hchanges]), h.progress.deferred _, h.dated,
      fun d hd => h.waiting d ?_, h.reached⟩
    rw [hchanges]
    exact List.mem_cons_of_mem _ hd
  · exact fun c s ht h => keeps_call c.call_at ht s h

/-- Moving recording to the time of an event reaches it. -/
theorem Underway.advanceTo (h : Underway id past s) (ht : e.timestamp.InRange)
    (hadvance : StateSystem.advanceTo e.timestamp s = .ok () s') :
    Underway id (past ++ [e]) s' := by
  rw [advanceTo_eq] at hadvance
  cases hflush : flush e.timestamp s with
  | error f s₁ =>
    rw [hflush] at hadvance
    cases hadvance
  | ok n s₁ =>
    rw [hflush] at hadvance
    have hedit : edit (Store.advance e.timestamp) s₁ = .ok () s' := hadvance
    have h₁ := (keeps_flush e.timestamp).of_ok h hflush
    have h' : Underway id past s' :=
      (keeps_call (c := .step (.advance e.timestamp)) rfl ht).of_ok h₁ hedit
    refine ⟨h'.progress, h'.dated, h'.waiting, fun e' he' => ?_⟩
    rcases List.mem_append.1 he' with he' | he'
    · exact h'.reached e' he'
    · obtain rfl := List.mem_singleton.1 he'
      obtain ⟨last, hlast, hle, -⟩ := Store.stop_reach h₁.dated.started e'.timestamp
      cases hop : Store.advance e'.timestamp s₁.store with
      | error f store =>
        rw [edit_of_error h₁.live hop] at hedit
        cases hedit
      | ok u store =>
        rw [edit_of_ok h₁.live hop] at hedit
        obtain ⟨-, rfl⟩ := Store.advance_ok_iff.1 hop
        cases hedit
        exact ⟨last, hlast, hle⟩

/-- **An event at a time of 64 bits keeps a state system underway** through what a stock provider
does with it. -/
theorem Underway.record (h : Underway id past s) (k : Stock) {context : Context}
    (hstart : k.provider.start context = .ok handle) (ht : e.timestamp.InRange)
    (hrecord : Analysis.record handle e s = .ok () s') : Underway id (past ++ [e]) s' := by
  have hkeeps : (handle e).Keeps (Underway id (past ++ [e])) :=
    k.keeps hstart e (fun _ hc => keeps_call hc ht) fun c hend =>
      keeps_schedule (Event.inRange_fieldLong hend)
  unfold Analysis.record at hrecord
  cases hadvance : StateSystem.advanceTo e.timestamp s with
  | error f s₁ =>
    rw [hadvance] at hrecord
    cases hrecord
  | ok u s₁ =>
    have h₁ := h.advanceTo ht hadvance
    simp only [hadvance] at hrecord
    cases hhandle : handle e s₁ with
    | ok u s₂ =>
      rw [hhandle] at hrecord
      cases hrecord
      exact hkeeps.of_ok h₁ hhandle
    | error f s₂ =>
      -- a failure that is not fatal leaves the system as it is then
      rw [hhandle] at hrecord
      cases hf : f.isFatal with
      | true => simp [hf] at hrecord
      | false =>
        simp only [hf, Bool.false_eq_true, ↓reduceIte] at hrecord
        cases hrecord
        exact hkeeps.of_error h₁ hhandle

theorem Underway.recorded (h : Underway id past s) (k : Stock) {context : Context}
    (hstart : k.provider.start context = .ok handle) (hrange : ∀ e ∈ events, e.timestamp.InRange)
    (hrecorded : events.forM (Analysis.record handle) s = .ok () s') :
    Underway id (past ++ events) s' := by
  induction events generalizing past s with
  | nil =>
    cases hrecorded
    rwa [List.append_nil]
  | cons e rest ih =>
    obtain ⟨s₁, hrecord, hrest⟩ := forM_record_cons hrecorded
    have h₁ := h.record k hstart (hrange e (by simp)) hrecord
    have h' := ih h₁ (fun e he => hrange e (List.mem_cons_of_mem _ he)) hrest
    rwa [List.append_assoc] at h'

end

end Analysis

end StateHistory
