import StateHistory.Proofs.Analysis.Closing
import StateHistory.Proofs.StateSystem.Keeps

/-!
# Who ends construction

The state of construction changes when the writer closes the state system, and when construction is
ended from outside. All else that is done to a state system keeps it: single edits, deferred
changes, and what a provider does with an event (`Stock.keepsStatus`), so also what recording an
event comes to (`keepsStatus_record`).
-/

namespace StateHistory

namespace StateSystem

/-- The operation keeps the state of construction, whether it succeeds or fails. -/
def Write.KeepsStatus {α : Type} (op : Write α) : Prop := ∀ s, (op.after s).status = s.status

section
variable {α β : Type} {op : Write α} {f : α → Write β} {a : α} {e : Failure} {s s' : StateSystem}

theorem keepsStatus_iff : op.KeepsStatus ↔ ∀ status, op.Keeps (·.status = status) :=
  ⟨fun h _ s hs => (h s).trans hs, fun h s => h s.status s rfl⟩

theorem Write.KeepsStatus.of_ok (h : op.KeepsStatus) (hop : op s = .ok a s') :
    s'.status = s.status :=
  (keepsStatus_iff.1 h s.status).of_ok rfl hop

theorem Write.KeepsStatus.of_error (h : op.KeepsStatus) (hop : op s = .error e s') :
    s'.status = s.status :=
  (keepsStatus_iff.1 h s.status).of_error rfl hop

theorem keepsStatus_edit (op : Store.Edit α) : (edit op).KeepsStatus := by
  intro s
  rcases edit_after op s with h | ⟨store, h⟩
  · rw [h]
  · rw [h]
    rfl

theorem keepsStatus_schedule (c : Change) : (schedule c).KeepsStatus := fun _ => rfl

theorem keepsStatus_ask (f : StateSystem → Except Failure α) : (Write.ask f).KeepsStatus :=
  keepsStatus_iff.2 fun _ => keeps_ask f

theorem Write.KeepsStatus.bind (h : op.KeepsStatus) (hf : ∀ a, (f a).KeepsStatus) :
    (op >>= f).KeepsStatus :=
  keepsStatus_iff.2 fun status => (keepsStatus_iff.1 h status).bind fun a =>
    keepsStatus_iff.1 (hf a) status

theorem keepsStatus_flush (t : Time) : (flush t).KeepsStatus := fun s =>
  flushLoop_induct (Q := (·.status = s.status))
    (fun _ _ h => h) (fun c s₁ h => (keepsStatus_edit c.call.edit s₁).trans h) t _ _ s rfl

theorem keepsStatus_advanceTo (t : Time) : (advanceTo t).KeepsStatus :=
  (keepsStatus_flush t).bind fun _ => keepsStatus_edit _

theorem status_ofImage {id : String} {i : Image} (h : ofImage id i = .ok s) :
    s.status = .built := by
  unfold ofImage at h
  cases hi : Store.ofImage i with
  | error e => rw [hi] at h; cases h
  | ok store =>
    rw [hi] at h
    obtain rfl := Except.ok.inj h
    rfl

end

end StateSystem

open StateSystem

/-- What can be loaded is complete. -/
theorem Archive.status_load {path : String} {version : UInt32} {bytes : Option (List UInt8)}
    {s : StateSystem} (h : load path version bytes = .ok s) : s.status = .built := by
  unfold load at h
  cases hopen : open? path bytes with
  | error e => rw [hopen] at h; cases h
  | ok d =>
    simp only [hopen, bind, Except.bind] at h
    split at h
    · cases h
    · split at h
      · cases h
      · split at h
        · cases h
        · exact status_ofImage h

/-- What a stock provider does with an event keeps the state of construction. -/
theorem Stock.keepsStatus (k : Stock) {context : Context} {handle : Handler}
    (h : k.provider.start context = .ok handle) (e : Event) : (handle e).KeepsStatus :=
  keepsStatus_iff.2 fun status =>
    k.keeps h e (fun _ _ => keepsStatus_iff.1 (keepsStatus_edit _) status)
    fun _ _ => keepsStatus_iff.1 (keepsStatus_schedule _) status

namespace Analysis

section
variable {handle : Handler} {s : StateSystem}

theorem status_loadHistory {a : Analysis} {folder : Folder} (h : a.loadHistory folder = some s) :
    s.status = .built := by
  obtain ⟨path, -, h⟩ := Option.bind_eq_some_iff.1 h
  cases hload : Archive.load path a.provider.version (folder.read path) with
  | error e =>
    rw [hload] at h
    cases h
  | ok s' =>
    rw [hload] at h
    obtain rfl := Option.some.inj h
    exact Archive.status_load hload

/-- Recording an event keeps what moving recording to its time and the provider keep. -/
theorem keeps_record {e : Event} {Q : StateSystem → Prop}
    (hadvance : (advanceTo e.timestamp).Keeps Q) (hhandle : (handle e).Keeps Q) :
    (record handle e).Keeps Q := by
  intro s hQ
  unfold Write.after record
  cases ha : advanceTo e.timestamp s with
  | error f s₁ => exact hadvance.of_error hQ ha
  | ok u s₁ =>
    have hadvanced := hadvance.of_ok hQ ha
    cases hh : handle e s₁ with
    | ok u s₂ =>
      simp only [hh]
      exact hhandle.of_ok hadvanced hh
    | error f s₂ =>
      have hhandled := hhandle.of_error hadvanced hh
      cases hf : f.isFatal <;> simpa [hh, hf] using hhandled

theorem keepsStatus_record {e : Event} (h : (handle e).KeepsStatus) :
    (record handle e).KeepsStatus :=
  keepsStatus_iff.2 fun status =>
    keeps_record (keepsStatus_iff.1 (keepsStatus_advanceTo _) status) (keepsStatus_iff.1 h status)

theorem status_close (hs : s.status = .building) (t : Time) :
    (∃ s', close t s = .ok () s' ∧ s'.status = .built) ∨
      ∃ f s', close t s = .error f s' ∧ s'.status = .failed f.message := by
  unfold close
  cases hedit : edit (Store.close t) s with
  | ok u s₁ =>
    have hbuilding := ((keepsStatus_edit _).of_ok hedit).trans hs
    exact Or.inl ⟨_, rfl, by simp [finish, hbuilding, Status.isFinished]⟩
  | error f s₁ =>
    have hbuilding := ((keepsStatus_edit _).of_error hedit).trans hs
    exact Or.inr ⟨f, _, rfl, by simp [finish, hbuilding, Status.isFinished]⟩

theorem status_closeAtStop (hs : s.status = .building) :
    (∃ s', closeAtStop s = .ok () s' ∧ s'.status = .built) ∨
      ∃ f s', closeAtStop s = .error f s' ∧
      (s'.finish (.failed f.message)).status = .failed f.message := by
  cases hask : (Write.ask (query fun s => .ok s.stop) : Write (Option Time)) s with
  | error f s₁ =>
    have hbuilding := ((keepsStatus_ask _).of_error hask).trans hs
    exact Or.inr ⟨f, s₁, bind_of_error hask, by simp [finish, hbuilding, Status.isFinished]⟩
  | ok stop s₁ =>
    have hbuilding := ((keepsStatus_ask _).of_ok hask).trans hs
    rcases status_close hbuilding (stop.elim 0 Time.after) with
      ⟨s', hclose, hbuilt⟩ | ⟨f, s', hclose, hfailed⟩
    · exact Or.inl ⟨s', (bind_of_ok hask).trans hclose, hbuilt⟩
    · exact Or.inr ⟨f, s', (bind_of_ok hask).trans hclose, by
        simp [finish, hfailed, Status.isFinished]⟩

/-- **Closing completes construction, or fails**, and it then fails construction for that reason if
it has not yet. -/
theorem status_closing (flushAtEnd : Bool) (hs : s.status = .building) :
    (∃ s', closing flushAtEnd s = .ok () s' ∧ s'.status = .built) ∨
      ∃ f s', closing flushAtEnd s = .error f s' ∧
      (s'.finish (.failed f.message)).status = .failed f.message := by
  cases flushAtEnd with
  | false => exact status_closeAtStop hs
  | true =>
    rw [closing_true]
    cases hflush : flush Time.latest s with
    | error f s₁ =>
      have hbuilding := ((keepsStatus_flush _).of_error hflush).trans hs
      exact Or.inr ⟨f, s₁, bind_of_error hflush, by simp [finish, hbuilding, Status.isFinished]⟩
    | ok n s₁ =>
      have hbuilding := ((keepsStatus_flush _).of_ok hflush).trans hs
      rw [bind_of_ok hflush]
      exact status_closeAtStop hbuilding

end

end Analysis

end StateHistory
