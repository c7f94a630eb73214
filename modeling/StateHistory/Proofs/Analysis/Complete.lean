import StateHistory.Proofs.Analysis.Quiet

/-!
# What runs have done that complete

An analysis may be called off by its listeners, so not every run over events that can be recorded
completes. But a run that does complete, and has not loaded a saved history, has recorded all its
events, one after the other, and has closed the state system and saved it (`runAlone_built`).
-/

namespace StateHistory.Analysis

open StateSystem

section
variable {a a' : Analysis} {handle : Handler} {events : List Event} {processed : Nat}
  {last : Option Time} {s s₀ s' : StateSystem} {folder folder' : Folder}

/-- What is left to do for a run that has recorded events on the way to `s`: record the others and
close, and save what comes of that. -/
structure Builds (handle : Handler) (events : List Event) (a : Analysis) (folder : Folder)
    (s s₀ s' : StateSystem) (folder' : Folder) : Prop where
  recorded : events.forM (record handle) s = .ok () s₀
  closed : closing a.config.flushAtEnd s₀ = .ok () s'
  saved : folder' = a.saveHistory s' folder

/-- The run has ended otherwise than by completion. -/
def Stopped (a : Analysis) : Prop := a.phase = .over ∧ a.outcome ≠ .completed

theorem stopped_endCancelled (a : Analysis) : a.endCancelled.Stopped :=
  ⟨rfl, by simp [endCancelled, notify]⟩

theorem stopped_endFailed (reason : String) (a : Analysis) : (a.endFailed reason).Stopped :=
  ⟨rfl, by simp [endFailed, notify]⟩

/-- One step of a run: it is stopped, or it completes, or it records the next event. -/
theorem Building.step (h : Building handle events processed last s a)
    (see : String → Option Analysis) (folder : Folder) :
    ∃ a' folder', a.step see folder = some (a', folder') ∧ a'.id = a.id ∧
      (a'.Stopped ∨
        (events = [] ∧ a'.phase = .over ∧ ∃ s', Builds handle [] a folder s s s' folder' ∧
          a'.system = some s') ∨
        ∃ e rest s₁, events = e :: rest ∧ record handle e s = .ok () s₁ ∧ folder' = folder ∧
          a'.provider = a.provider ∧ a'.config = a.config ∧
          Building handle rest (processed + 1) (some e.timestamp) s₁ a') := by
  by_cases hcancel : a.cancelRequested = true
  · have hstep : a.step see folder = some (a.endCancelled, folder) := by
      simp [Analysis.step, h.phase_eq, build, hcancel]
    exact ⟨_, _, hstep, rfl, .inl (stopped_endCancelled a)⟩
  have hwanted : a.cancelRequested = false := Bool.eq_false_iff.2 hcancel
  cases events with
  | nil =>
    rw [h.step_nothing hwanted]
    cases hclosing : closing a.config.flushAtEnd s with
    | ok u s' =>
      rw [concluded_ok (a := { a with source := .ofEvents [] }) hclosing]
      exact ⟨_, _, rfl, rfl, .inr (.inl ⟨rfl, rfl, s', ⟨rfl, hclosing, rfl⟩, rfl⟩)⟩
    | error f s' =>
      rw [concluded_error (a := { a with source := .ofEvents [] }) hclosing]
      exact ⟨_, _, rfl, rfl, .inl (stopped_endFailed _ _)⟩
  | cons e rest =>
    rw [h.step_event hwanted]
    cases hlate : last.filter (e.timestamp < ·) with
    | some t =>
      simp only [handleEvent, hlate]
      exact ⟨_, _, rfl, rfl, .inl (stopped_endFailed _ _)⟩
    | none =>
      cases hrecord : record handle e s with
      | error f s₁ =>
        rw [handleEvent_error hlate hrecord]
        exact ⟨_, _, rfl, rfl, .inl (stopped_endFailed _ _)⟩
      | ok u s₁ =>
        rw [handleEvent_ok hlate hrecord]
        have hnext : Building handle rest (processed + 1) (some e.timestamp) s₁ { a with
            source := .ofEvents rest
            system := some s₁
            phase := .building handle (processed + 1) (some e.timestamp) } := ⟨rfl, rfl, rfl⟩
        obtain ⟨hbuilding, hid, hprovider, hconfig⟩ :=
          hnext.reportProgress (processed + 1) e.timestamp
        exact ⟨_, _, rfl, hid,
          .inr (.inr ⟨e, rest, s₁, rfl, hrecord, rfl, hprovider, hconfig, hbuilding⟩)⟩

/-- Where to save does not change on the way. -/
theorem saveHistory_congr (hid : a'.id = a.id) (hprovider : a'.provider = a.provider)
    (hconfig : a'.config = a.config) (s : StateSystem) (folder : Folder) :
    a'.saveHistory s folder = a.saveHistory s folder := by
  simp only [saveHistory, historyPath, hid, hprovider, hconfig]

/-- All steps of a run: if it completes, it has recorded all events. -/
theorem Building.settleLoop (h : Building handle events processed last s a) {fuel : Nat}
    (hfuel : events.length < fuel) (folder : Folder) :
    ∃ a' folder', Session.settleLoop (fun _ _ => false) fuel ⟨[a], folder⟩ = ⟨[a'],
      folder'⟩ ∧ a'.id = a.id ∧
      (a'.outcome = .completed → ∃ s₀ s', Builds handle events a folder s s₀ s' folder' ∧
        a'.system = some s') := by
  induction events generalizing a processed last s fuel with
  | nil =>
    obtain ⟨fuel, rfl⟩ : ∃ n, fuel = n + 1 := ⟨fuel - 1, by simp at hfuel; omega⟩
    obtain ⟨a', folder', hstep, hid,
        hstopped | ⟨-, hover, s', hbuilds, hsystem⟩ | ⟨e, rest, s₁, hcons, -⟩⟩ :=
      h.step (Session.find? ⟨[a], folder⟩) folder
    · exact ⟨a', folder', by rw [settleLoop_succ fuel hstep hid, settleLoop_over hstopped.1], hid,
        fun hcompleted => absurd hcompleted hstopped.2⟩
    · exact ⟨a', folder', by rw [settleLoop_succ fuel hstep hid, settleLoop_over hover], hid,
        fun _ => ⟨s, s', hbuilds, hsystem⟩⟩
    · cases hcons
  | cons e events ih =>
    obtain ⟨fuel, rfl⟩ : ∃ n, fuel = n + 1 := ⟨fuel - 1, by simp at hfuel; omega⟩
    obtain ⟨a₁, folder₁, hstep, hid, hstopped | ⟨hnil, -⟩ |
      ⟨e, rest, s₁, hcons, hrecord, rfl, hprovider, hconfig, hnext⟩⟩ :=
        h.step (Session.find? ⟨[a], folder⟩) folder
    · exact ⟨a₁, folder₁, by rw [settleLoop_succ fuel hstep hid, settleLoop_over hstopped.1], hid,
        fun hcompleted => absurd hcompleted hstopped.2⟩
    · cases hnil
    · obtain ⟨rfl, rfl⟩ := List.cons.inj hcons
      obtain ⟨a', folder', hloop, hid', hbuilt⟩ := ih hnext (Nat.lt_of_succ_lt_succ hfuel)
      refine ⟨a', folder', by rw [settleLoop_succ fuel hstep hid, hloop], hid'.trans hid,
        fun hcompleted => ?_⟩
      obtain ⟨s₀, s', hbuilds, hsystem⟩ := hbuilt hcompleted
      refine ⟨s₀, s', ⟨(bind_of_ok hrecord).trans hbuilds.recorded, hconfig ▸ hbuilds.closed, ?_⟩,
        hsystem⟩
      rw [hbuilds.saved, saveHistory_congr hid hprovider hconfig]

/-- **A run that completes by building** has recorded all its events on a new state system, and has
closed that and saved it. -/
theorem runAlone_built (hphase : a.phase = .starting) (hdependencies : a.dependencies = [])
    (hsource : a.source = .ofEvents events) (hfresh : a.loadHistory folder = none)
    (hstart : a.provider.start {} = .ok handle)
    (hcompleted : (Session.runAlone a folder).1.outcome = .completed) :
    ∃ s₀ s', Builds handle events a folder (.new a.id) s₀ s' (Session.runAlone a folder).2 ∧
      (Session.runAlone a folder).1.system = some s' := by
  obtain ⟨a', folder', hloop, hid, hbuilt⟩ :=
    (building_begun handle hsource).settleLoop (Nat.lt_succ_self events.length) folder
  rw [runAlone_of_begun hphase hdependencies hsource hfresh hstart hloop hid] at hcompleted ⊢
  obtain ⟨s₀, s', ⟨hrecorded, hclosed, hsaved⟩, hsystem⟩ := hbuilt hcompleted
  exact ⟨s₀, s', ⟨hrecorded, hclosed, hsaved⟩, hsystem⟩

end

end StateHistory.Analysis
