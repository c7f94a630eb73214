import StateHistory.Proofs.Analysis.Moves

/-!
# What a run does next

What an analysis can do by itself is said once, by `Analysis.Advances`: each step and each loss of
patience is one of its cases (`advances_step`, `advances_expire`). Among the steps one starts the
provider: any other has nothing to do with how the provider starts (`step_withStart`).
-/

namespace StateHistory

namespace Analysis

/-- The outcome of a run that ended without being complete. -/
def Cut (outcome : Outcome) : Prop := outcome = .cancelled ∨ ∃ reason, outcome = .failed reason

theorem Cut.ne_completed {outcome : Outcome} (h : Cut outcome) : outcome ≠ .completed := by
  rintro rfl
  rcases h with h | ⟨_, h⟩ <;> cases h

/-- What has come of a step once all dependencies are there. -/
inductive Worked (a a' : Analysis) : Prop
  | goesOn {handle : Handler} {processed : Nat} {last : Option Time}
    (phase_eq : a'.phase = .building handle processed last)
    (outcome_eq : a'.outcome = a.outcome) (published : a'.system.isSome = true)
  | completes (phase_eq : a'.phase = .over) (outcome_eq : a'.outcome = .completed)
      (published : a'.system.isSome = true)
  | stops (phase_eq : a'.phase = .over) (cut : Cut a'.outcome)

/-- What an analysis does by itself, told by its phase, its outcome and its state system. -/
inductive Advances (see : String → Option Analysis) (a a' : Analysis) : Prop
  | starts (phase : a.phase = .starting) (phase_eq : a'.phase = .awaiting a.dependencies {})
    (outcome_eq : a'.outcome = a.outcome) (system_eq : a'.system = a.system)
  | gets {d : String} {pending : List String} {context : Context} {other : Analysis}
    {system : StateSystem}
    (phase : a.phase = .awaiting (d :: pending) context) (seen : see d = some other)
    (completed : other.outcome = .completed)
    (published : other.system = some system)
    (phase_eq : a'.phase = .awaiting pending (context.insert d system))
    (outcome_eq : a'.outcome = a.outcome) (system_eq : a'.system = a.system)
  | givesUp {d : String} {pending : List String} {context : Context}
    (phase : a.phase = .awaiting (d :: pending) context)
    (phase_eq : a'.phase = .over) (cut : Cut a'.outcome)
    (unpublished : a.system = none → a'.system = none)
  | opens {context : Context} (phase : a.phase = .awaiting [] context) (worked : a.Worked a')
  | builds {handle : Handler} {processed : Nat} {last : Option Time}
    (phase : a.phase = .building handle processed last) (worked : a.Worked a')

section
variable {a a' : Analysis} {see : String → Option Analysis} {folder folder' : Folder}

/-! ## Steps -/

theorem advances_await {d : String} {pending : List String} {context : Context}
    (hphase : a.phase = .awaiting (d :: pending) context)
    (h : a.await see d pending context = some a') : a.Advances see a' := by
  have hfailed : ∀ reason, a.Advances see (a.endFailed reason) := fun reason =>
    .givesUp hphase rfl (.inr ⟨reason, rfl⟩) fun hnone => by simp [endFailed, notify, hnone]
  unfold Analysis.await at h
  split at h
  · obtain rfl := Option.some.inj h
    exact .givesUp hphase rfl (.inl rfl) fun hnone => by simp [endCancelled, notify, hnone]
  · cases hsee : see d with
    | none => simp [hsee] at h
    | some other =>
      simp only [hsee] at h
      split at h
      · obtain rfl := Option.some.inj h
        exact .gets hphase hsee ‹_› ‹_› rfl rfl rfl
      · obtain rfl := Option.some.inj h
        exact hfailed _
      · split at h
        · obtain rfl := Option.some.inj h
          exact hfailed _
        · cases h

theorem worked_opened (a : Analysis) (folder : Folder) (context : Context) :
    a.Worked (a.opened folder context) := by
  unfold Analysis.opened
  split
  · exact .completes rfl rfl rfl
  · simp only
    split
    · exact .goesOn rfl rfl rfl
    · exact .stops rfl (.inr ⟨_, rfl⟩)

theorem worked_build (a : Analysis) (handle : Handler) (processed : Nat) (last : Option Time)
    (folder : Folder) :
    a.Worked (a.build handle processed last folder).1 := by
  unfold Analysis.build
  split
  · exact .stops rfl (.inl rfl)
  · cases a.source.next with
    | mk read source =>
      cases read with
      | event e =>
        simp only [handleEvent]
        split
        · exact .stops rfl (.inr ⟨_, rfl⟩)
        · split
          · exact .stops rfl (.inr ⟨_, rfl⟩)
          · simp only [reportProgress]
            split
            · exact .goesOn rfl rfl rfl
            · exact .goesOn rfl rfl rfl
      | nothing =>
        simp only [concluded]
        split
        · exact .completes rfl rfl rfl
        · exact .stops rfl (.inr ⟨_, rfl⟩)
      | failure f => exact .stops rfl (.inr ⟨_, rfl⟩)

/-- **What a step can do.** -/
theorem advances_step (h : a.step see folder = some (a', folder')) : a.Advances see a' := by
  unfold Analysis.step at h
  split at h
  · cases h
  · cases h
  · obtain ⟨rfl, -⟩ := Prod.mk.inj (Option.some.inj h)
    exact .starts ‹_› rfl rfl rfl
  · obtain ⟨a₁, hawait, heq⟩ := Option.map_eq_some_iff.1 h
    obtain ⟨rfl, -⟩ := Prod.mk.inj heq
    exact advances_await ‹_› hawait
  · obtain ⟨rfl, -⟩ := Prod.mk.inj (Option.some.inj h)
    exact .opens ‹_› (worked_opened ..)
  · obtain rfl := congrArg Prod.fst (Option.some.inj h)
    exact .builds ‹_› (worked_build ..)

theorem advances_expire (see : String → Option Analysis) (h : a.expire = some a') :
    a.Advances see a' := by
  unfold Analysis.expire at h
  split at h
  · obtain rfl := Option.some.inj h
    split
    · exact .givesUp ‹_› rfl (.inl rfl) fun hnone => by simp [endCancelled, notify, hnone]
    · exact .givesUp ‹_› rfl (.inr ⟨_, rfl⟩) fun hnone => by simp [endFailed, notify, hnone]
  · cases h

/-! ## Starting the provider -/

/-- The analysis with another way for its provider to start. -/
def withStart (start : Context → Except Failure Handler) (a : Analysis) : Analysis :=
  { a with provider := { a.provider with start } }

/-- The next step starts the provider, with the state systems of `context`. -/
def Starts (folder : Folder) (context : Context) (a : Analysis) : Prop :=
  a.phase = .awaiting [] context ∧ a.loadHistory folder = none

theorem await_withStart (start : Context → Except Failure Handler) (see : String → Option Analysis)
    (d : String) (pending : List String) (context : Context) (a : Analysis) :
    (a.withStart start).await see d pending context = (a.await see d pending context).map
      (withStart start) := by
  unfold Analysis.await
  change (if a.cancelRequested then _ else _) = _
  split
  · rfl
  · cases see d with
    | none => rfl
    | some other =>
      simp only
      split
      · rfl
      · rfl
      · split <;> rfl

theorem handleEvent_withStart (start : Context → Except Failure Handler) (handle : Handler)
    (processed : Nat) (last : Option Time) (e : Event) (system : StateSystem) (a : Analysis) :
    (a.withStart start).handleEvent handle processed last e system =
      (a.handleEvent handle processed last e system).withStart start := by
  unfold Analysis.handleEvent
  split
  · rfl
  · split
    · rfl
    · unfold reportProgress
      change (if (processed + 1) % max a.config.progressInterval 1 = 0 then _ else _) =
        (if (processed + 1) % max a.config.progressInterval 1 = 0 then _ else _ :
          Analysis).withStart start
      split <;> rfl

theorem concluded_withStart (start : Context → Except Failure Handler) (processed : Nat)
    (system : StateSystem) (folder : Folder) (a : Analysis) :
    (a.withStart start).concluded processed system folder =
      ((a.concluded processed system folder).1.withStart start,
        (a.concluded processed system folder).2) := by
  unfold Analysis.concluded
  have hclosing : closing (a.withStart start).config.flushAtEnd system =
      closing a.config.flushAtEnd system := rfl
  rw [hclosing]
  cases closing a.config.flushAtEnd system <;> rfl

theorem build_withStart (start : Context → Except Failure Handler) (handle : Handler)
    (processed : Nat) (last : Option Time) (folder : Folder) (a : Analysis) :
    (a.withStart start).build handle processed last folder =
      ((a.build handle processed last folder).1.withStart start,
        (a.build handle processed last folder).2) := by
  rcases hnext : a.source.next with ⟨read, source⟩
  have hnext' : (a.withStart start).source.next = (read, source) := hnext
  unfold Analysis.build
  by_cases hcancel : a.cancelRequested = true
  · have hcancel' : (a.withStart start).cancelRequested = true := hcancel
    rw [if_pos hcancel, if_pos hcancel']
    rfl
  · have hcancel' : ¬ (a.withStart start).cancelRequested = true := hcancel
    rw [if_neg hcancel, if_neg hcancel']
    simp only [hnext, hnext']
    cases read with
    | event e => exact Prod.ext (handleEvent_withStart start handle processed last e _ { a with
        source }) rfl
    | nothing => exact concluded_withStart start processed _ folder { a with source }
    | failure f => rfl

/-- **A step that does not start the provider has nothing to do with how it starts.** -/
theorem step_withStart (start : Context → Except Failure Handler)
    (h : ∀ context, ¬ a.Starts folder context) :
    (a.withStart start).step see folder = (a.step see folder).map fun p =>
      (p.1.withStart start, p.2) := by
  have hsame : (a.withStart start).phase = a.phase := rfl
  rw [Analysis.step, Analysis.step, hsame]
  cases hphase : a.phase with
  | idle => rfl
  | «over» => rfl
  | starting => rfl
  | awaiting pending context =>
    cases pending with
    | nil =>
      have hload : a.loadHistory folder ≠ none := fun hnone => h context ⟨hphase, hnone⟩
      obtain ⟨system, hsystem⟩ := Option.ne_none_iff_exists'.1 hload
      have hload' : (a.withStart start).loadHistory folder = some system := hsystem
      simp only [Option.map_some, Analysis.opened, hsystem, hload']
      rfl
    | cons d rest =>
      simp only [await_withStart, Option.map_map]
      rfl
  | building handle processed last =>
    simp only [build_withStart, Option.map_some]

/-- Giving up has nothing to do with the provider. -/
theorem expire_withStart (start : Context → Except Failure Handler) (a : Analysis) :
    (a.withStart start).expire = a.expire.map (withStart start) := by
  have hsame : (a.withStart start).phase = a.phase := rfl
  rw [expire, expire, hsame]
  cases a.phase with
  | awaiting pending context =>
    cases pending with
    | nil => rfl
    | cons d pending =>
      by_cases hcancel : a.cancelRequested = true
      · have hcancel' : (a.withStart start).cancelRequested = true := hcancel
        simp only [hcancel, hcancel']
        rfl
      · have hcancel' : ¬ (a.withStart start).cancelRequested = true := hcancel
        simp only [hcancel, hcancel']
        rfl
  | idle | starting | building | «over» => rfl

/-- The step that starts the provider does nothing else. -/
theorem step_of_starts {context : Context} (h : a.Starts folder context) : a.step see folder = some
    (match a.provider.start context with
      | .ok handle => { a with system := some (.new a.id), phase := .building handle 0 none }
      | .error e => { a with system := some (.new a.id) }.endFailed e.message, folder) := by
  rw [Analysis.step, h.1]
  simp only [Analysis.opened, h.2]
  cases a.provider.start context <;> rfl

/-! ## Phases -/

/-- Whatever an analysis does by itself, it does not become idle. -/
theorem Advances.ne_idle (h : a.Advances see a') : a'.phase ≠ .idle := by
  have hworked : a.Worked a' → a'.phase ≠ .idle := by
    intro hw
    cases hw with
    | goesOn phase_eq _ _ => rw [phase_eq]; exact nofun
    | completes phase_eq _ _ => rw [phase_eq]; exact nofun
    | stops phase_eq _ => rw [phase_eq]; exact nofun
  cases h with
  | starts _ phase_eq _ _ => rw [phase_eq]; exact nofun
  | gets _ _ _ _ phase_eq _ _ => rw [phase_eq]; exact nofun
  | givesUp _ phase_eq _ _ => rw [phase_eq]; exact nofun
  | opens _ worked => exact hworked worked
  | builds _ worked => exact hworked worked

theorem scheduleAfter_ok_iff : a.scheduleAfter = .ok a' ↔
    a.phase = .idle ∧ a' = { a with outcome := .running, phase := .starting } := by
  unfold scheduleAfter
  cases a.phase <;> simp [eq_comm]

end

end Analysis

end StateHistory
