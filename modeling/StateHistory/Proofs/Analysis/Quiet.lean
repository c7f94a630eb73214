import StateHistory.Analysis.Session
import StateHistory.Proofs.StateSystem.Reached

/-!
# How quiet runs end

An analysis that depends on no other and that nobody calls off goes on until its source has no more
events. What it then comes to is told by its work alone, which is to record the events one after the
other and to close the state system: the run completes if the work succeeds, and fails as the work
does if not (`runAlone_ends`).
-/

namespace StateHistory

/-! ## Events in order -/

section
variable {events : List Event} {e last : Event} {t : Time}

/-- In order, no event comes after the last. -/
theorem le_last (h : events.Pairwise (·.timestamp ≤ ·.timestamp)) (he : e ∈ events)
    (hlast : last ∈ events.getLast?) :
    e.timestamp ≤ last.timestamp := by
  obtain ⟨init, rfl⟩ := List.getLast?_eq_some_iff.1 hlast
  rcases List.mem_append.1 he with he | he
  · exact (List.pairwise_append.1 h).2.2 e he last (by simp)
  · exact Int.le_of_eq (congrArg _ (List.mem_singleton.1 he))

/-- There is a time that no event comes before. -/
theorem exists_start (h : events.Pairwise (·.timestamp ≤ ·.timestamp))
    (hle : ∀ e ∈ events, e.timestamp ≤ t) :
    ∃ now, now ≤ t ∧ ∀ e ∈ events, now ≤ e.timestamp := by
  cases events with
  | nil => exact ⟨t, Int.le_refl t, by simp⟩
  | cons e rest =>
    refine ⟨e.timestamp, hle e (by simp), fun e' he' => ?_⟩
    rcases List.mem_cons.1 he' with rfl | he'
    · exact Int.le_refl _
    · exact (List.pairwise_cons.1 h).1 e' he'

/-- A field of 64 bits is read as such. -/
theorem Event.fitsLong_fieldLong {field : String} {n : Int} (h : e.fieldLong field = some n) :
    Value.fitsLong n = true := by
  unfold Event.fieldLong at h
  split at h
  · split at h
    · exact Option.some.inj h ▸ ‹_›
    · cases h
  · cases h

end

namespace Analysis

open StateSystem

/-- Nobody has called the analysis off, and no listener ever will. -/
structure Quiet (a : Analysis) : Prop where
  wanted : a.cancelRequested = false
  patient : ∀ l ∈ a.listeners, ∀ n, l.callsOff n = false

section
variable {a : Analysis} {n : Notification}

theorem Quiet.notify (h : a.Quiet) (n : Notification) : (a.notify n).Quiet := by
  refine ⟨?_, fun l hl n' => ?_⟩
  · have hany : a.listeners.any (·.callsOff n) = false := by
      simpa using fun l hl => h.patient l hl n
    simp [Analysis.notify, h.wanted, hany]
  · obtain ⟨l', hl', rfl⟩ := List.mem_map.1 hl
    exact h.patient l' hl' n'

/-- A session with one analysis steps as that does. -/
theorem settleStep_single {folder folder' : Folder} {a' : Analysis}
    (h : a.step (Session.find? ⟨[a], folder⟩) folder = some (a', folder')) (hid : a'.id = a.id) :
    Session.settleStep (fun _ _ => false) ⟨[a], folder⟩ = some ⟨[a'], folder'⟩ := by
  simp [Session.settleStep, Session.advance, h, Session.put, hid]

/-- A session whose one analysis is over stays as it is. -/
theorem settleLoop_over {folder : Folder} (h : a.phase = .over) :
    ∀ fuel, Session.settleLoop (fun _ _ => false) fuel ⟨[a], folder⟩ = ⟨[a], folder⟩
  | 0 => rfl
  | fuel + 1 => by
    have hstep : Session.settleStep (fun _ _ => false) ⟨[a], folder⟩ = none := by
      simp [Session.settleStep, Session.advance, Analysis.step, h, Session.waiting, Analysis.expire]
    simp [Session.settleLoop, hstep]

theorem settleLoop_succ {folder folder' : Folder} {a' : Analysis} (fuel : Nat)
    (h : a.step (Session.find? ⟨[a], folder⟩) folder = some (a', folder')) (hid : a'.id = a.id) :
    Session.settleLoop (fun _ _ => false) (fuel + 1) ⟨[a], folder⟩ =
      Session.settleLoop (fun _ _ => false) fuel ⟨[a'], folder'⟩ := by
  simp [Session.settleLoop, settleStep_single h hid]

end

/-! ## Recording -/

/-- What a run does with its events: it records them all and closes the state system. -/
def recordAll (handle : Handler) (events : List Event) (flushAtEnd : Bool) :
    StateSystem.Write Unit := do
  events.forM (record handle)
  closing flushAtEnd

/-- The run has ended as its work did. -/
def EndsAs (a : Analysis) : EStateM.Result Failure StateSystem Unit → Prop
  | .ok () s => a.outcome = .completed ∧ a.system = some s
  | .error f s => a.outcome = .failed f.message ∧ a.system = some (s.finish (.failed f.message))

/-- An analysis that has started its provider and is to record some events. -/
structure Building (handle : Handler) (events : List Event) (processed : Nat) (last : Option Time)
    (s : StateSystem) (a : Analysis) : Prop where
  phase_eq : a.phase = .building handle processed last
  source_eq : a.source = .ofEvents events
  system_eq : a.system = some s

/-- An analysis that is to record the given events, none of them before `last`, and then to
complete. -/
structure Recording (handle : Handler) (events : List Event) (processed : Nat) (last : Option Time)
    (system : StateSystem) (a : Analysis) : Prop extends a.Quiet where
  phase_eq : a.phase = .building handle processed last
  source_eq : a.source = .ofEvents events
  system_eq : a.system = some system
  not_before : ∀ t, last = some t → ∀ e ∈ events, t ≤ e.timestamp
  ascending : events.Pairwise (·.timestamp ≤ ·.timestamp)

section
variable {a : Analysis} {handle : Handler} {e : Event} {events : List Event} {processed : Nat}
  {last : Option Time} {s s₁ s' : StateSystem}

/-- Telling of progress leaves the run where it is. -/
theorem Building.reportProgress (h : Building handle events processed last s a) (n : Nat)
    (t : Time) :
    Building handle events processed last s (a.reportProgress n t) ∧
      (a.reportProgress n t).id = a.id ∧
      (a.reportProgress n t).provider = a.provider ∧ (a.reportProgress n t).config = a.config := by
  unfold Analysis.reportProgress
  split
  · exact ⟨⟨h.phase_eq, h.source_eq, h.system_eq⟩, rfl, rfl, rfl⟩
  · exact ⟨h, rfl, rfl, rfl⟩

/-- A run that is not called off handles the event that its source gives. -/
theorem Building.step_event (h : Building handle (e :: events) processed last s a)
    (hwanted : a.cancelRequested = false) (see : String → Option Analysis) (folder : Folder) :
    a.step see folder =
      some ({ a with source := .ofEvents events }.handleEvent handle processed last e s,
        folder) := by
  have hread : a.source.next = (.event e, .ofEvents events) := by
    rw [h.source_eq]
    rfl
  simp [Analysis.step, h.phase_eq, build, hwanted, h.system_eq, hread]

/-- A run that is not called off ends when its source gives no event. -/
theorem Building.step_nothing (h : Building handle [] processed last s a)
    (hwanted : a.cancelRequested = false) (see : String → Option Analysis) (folder : Folder) :
    a.step see folder = some ({ a with source := .ofEvents [] }.concluded processed s folder) := by
  have hread : a.source.next = (.nothing, .ofEvents []) := by
    rw [h.source_eq]
    rfl
  simp [Analysis.step, h.phase_eq, build, hwanted, h.system_eq, hread]

theorem handleEvent_ok (hlate : last.filter (e.timestamp < ·) = none)
    (hrecord : record handle e s = .ok () s₁) :
    a.handleEvent handle processed last e s = reportProgress (processed + 1) e.timestamp { a with
      system := some s₁
      phase := .building handle (processed + 1) (some e.timestamp) } := by
  simp only [handleEvent, hlate, hrecord]

theorem handleEvent_error {f : Failure} (hlate : last.filter (e.timestamp < ·) = none)
    (hrecord : record handle e s = .error f s₁) :
    a.handleEvent handle processed last e s = { a with system := some s₁ }.endFailed f.message := by
  simp only [handleEvent, hlate, hrecord]

theorem concluded_ok {folder : Folder} (h : closing a.config.flushAtEnd s = .ok () s') :
    a.concluded processed s folder =
      ({ a with system := some s' }.endCompleted processed, a.saveHistory s' folder) := by
  simp only [concluded, h]

theorem concluded_error {folder : Folder} {f : Failure}
    (h : closing a.config.flushAtEnd s = .error f s') :
    a.concluded processed s folder =
      ({ a with system := some s' }.endFailed f.message, folder) := by
  simp only [concluded, h]

theorem Recording.building (h : Recording handle events processed last s a) :
    Building handle events processed last s a :=
  ⟨h.phase_eq, h.source_eq, h.system_eq⟩

theorem Recording.notify (h : Recording handle events processed last s a) (n : Notification) :
    Recording handle events processed last s (a.notify n) :=
  ⟨h.toQuiet.notify n, h.phase_eq, h.source_eq, h.system_eq, h.not_before, h.ascending⟩

theorem record_of_ok (hadvance : advanceTo e.timestamp s = .ok () s₁)
    (hhandle : handle e s₁ = .ok () s') :
    record handle e s = .ok () s' := by
  simp only [record, hadvance, hhandle]

/-- A failure that is not fatal is passed over. -/
theorem record_of_passed {f : Failure} (hadvance : advanceTo e.timestamp s = .ok () s₁)
    (hhandle : handle e s₁ = .error f s') (hf : f.isFatal = false) :
    record handle e s = .ok () s' := by
  simp [record, hadvance, hhandle, hf]

theorem record_of_error {f : Failure} (hadvance : advanceTo e.timestamp s = .error f s') :
    record handle e s = .error f s' := by
  simp only [record, hadvance]

theorem recordAll_nil (handle : Handler) (flushAtEnd : Bool) :
    recordAll handle [] flushAtEnd s = closing flushAtEnd s :=
  bind_of_ok rfl

theorem recordAll_ok {flushAtEnd : Bool} (h : record handle e s = .ok () s₁) :
    recordAll handle (e :: events) flushAtEnd s = recordAll handle events flushAtEnd s₁ := by
  have hforM : (e :: events).forM (record handle) s = events.forM (record handle) s₁ := bind_of_ok h
  change EStateM.bind _ _ s = EStateM.bind _ _ s₁
  unfold EStateM.bind
  rw [hforM]

/-- Events that can be recorded are recorded one after the other. -/
theorem forM_record_cons (h : (e :: events).forM (record handle) s = .ok () s') :
    ∃ s₁, record handle e s = .ok () s₁ ∧ events.forM (record handle) s₁ = .ok () s' := by
  cases hrecord : record handle e s with
  | ok u s₁ => exact ⟨s₁, rfl, (bind_of_ok hrecord).symm.trans h⟩
  | error f s₁ =>
    have hfailed : (e :: events).forM (record handle) s = .error f s₁ := bind_of_error hrecord
    rw [hfailed] at h
    cases h

/-- Events that can be recorded leave the rest of the work to be done. -/
theorem recordAll_append {flushAtEnd : Bool} {before : List Event}
    (h : before.forM (record handle) s = .ok () s₁) :
    recordAll handle (before ++ events) flushAtEnd s = recordAll handle events flushAtEnd s₁ := by
  induction before generalizing s with
  | nil =>
    cases h
    rfl
  | cons e before ih =>
    obtain ⟨s₂, he, hrest⟩ := forM_record_cons h
    rw [List.cons_append, recordAll_ok he, ih hrest]

theorem recordAll_error {flushAtEnd : Bool} {f : Failure} (h : record handle e s = .error f s₁) :
    recordAll handle (e :: events) flushAtEnd s = .error f s₁ :=
  bind_of_error (bind_of_error h)

/-- The next event does not come before the last one. -/
theorem Recording.in_order (h : Recording handle (e :: events) processed last s a) :
    last.filter (e.timestamp < ·) = none := by
  cases hl : last with
  | none => rfl
  | some t => simpa [Option.filter_some] using Int.not_lt.2 (h.not_before t hl e (by simp))

/-- An event that can be recorded is. -/
theorem Recording.step (h : Recording handle (e :: events) processed last s a)
    (hrecord : record handle e s = .ok () s₁) (see : String → Option Analysis) (folder : Folder) :
    ∃ a', a.step see folder = some (a', folder) ∧ a'.id = a.id ∧ a'.config = a.config ∧
      Recording handle events (processed + 1) (some e.timestamp) s₁ a' := by
  obtain ⟨hlate, hascending⟩ := List.pairwise_cons.1 h.ascending
  have hnext : Recording handle events (processed + 1) (some e.timestamp) s₁ { a with
      source := .ofEvents events
      system := some s₁
      phase := .building handle (processed + 1) (some e.timestamp) } := by
    refine ⟨⟨h.wanted, h.patient⟩, rfl, rfl, rfl, ?_, hascending⟩
    rintro t ht e' he'
    obtain rfl := Option.some.inj ht
    exact hlate e' he'
  have hstep : a.step see folder = some (reportProgress (processed + 1) e.timestamp { a with
      source := .ofEvents events
      system := some s₁
      phase := .building handle (processed + 1) (some e.timestamp) }, folder) := by
    rw [h.building.step_event h.wanted, handleEvent_ok h.in_order hrecord]
  refine ⟨_, hstep, ?_⟩
  unfold reportProgress
  split
  · exact ⟨rfl, rfl, hnext.notify _⟩
  · exact ⟨rfl, rfl, hnext⟩

/-- An event that cannot be recorded fails the run. -/
theorem Recording.step_error {f : Failure} (h : Recording handle (e :: events) processed last s a)
    (hrecord : record handle e s = .error f s₁) (see : String → Option Analysis) (folder : Folder) :
    ∃ a', a.step see folder = some (a', folder) ∧ a'.id = a.id ∧ a'.phase = .over ∧
      a'.EndsAs (.error f s₁) := by
  have hstep : a.step see folder =
      some ({ a with source := .ofEvents events, system := some s₁ }.endFailed f.message,
        folder) := by
    rw [h.building.step_event h.wanted, handleEvent_error h.in_order hrecord]
  exact ⟨_, hstep, rfl, rfl, rfl, rfl⟩

/-- When the events are used up, closing the state system ends the run. -/
theorem Recording.conclude (h : Recording handle [] processed last s a)
    (see : String → Option Analysis) (folder : Folder) :
    ∃ a' folder', a.step see folder = some (a', folder') ∧ a'.id = a.id ∧ a'.phase = .over ∧
      a'.EndsAs (closing a.config.flushAtEnd s) := by
  rw [h.building.step_nothing h.wanted]
  cases hclosing : closing a.config.flushAtEnd s with
  | ok u s' =>
    rw [concluded_ok (a := { a with source := .ofEvents [] }) hclosing]
    exact ⟨_, _, rfl, rfl, rfl, rfl, rfl⟩
  | error f s' =>
    rw [concluded_error (a := { a with source := .ofEvents [] }) hclosing]
    exact ⟨_, _, rfl, rfl, rfl, rfl, rfl⟩

/-- **A quiet run over events in order ends as its work does**, which is to record them all and to
close. -/
theorem Recording.ends (h : Recording handle events processed last s a) {fuel : Nat}
    (hfuel : events.length < fuel) (folder : Folder) :
    ∃ a' folder', Session.settleLoop (fun _ _ => false) fuel ⟨[a], folder⟩ = ⟨[a'],
      folder'⟩ ∧ a'.id = a.id ∧
      a'.EndsAs (recordAll handle events a.config.flushAtEnd s) := by
  induction events generalizing a processed last s fuel with
  | nil =>
    obtain ⟨fuel, rfl⟩ : ∃ n, fuel = n + 1 := ⟨fuel - 1, by simp at hfuel; omega⟩
    obtain ⟨a', folder', hstep, hid, hover, hends⟩ :=
      h.conclude (Session.find? ⟨[a], folder⟩) folder
    exact ⟨a', folder', by rw [settleLoop_succ fuel hstep hid, settleLoop_over hover], hid, hends⟩
  | cons e events ih =>
    obtain ⟨fuel, rfl⟩ : ∃ n, fuel = n + 1 := ⟨fuel - 1, by simp at hfuel; omega⟩
    cases hrecord : record handle e s with
    | ok u s₁ =>
      obtain ⟨a₁, hstep, hid, hconfig, hnext⟩ := h.step hrecord (Session.find? ⟨[a], folder⟩) folder
      obtain ⟨a', folder', hloop, hid', hends⟩ := ih hnext (Nat.lt_of_succ_lt_succ hfuel)
      refine ⟨a', folder', by rw [settleLoop_succ fuel hstep hid, hloop], hid'.trans hid, ?_⟩
      rwa [recordAll_ok hrecord, ← hconfig]
    | error f s₁ =>
      obtain ⟨a', hstep, hid, hover, hends⟩ :=
        h.step_error hrecord (Session.find? ⟨[a], folder⟩) folder
      refine ⟨a', folder, by rw [settleLoop_succ fuel hstep hid, settleLoop_over hover], hid, ?_⟩
      rwa [recordAll_error hrecord]

/-! ## Whole runs -/

/-- A run without dependencies starts, and goes on with loading a saved history or starting its
provider. -/
theorem runAlone_of_opened {folder folder' : Folder} {a' : Analysis} (hphase : a.phase = .starting)
    (hdependencies : a.dependencies = [])
    (hloop : Session.settleLoop (fun _ _ => false) (a.source.reads.length + 1)
      ⟨[({ a with phase := .awaiting [] {} }.notify (.started a.id)).opened folder {}], folder⟩ =
        ⟨[a'], folder'⟩)
    (hid : (({ a with phase := .awaiting [] {} }.notify (.started a.id)).opened folder {}).id =
      a.id)
    (hid' : a'.id = a.id) : Session.runAlone a folder = (a', folder') := by
  let awaiting := { a with phase := .awaiting [] {} }.notify (.started a.id)
  have hawaiting : a.step (Session.find? ⟨[a], folder⟩) folder = some (awaiting, folder) := by
    simp only [Analysis.step, hphase, hdependencies, awaiting]
  have hopened : awaiting.step (Session.find? ⟨[awaiting], folder⟩) folder =
      some (awaiting.opened folder {}, folder) :=
    rfl
  have hsteps : a.stepsLeft = a.source.reads.length + 1 + 1 + 1 := by
    simp [stepsLeft, hphase, hdependencies]
  have hsettled : Session.settle ⟨[a], folder⟩ (fun _ _ => false) = ⟨[a'], folder'⟩ := by
    simp only [Session.settle, List.foldr_cons, List.foldr_nil, Nat.add_zero, hsteps]
    rw [settleLoop_succ _ hawaiting rfl, settleLoop_succ _ hopened hid, hloop]
  simp [Session.runAlone, hsettled, Session.find?, hid']

/-- A saved history that can be used ends the run. -/
theorem runAlone_of_loadHistory (hphase : a.phase = .starting) (hdependencies : a.dependencies = [])
    {folder : Folder} (hload : a.loadHistory folder = some s) : Session.runAlone a folder =
      (endCompleted 0 { { a with phase := .awaiting [] {} }.notify (.started a.id) with
        system := some s }, folder) := by
  let awaiting := { a with phase := .awaiting [] {} }.notify (.started a.id)
  have hopened : awaiting.opened folder {} = endCompleted 0 { awaiting with system := some s } := by
    have hload' : awaiting.loadHistory folder = some s := hload
    simp only [opened, hload']
  have hover : (awaiting.opened folder {}).phase = .over := by rw [hopened]; rfl
  have hid : (awaiting.opened folder {}).id = a.id := by rw [hopened]; rfl
  rw [runAlone_of_opened hphase hdependencies (settleLoop_over hover _) hid hid, hopened]

/-- A saved history that can be used is what the run comes to. -/
theorem runAlone_loaded (hphase : a.phase = .starting) (hdependencies : a.dependencies = [])
    {folder : Folder} (hload : a.loadHistory folder = some s) :
    (Session.runAlone a folder).1.outcome = .completed ∧
      (Session.runAlone a folder).1.system = some s := by
  rw [runAlone_of_loadHistory hphase hdependencies hload]
  exact ⟨rfl, rfl⟩

/-- The analysis that has started, has waited for nothing, and has started its provider. -/
def begun (handle : Handler) (a : Analysis) : Analysis :=
  { { a with phase := .awaiting [] {} }.notify (.started a.id) with
    system := some (.new a.id)
    phase := .building handle 0 none }

theorem building_begun (handle : Handler) (hsource : a.source = .ofEvents events) :
    Building handle events 0 none (.new a.id) (a.begun handle) := ⟨rfl, hsource, rfl⟩

theorem Quiet.begun (h : a.Quiet) (handle : Handler) : (a.begun handle).Quiet :=
  let hnotified :=
    Quiet.notify (a := { a with phase := .awaiting [] {} }) ⟨h.wanted, h.patient⟩ (.started a.id)
  ⟨hnotified.wanted, hnotified.patient⟩

/-- A run with nothing to wait for and nothing saved before builds its history. -/
theorem runAlone_of_begun (hphase : a.phase = .starting) (hdependencies : a.dependencies = [])
    (hsource : a.source = .ofEvents events) {folder folder' : Folder}
    (hfresh : a.loadHistory folder = none) (hstart : a.provider.start {} = .ok handle)
    {a' : Analysis}
    (hloop : Session.settleLoop (fun _ _ => false) (events.length + 1) ⟨[a.begun handle], folder⟩ =
      ⟨[a'], folder'⟩)
    (hid : a'.id = a.id) : Session.runAlone a folder = (a', folder') := by
  let awaiting := { a with phase := .awaiting [] {} }.notify (.started a.id)
  have hopened : awaiting.opened folder {} = a.begun handle := by
    have hload : awaiting.loadHistory folder = none := hfresh
    have hstart' : awaiting.provider.start {} = .ok handle := hstart
    simp only [opened, hload, hstart']
    rfl
  have hreads : a.source.reads.length = events.length := by simp [hsource, Source.ofEvents]
  rw [← hreads, ← hopened] at hloop
  have hid' : (awaiting.opened folder {}).id = a.id := by
    rw [hopened]
    rfl
  exact runAlone_of_opened hphase hdependencies hloop hid' hid

/-- **A run that nobody calls off ends as its work does** when nothing was saved before, its
provider starts and its events come in order. -/
theorem runAlone_ends (hquiet : a.Quiet) (hphase : a.phase = .starting)
    (hdependencies : a.dependencies = []) (hsource : a.source = .ofEvents events) {folder : Folder}
    (hfresh : a.loadHistory folder = none) (hstart : a.provider.start {} = .ok handle)
    (hascending : events.Pairwise (·.timestamp ≤ ·.timestamp)) :
    (Session.runAlone a folder).1.EndsAs
      (recordAll handle events a.config.flushAtEnd (.new a.id)) := by
  have hrecording : Recording handle events 0 none (.new a.id) (a.begun handle) :=
    ⟨hquiet.begun handle, rfl, hsource, rfl, by simp, hascending⟩
  obtain ⟨a', folder', hloop, hid, hends⟩ := hrecording.ends (Nat.lt_succ_self events.length) folder
  rwa [runAlone_of_begun hphase hdependencies hsource hfresh hstart hloop hid]

/-- A run that can record all its events and close its state system completes. -/
theorem runAlone_completed (hquiet : a.Quiet) (hphase : a.phase = .starting)
    (hdependencies : a.dependencies = []) (hsource : a.source = .ofEvents events) {folder : Folder}
    (hfresh : a.loadHistory folder = none) (hstart : a.provider.start {} = .ok handle)
    (hascending : events.Pairwise (·.timestamp ≤ ·.timestamp))
    (hrecord : events.forM (record handle) (.new a.id) = .ok () s)
    (hclosing : closing a.config.flushAtEnd s = .ok () s') :
    (Session.runAlone a folder).1.outcome = .completed ∧
      (Session.runAlone a folder).1.system = some s' := by
  have hends := runAlone_ends hquiet hphase hdependencies hsource hfresh hstart hascending
  rwa [recordAll, bind_of_ok hrecord, hclosing] at hends

/-- An analysis without dependencies can be scheduled. -/
theorem schedule_idle (hphase : a.phase = .idle) (hdependencies : a.dependencies = []) :
    a.schedule = .ok { a with outcome := .running, phase := .starting } := by
  simp [schedule, scheduleAfter, hdependencies, hphase]

end

end Analysis

end StateHistory
