import StateHistory.Proofs.Analysis.LastValues
import StateHistory.Proofs.Analysis.Told
import StateHistory.Proofs.Archive.Reloaded
import StateHistory.Proofs.Archive.Replaced
import StateHistory.Proofs.StateSystem.Question

/-!
# Saved histories are transparent

Where a history is saved makes no difference to a run that builds it: the run takes the same steps
and comes to the same end (`runAlone_persisting`). What it then saves is what the next run loads, so
that run comes at once to a state system that gives the same answers (`persisted_history`).
-/

namespace StateHistory.Analysis

open StateSystem

/-- The analysis with its history saved in a directory. -/
def persisting (dir : String) (a : Analysis) : Analysis :=
  { a with config := { a.config with persistDir := some dir } }

/-- The provider has been started, or the run is over. -/
inductive Late (a : Analysis) : Prop
  | building {handle : Handler} {processed : Nat} {last : Option Time}
      (h : a.phase = .building handle processed last)
  | over (h : a.phase = .over)

section
variable {a a' ready saving : Analysis} {events : List Event} {dir : String}
  {folder folder' elsewhere : Folder}

/-! ## The same steps -/

theorem late_reportProgress (h : a.Late) (n : Nat) (t : Time) : (a.reportProgress n t).Late := by
  unfold reportProgress
  split
  · cases h with
    | building h => exact .building h
    | «over» h => exact .over h
  · exact h

theorem late_build (handle : Handler) (processed : Nat) (last : Option Time) (folder : Folder) :
    (a.build handle processed last folder).1.Late := by
  unfold build
  split
  · exact .over rfl
  · cases a.source.next with
    | mk read source =>
      cases read with
      | event e =>
        simp only [handleEvent]
        split
        · exact .over rfl
        · split
          · exact .over rfl
          · exact late_reportProgress (.building rfl) _ _
      | nothing =>
        simp only [concluded]
        split <;> exact .over rfl
      | failure f => exact .over rfl

theorem reportProgress_persisting (n : Nat) (t : Time) :
    (a.persisting dir).reportProgress n t = (a.reportProgress n t).persisting dir := by
  have hinterval : (a.persisting dir).config.progressInterval = a.config.progressInterval := rfl
  unfold reportProgress
  rw [hinterval]
  split <;> rfl

theorem build_persisting (handle : Handler) (processed : Nat) (last : Option Time)
    (folder folder' : Folder) :
    ((a.persisting dir).build handle processed last folder').1 =
      (a.build handle processed last folder).1.persisting dir := by
  have hcancel : (a.persisting dir).cancelRequested = a.cancelRequested := rfl
  have hsystem : (a.persisting dir).system.getD (.new (a.persisting dir).id) =
      a.system.getD (.new a.id) := rfl
  have hsource : (a.persisting dir).source = a.source := rfl
  unfold build
  rw [hcancel, hsystem, hsource]
  split
  · rfl
  · cases a.source.next with
    | mk read source =>
      cases read with
      | event e =>
        simp only [handleEvent]
        split
        · rfl
        · split
          · rfl
          · rename_i s hrecord
            exact reportProgress_persisting (a := { a with
              source
              system := some s
              phase := .building handle (processed + 1) (some e.timestamp) }) _ _
      | nothing =>
        have hflush : (a.persisting dir).config.flushAtEnd = a.config.flushAtEnd := rfl
        simp only [concluded, hflush]
        split <;> rfl
      | failure f => rfl

/-- From then on the steps are the same, whatever the folders are. -/
theorem Late.settleLoop_persisting (h : a.Late) (dir : String) (fuel : Nat)
    (folder folder' : Folder) :
    ∃ a' f f', Session.settleLoop (fun _ _ => false) fuel ⟨[a], folder⟩ = ⟨[a'], f⟩ ∧
      Session.settleLoop (fun _ _ => false) fuel ⟨[a.persisting dir],
        folder'⟩ = ⟨[a'.persisting dir], f'⟩ ∧
      a'.id = a.id := by
  induction fuel generalizing a folder folder' with
  | zero => exact ⟨a, folder, folder', rfl, rfl, rfl⟩
  | succ fuel ih =>
    cases h with
    | @building handle processed last h =>
      have hstep : ∀ see, a.step see folder = some
          ((a.build handle processed last folder).1, (a.build handle processed last folder).2) := by
        simp [step, h]
      have hstep' : ∀ see, (a.persisting dir).step see folder' = some
          ((a.build handle processed last folder).1.persisting dir,
            ((a.persisting dir).build handle processed last folder').2) := by
        intro see
        rw [← build_persisting handle processed last folder folder']
        have hphase : (a.persisting dir).phase = .building handle processed last := h
        simp [step, hphase]
      have hid : (a.build handle processed last folder).1.id = a.id :=
        (alike_build handle processed last folder).id_eq
      obtain ⟨a', f, f', hloop, hloop', hid'⟩ := ih (late_build handle processed last folder)
        (a.build handle processed last folder).2
          ((a.persisting dir).build handle processed last folder').2
      refine ⟨a', f, f', ?_, ?_, hid'.trans hid⟩
      · rw [settleLoop_succ fuel (hstep _) hid, hloop]
      · rw [settleLoop_succ fuel (hstep' _) hid, hloop']
    | «over» h => exact ⟨a, folder, folder', settleLoop_over h _,
        settleLoop_over (a := a.persisting dir) h _, rfl⟩

theorem loadHistory_of_memory (h : a.config.persistDir = none) (folder : Folder) :
    a.loadHistory folder = none := by
  simp [loadHistory, historyPath, h]

theorem loadHistory_persisting : (a.persisting dir).loadHistory folder =
    (Archive.load (Archive.pathOf dir a.id) a.provider.version
      (folder.read (Archive.pathOf dir a.id))).toOption := by
  unfold loadHistory historyPath
  rfl

/-- **Saving makes no difference to a run** that has to build its history. -/
theorem runAlone_persisting (hphase : a.phase = .starting) (hdependencies : a.dependencies = [])
    (hmemory : a.config.persistDir = none)
    (hunusable : (a.persisting dir).loadHistory folder' = none) (folder : Folder) :
    (Session.runAlone (a.persisting dir) folder').1 =
      (Session.runAlone a folder).1.persisting dir := by
  let awaiting := { a with phase := .awaiting [] {} }.notify (.started a.id)
  have hload : awaiting.loadHistory folder = none := loadHistory_of_memory hmemory folder
  have hload' : (awaiting.persisting dir).loadHistory folder' = none := hunusable
  have hopened : (awaiting.opened folder {}).Late ∧
      (awaiting.persisting dir).opened folder' {} = (awaiting.opened folder {}).persisting dir := by
    have hprovider : (awaiting.persisting dir).provider = awaiting.provider := rfl
    simp only [opened, hload, hload', hprovider]
    split
    · exact ⟨.building rfl, rfl⟩
    · exact ⟨.over rfl, rfl⟩
  obtain ⟨a', f, f', hloop, hloop', hid'⟩ :=
    hopened.1.settleLoop_persisting dir (a.source.reads.length + 1) folder folder'
  rw [← hopened.2] at hloop'
  have hid : (awaiting.opened folder {}).id = a.id := (alike_opened folder {}).id_eq
  have hid₂ : ((awaiting.persisting dir).opened folder' {}).id = a.id :=
    (alike_opened folder' {}).id_eq
  rw [runAlone_of_opened hphase hdependencies hloop hid (hid'.trans hid),
    runAlone_of_opened (a := a.persisting dir) hphase hdependencies hloop' hid₂ (hid'.trans hid)]

/-! ## What is told -/

theorem scheduleAfter_of_schedule (h : a.schedule = .ok ready) : a.scheduleAfter = .ok ready := by
  unfold schedule at h
  split at h
  · exact h
  · cases h

/-- All reads of a source of events that comes to its end are of these events. -/
theorem eq_of_reads {es : List Event} {rest : List Read}
    (h : (Source.ofEvents events).reads = es.map .event ++ rest)
    (hend : (Source.next ⟨rest⟩).1 = .nothing) : es = events := by
  have hreads : events.map .event = es.map .event ++ rest := h
  cases rest with
  | nil =>
    rw [List.append_nil] at hreads
    exact (List.map_injective_iff.2 (fun _ _ => Read.event.inj) hreads).symm
  | cons r rest =>
    -- another read would have to be of an event
    obtain rfl : r = .nothing := hend
    have hmem : Read.nothing ∈ events.map Read.event := by simp [hreads]
    simp at hmem

/-- A run in memory that completes has told of all its events. -/
theorem told_completed {k : Stock} (hprovider : a.provider = k.provider)
    (hready : a.schedule = .ok ready) (hnew : a.system = none)
    (hsource : a.source = .ofEvents events) (hmemory : a.config.persistDir = none)
    (hcompleted : (Session.runAlone ready folder).1.outcome = .completed) :
    (Session.runAlone ready folder).1.listeners = a.listeners.map
      (·.hearAll (.started a.id :: milestones a.id a.interval events ++
        [.completed a.id events.length])) := by
  have hrun :=
    Relation.ReflTransGen.mono
    (fun _ _ h => Move.proceed h) _ _ (Session.proceeds_runAlone ready folder)
  obtain ⟨basis, es, ns, h, hdecided⟩ :=
    course_run (scheduleAfter_of_schedule hready) hnew hprovider hrun
  have hnot : (Session.runAlone ready folder).1.outcome ≠ .running := by
    rw [hcompleted]
    simp
  cases h.stage with
  | starting _ _ hrunning _ => exact absurd hrunning hnot
  | awaiting _ _ hrunning _ => exact absurd hrunning hnot
  | building _ _ _ _ hrunning _ => exact absurd hrunning hnot
  | @ended _ _ rest final hphase hreads hasked hagrees hcounts =>
    cases final with
    | completed id n =>
      rcases hcounts with ⟨rfl, -⟩ | ⟨-, rfl, hend⟩
      · -- in memory there is nothing to be found when the run opens
        obtain ⟨b, elsewhere, ⟨-, hbefore, -⟩, hbasis⟩ := hdecided (by simp)
        obtain ⟨_, _, _, hb, -⟩ :=
          course_run (scheduleAfter_of_schedule hready) hnew hprovider hbefore
        rw [loadHistory_of_memory (by rw [hb.config_eq, hmemory]) elsewhere] at hbasis
        cases hbasis
      · rw [hsource] at hreads
        obtain rfl := eq_of_reads hreads (congrArg Prod.fst hend)
        rw [h.listeners_eq, hagrees.1, h.id_eq, messages, interval]
    | cancelled id => exact absurd (hcompleted.symm.trans hagrees.2.1) (by simp)
    | failed id reason => exact absurd (hcompleted.symm.trans hagrees.2.1) (by simp)
    | started id => exact hagrees.elim
    | progress id n t => exact hagrees.elim

/-! ## Building, and then loading -/

/-- What a run leaves that completes by building, with a stock provider and events at times of 64
bits, comes back from its file. -/
theorem Builds.load_saved {handle : Handler} {s₀ s : StateSystem}
    (h : Builds handle events a folder (.new a.id) s₀ s folder') (k : Stock)
    (hstart : k.provider.start {} = .ok handle) (hrange : ∀ e ∈ events, e.timestamp.InRange)
    (hid : MessagePack.FitsString a.id) (hcount : s.store.image.Countable) (version : UInt32) :
    s.status = .built ∧ ∃ bytes, Archive.save version s = .ok bytes ∧
      ∀ path, Archive.load path version (some bytes) = .ok { s with deferred := {} } := by
  obtain ⟨s₁, -, hunderway, rfl⟩ := h.underway k hstart hrange
  have hle : ∀ stop, s₁.store.stop = some stop → stop ≤ s₁.store.stop.elim 0 Time.after := by
    intro stop hstop
    have hlatest := (hunderway.dated.stop_inRange stop hstop).2
    rw [hstop, Option.elim_some, Time.after]
    lia
  have hlawful := hunderway.lawful.takes (.close hle)
  have hranged := hunderway.dated.toRanged.ended hunderway.dated.toRanged.closingTime
  have hname : s₁.id = a.id := hunderway.progress.id_eq
  have hbuilt :
      ((s₁.publish (s₁.store.ended (s₁.store.stop.elim 0 Time.after))).finish .built).status =
      .built := by
    have hbuilding : s₁.status = .building := hunderway.building
    simp [finish, publish, hbuilding, Status.isFinished]
  have hsettled : ∀ q, ((s₁.store.ended (s₁.store.stop.elim 0 Time.after)).timelineOf q).ongoing =
      none := by
    intro q
    rw [Store.timelineOf_ended]
    exact Timeline.close_ongoing _
  refine ⟨hbuilt, ?_⟩
  exact Archive.load_saved hlawful hranged rfl hsettled hbuilt hunderway.live
    rfl (by rwa [← hname] at hid) hcount version

/-- What a run saves is loaded by the next. -/
theorem saved_then_loaded (k : Stock) (hprovider : a.provider = k.provider)
    (hphase : a.phase = .starting) (hdependencies : a.dependencies = [])
    (hsource : a.source = .ofEvents events) (hrange : ∀ e ∈ events, e.timestamp.InRange)
    (hmemory : a.config.persistDir = none)
    (hcompleted : (Session.runAlone a elsewhere).1.outcome = .completed)
    (hcount : ∀ s, (Session.runAlone a elsewhere).1.system = some s → s.store.image.Countable)
    (hunusable : (a.persisting dir).loadHistory folder = none)
    (haccepts : folder.Accepts (Archive.draftOf (Archive.pathOf dir a.id))
      (Archive.pathOf dir a.id)) :
    ∃ s folder', (Session.runAlone a elsewhere).1.system = some s ∧ s.status = .built ∧
      Session.runAlone (a.persisting dir) folder =
        ((Session.runAlone a elsewhere).1.persisting dir, folder') ∧
      (a.persisting dir).loadHistory folder' = some { s with deferred := {} } := by
  have hstart : ∃ handle, k.provider.start {} = .ok handle := by
    cases k <;> exact ⟨_, rfl⟩
  obtain ⟨handle, hstart⟩ := hstart
  have hstart' : (a.persisting dir).provider.start {} = .ok handle := hprovider ▸ hstart
  have hsame := runAlone_persisting hphase hdependencies hmemory hunusable elsewhere
  have hcompleted' : (Session.runAlone (a.persisting dir) folder).1.outcome = .completed := by
    rw [hsame]
    exact hcompleted
  -- the run that saves has recorded all events, so its state system is as loading expects it
  obtain ⟨s₀, s, hbuilds, hsystem⟩ :=
    runAlone_built (a := a.persisting dir) hphase hdependencies hsource hunusable hstart'
    hcompleted'
  have hsystem' : (Session.runAlone a elsewhere).1.system = some s := by
    rw [hsame] at hsystem
    exact hsystem
  obtain ⟨hbuilt, bytes, hsave, hload⟩ := hbuilds.load_saved k hstart hrange
    (Archive.fitsString_of_isPath haccepts.path_free.isPath) (hcount s hsystem') a.provider.version
  have hsaved : (Session.runAlone (a.persisting dir) folder).2 =
      folder.replace (Archive.draftOf (Archive.pathOf dir a.id))
        (Archive.pathOf dir a.id) bytes := by
    rw [hbuilds.saved, saveHistory, show (a.persisting dir).provider.version =
      a.provider.version from rfl, hsave]
    rfl
  have hread := Folder.read_replace haccepts bytes
  refine ⟨s, (Session.runAlone (a.persisting dir) folder).2, hsystem', hbuilt,
    Prod.ext hsame rfl, ?_⟩
  rw [loadHistory_persisting, hsaved, hread, hload]
  rfl

/-- **Saved histories are transparent.** Take a run in memory, with a stock provider, that completes
with a history that can be counted. If the history is to be saved in a directory where nothing is in
the way, and what is there cannot be used, the run completes all the same, by handling all its
events, and with the same state system. Another run then completes by loading, with no event
handled. It leaves the folder as it is, and its state system gives the same answers to all
questions. -/
theorem persisted_history (k : Stock) (hprovider : a.provider = k.provider) (hnew : a.system = none)
    (hsource : a.source = .ofEvents events) (hrange : ∀ e ∈ events, e.timestamp.InRange)
    (hmemory : a.config.persistDir = none) (hready : a.schedule = .ok ready) (elsewhere : Folder)
    (hcompleted : (Session.runAlone ready elsewhere).1.outcome = .completed)
    (hcount : ∀ s, (Session.runAlone ready elsewhere).1.system = some s → s.store.image.Countable)
    (hsaving : (a.persisting dir).schedule = .ok saving)
    (hunusable : (a.persisting dir).loadHistory folder = none)
    (haccepts : folder.Accepts (Archive.draftOf (Archive.pathOf dir a.id))
      (Archive.pathOf dir a.id)) :
    ∃ s first second folder' loaded, (Session.runAlone ready elsewhere).1.system = some s ∧
      s.isBuilt = true ∧
      Session.runAlone saving folder = (first, folder') ∧ first.outcome = .completed ∧
      first.system = some s ∧
      first.listeners = a.listeners.map
        (·.hearAll (.started a.id :: milestones a.id a.interval events ++
          [.completed a.id events.length])) ∧
      Session.runAlone saving folder' = (second, folder') ∧ second.outcome = .completed ∧
        second.system = some loaded ∧
      second.listeners = a.listeners.map (·.hearAll [.started a.id, .completed a.id 0]) ∧
      loaded.id = s.id ∧ loaded.status = s.status ∧ ∀ question : Question,
      question.ask loaded = question.ask s := by
  have htold := told_completed hprovider hready hnew hsource hmemory hcompleted
  obtain ⟨hdependencies, hready⟩ := of_schedule hready
  obtain ⟨-, hsaving⟩ := of_schedule hsaving
  have hsaving : saving = ready.persisting dir := by
    rw [hsaving, hready]
    rfl
  obtain ⟨s, folder', hsystem, hbuilt, hfirst, hload⟩ :=
    saved_then_loaded (a := ready) k (by rw [hready, hprovider])
    (by rw [hready]) (by rw [hready, hdependencies]) (by rw [hready, hsource]) hrange
      (by rw [hready, hmemory]) hcompleted
    hcount (by rwa [hready]) (by rwa [hready])
  have hsecond := runAlone_of_loadHistory (a := ready.persisting dir) (by rw [hready]; rfl)
    (by rw [hready]; exact hdependencies) hload
  rw [← hsaving] at hfirst hsecond
  refine ⟨s, _, _, folder', _, hsystem, ?_, hfirst, hcompleted, hsystem, htold, hsecond, rfl,
    rfl, ?_, rfl, rfl, fun question => ?_⟩
  · rw [isBuilt, hbuilt]
    rfl
  · rw [hsaving, hready]
    simp [endCompleted, notify, persisting, Listener.tell, Listener.hear, Listener.hearAll,
      Function.comp_def]
  · exact Question.ask_congr rfl question

end

/-- An analysis of some calls that someone listens to. -/
def heardCalls : Analysis :=
  { caller (callsUntil 15) with outcome := .pending, phase := .idle, listeners := [{}] }

/-- A folder where something else stands in the place of the saved history. -/
def spoiled : Folder := ⟨[(["cache"], .directory), (["cache", "calls.ht"], .file [0, 1, 103])]⟩

theorem accepts_spoiled :
    spoiled.Accepts (Archive.draftOf (Archive.pathOf "cache" "calls"))
      (Archive.pathOf "cache" "calls") := by
  have hpath : Archive.pathOf "cache" "calls" = "cache/calls.ht" := by decide +kernel
  have hdraft : Archive.draftOf "cache/calls.ht" = "cache/calls.ht.tmp" := by decide +kernel
  rw [hpath, hdraft]
  have hway : spoiled.makeParents "cache/calls.ht" = (some ["cache"], spoiled) := by
    have hnames : (Folder.names "cache/calls.ht").dropLast = ["cache"] := by decide +kernel
    have horigin : Folder.origin "cache/calls.ht" = [] := by decide +kernel
    have hdir : Folder.isPath ("/".intercalate ["cache"]) = true := by
      rw [Folder.isPath_eq]
      decide +kernel
    simp only [Folder.makeParents, hnames, horigin, hdir, ↓reduceIte]
    rfl
  refine ⟨by rw [hway]; rfl, ?_, ?_⟩
  · rw [hway]
    refine ⟨["cache", "calls.ht.tmp"], ?_, by decide⟩
    rw [Folder.locate, Folder.isPath_eq]
    decide +kernel
  · rw [hway]
    refine ⟨["cache", "calls.ht"], ?_, by decide⟩
    rw [Folder.locate, Folder.isPath_eq]
    decide +kernel

/-- The history is built from two events and saved over what stood there, and the next run loads
it. -/
theorem persisted_history_spoiled :
    (heardCalls.persisting "cache").loadHistory spoiled = none ∧
    ∃ saving first second folder' loaded, (heardCalls.persisting "cache").schedule = .ok saving ∧
      Session.runAlone saving spoiled = (first, folder') ∧
      first.listeners.map (·.inbox) = [some [.started "calls", .completed "calls" 2]] ∧
      Session.runAlone saving folder' = (second, folder') ∧ second.system = some loaded ∧
      second.listeners.map (·.inbox) = [some [.started "calls", .completed "calls" 0]] ∧
      Question.ask loaded (.single 20 ⟨8⟩) = .ok (.interval (some ⟨⟨8⟩, 20, 20, .int 1⟩)) := by
  have hread : spoiled.read (Archive.pathOf "cache" "calls") = some [0, 1, 103] := by
    refine Folder.read_of_locate (l := ["cache", "calls.ht"]) ?_ (by decide)
    rw [Folder.locate, Folder.isPath_eq]
    decide +kernel
  have hunusable : (heardCalls.persisting "cache").loadHistory spoiled = none := by
    rw [loadHistory_persisting]
    change (Archive.load _ _ (spoiled.read (Archive.pathOf "cache" "calls"))).toOption = none
    rw [hread]
    decide +kernel
  have hcompleted : (Session.runAlone { heardCalls with
      outcome := .running, phase := .starting } {}).1.outcome =
      .completed := by decide +kernel
  have hcount : ∀ s, (Session.runAlone { heardCalls with
      outcome := .running, phase := .starting } {}).1.system = some s →
      s.store.image.Countable ∧
      Question.ask s (.single 20 ⟨8⟩) = .ok (.interval (some ⟨⟨8⟩, 20, 20, .int 1⟩)) := by
    have hall : (Session.runAlone { heardCalls with
        outcome := .running, phase := .starting } {}).1.system.all (fun s =>
        decide (s.store.image.Countable ∧
          Question.ask s (.single 20 ⟨8⟩) = .ok (.interval (some ⟨⟨8⟩, 20, 20, .int 1⟩)))) =
            true := by decide +kernel
    intro s hs
    rw [hs] at hall
    exact of_decide_eq_true hall
  obtain ⟨s, first, second, folder', loaded, hsystem, -, hfirst, -, -, htold, hsecond, -, hloaded,
      htold', -, -, hsame⟩ :=
    persisted_history (a := heardCalls) .callStack rfl rfl rfl (by decide) rfl rfl {} hcompleted
      (fun s hs => (hcount s hs).1) rfl hunusable accepts_spoiled
  refine ⟨hunusable, _, first, second, folder', loaded, rfl, hfirst, ?_, hsecond, hloaded, ?_, ?_⟩
  · rw [htold]
    decide +kernel
  · rw [htold']
    decide +kernel
  · rw [hsame, (hcount s hsystem).2]

end StateHistory.Analysis
