import StateHistory.Analysis.Session
import StateHistory.Proofs.Analysis.Quiet
import StateHistory.Proofs.CallStack.Recorded

/-!
# Call stacks of a whole run

What a run records of its threads, seen from outside: the stack of a thread holds at every time what
the entries and exits of this thread alone come down to, however the events of all threads are
interleaved (`stacks_recorded`).
-/

namespace StateHistory.CallStack

open Store StateSystem Touch

section
variable {events : List Event}

/-- **Events in order are recorded, and the state system can be closed then.** -/
theorem recorded_closed (hcount : Value.fitsLong events.length = true)
    (hascending : events.Pairwise (·.timestamp ≤ ·.timestamp))
    (hlatest : ∀ e ∈ events, e.timestamp ≤ Time.latest)
    (hends : ∀ e ∈ events, e.name = "entry" → ∀ stop, e.fieldLong "end" = some stop →
      e.timestamp ≤ stop)
    (id : String) :
    ∃ s s' store now, events.forM (Analysis.record handle) (.new id) = .ok () s ∧
      Analysis.closing true s = .ok () s' ∧ s'.disposed = false ∧
      s'.store = store.ended (store.stop.elim 0 Time.after) ∧
      Tracked store [] now (fun p => replay (events.filter (path · = p))) ∧ ∀ e ∈ events,
      Seen store e := by
  obtain ⟨start, hstart, hfirst⟩ := exists_start hascending hlatest
  have hnew : Keeps (.new id) start fun _ => {} := ⟨rfl, tracked_new start⟩
  obtain ⟨s, now, hrecord, hnow, hkeeps, -, hseen⟩ :=
    hnew.recorded hstart hascending hfirst hlatest hends fun p => by simpa [pushes] using hcount
  obtain ⟨s', store, now', hclosing, hlive, hstore, htracked, steps, htrail⟩ := hkeeps.closing hnow
  refine ⟨s, s', store, now', hrecord, hclosing, hlive, hstore, htracked, fun e he => ?_⟩
  exact (hseen e he).trail htrail hkeeps.tracked.linked htracked.building

end

/-- **The stacks that an analysis records are those of its threads.** A run over events in order,
none of them at the latest time and none that ends before it begins, completes when nobody calls it
off and it applies at its end what still waits. From the first event to the last, the top of the
stack of each thread that enters or leaves a function is then the top of what the events of this
thread alone have put on a stack by that time. The run has events to record only if no history was
saved before, and 64 bits count the events of any list in memory. -/
theorem stacks_recorded (a : Analysis) (folder : Folder) (events : List Event)
    (hprovider : a.provider = provider) (hsource : a.source = .ofEvents events)
    (hphase : a.phase = .idle) (hdependencies : a.dependencies = [])
    (hflush : a.config.flushAtEnd = true) (hquiet : a.Quiet) (hfresh : a.loadHistory folder = none)
    (hcount : Value.fitsLong events.length = true)
    (hascending : events.Pairwise (·.timestamp ≤ ·.timestamp))
    (hlatest : ∀ last ∈ events.getLast?, last.timestamp < Time.latest)
    (hends : ∀ e ∈ events, e.name = "entry" → ∀ stop, e.fieldLong "end" = some stop →
      e.timestamp ≤ stop) :
    ∃ ready, a.schedule = .ok ready ∧ (Session.runAlone ready folder).1.outcome = .completed ∧
      ∃ system, (Session.runAlone ready folder).1.system = some system ∧
        ∀ e ∈ events, e.name = "entry" ∨ e.name = "exit" →
          ∀ first ∈ events.head?, ∀ last ∈ events.getLast?, ∀ t, first.timestamp ≤ t →
          t ≤ last.timestamp →
            ∃ q found, system.locate .root (path e) = .ok q ∧
            system.query (Store.top t q) = .ok found ∧
              found.map (·.value) =
                (stackBy (touches (events.filter (path · = path e))) t).head? := by
  have hbound : ∀ e ∈ events, e.timestamp ≤ Time.latest := by
    intro e he
    have hlast := List.getLast?_eq_some_getLast (List.ne_nil_of_mem he)
    exact Int.le_of_lt (Int.lt_of_le_of_lt (le_last hascending he hlast) (hlatest _ hlast))
  let ready : Analysis := { a with outcome := .running, phase := .starting }
  have hready : a.schedule = .ok ready := by
    simp [Analysis.schedule, Analysis.scheduleAfter, hdependencies, hphase, ready]
  obtain ⟨s, s', store, now, hrecord, hclosing, hlive, hstore, htracked, hseen⟩ :=
    recorded_closed hcount hascending hbound hends a.id
  have hstart : ready.provider.start {} = .ok handle := by
    change a.provider.start {} = _
    rw [hprovider]
    rfl
  obtain ⟨houtcome, hsystem⟩ :=
    Analysis.runAlone_completed (a := ready) ⟨hquiet.wanted, hquiet.patient⟩ rfl hdependencies
    hsource hfresh hstart hascending hrecord (hflush.symm ▸ hclosing)
  refine ⟨ready, hready, houtcome, s', hsystem,
    fun e he hname first hfirst last hlast t hle hle' => ?_⟩
  obtain ⟨q, hq⟩ := (hseen e he).located hname
  have hreaches : store.Reaches first.timestamp last.timestamp :=
    ⟨(hseen first (List.mem_of_mem_head? hfirst)).reaches.start_le,
      (hseen last (List.mem_of_mem_getLast? hlast)).reaches.le_stop⟩
  obtain ⟨found, hfound, hvalue⟩ :=
    htracked.top_ended (length_path e) hq hreaches hle hle' (hlatest last hlast)
  refine ⟨q, found, locate_of_descend hlive ?_ ?_, ?_, hvalue⟩
  · rw [hstore, tree_ended]
    exact htracked.linked.contains_root
  · rw [hstore, tree_ended, hq]
  · rw [query_of_live hlive, hstore, hfound]

/-- Two threads by turns: ends that wait and come at one time, an exit that finds nothing, one that
takes off what has an end, and a thread that is not told. -/
def interleaved : List Event :=
  [⟨10, "entry", [("end", .int 40), ("function", .string "f"), ("pid", .int 1), ("tid", .int 1)]⟩,
    ⟨20, "entry", [("end", .int 40), ("function", .string "g"), ("pid", .string "1"),
      ("tid", .int 1)]⟩,
    ⟨20, "entry", [("end", .int 30), ("function", .string "h"), ("pid", .int 1), ("tid", .int 2)]⟩,
    ⟨25, "exit", [("pid", .int 1), ("tid", .int 2)]⟩,
    ⟨25, "exit", [("pid", .array []), ("tid", .int 2)]⟩,
    ⟨35, "mark", []⟩,
    ⟨35, "entry", [("function", .string "i"), ("pid", .int 1), ("tid", .int 1)]⟩,
    ⟨50, "entry", [("end", .int 60), ("function", .null), ("pid", .int 1), ("tid", .int 2)]⟩]

theorem stacks_recorded_interleaved :
    ∃ ready, Analysis.schedule ⟨"calls", provider, .ofEvents interleaved, [], {}, [], .pending,
      false, none, .idle⟩ =
        .ok ready ∧
      (Session.runAlone ready {}).1.outcome = .completed ∧ ∃ system,
        (Session.runAlone ready {}).1.system = some system ∧
        ∃ q found, system.locate .root ["Processes", "1", "1", "CallStack"] = .ok q ∧
          system.query (Store.top 45 q) = .ok found ∧ found.map (·.value) = some (.string "f") := by
  obtain ⟨ready, hready, houtcome, system, hsystem, htops⟩ := stacks_recorded
    ⟨"calls", provider, .ofEvents interleaved, [], {}, [], .pending, false, none, .idle⟩
      {} interleaved rfl rfl rfl rfl
    rfl ⟨rfl, by simp⟩ rfl (by decide) (by decide) (by decide) (by decide +kernel)
  obtain ⟨q, found, hq, hfound, hvalue⟩ :=
    htops interleaved[0] (by simp [interleaved]) (by decide) _ rfl _ rfl 45
    (by decide) (by decide)
  exact ⟨ready, hready, houtcome, system, hsystem, q, found, hq, hfound,
    hvalue.trans (by decide +kernel)⟩

end StateHistory.CallStack
