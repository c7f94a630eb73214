import StateHistory.Analysis.Session
import StateHistory.Proofs.CallStack.Recorded

/-!
# Entries that end before they begin

Nothing keeps an entry from telling an end before its own time. Its pop then goes to the front of
the queue, and the store refuses it whenever it is tried, as the stack was just written at a later
time (`Doomed`). That failure is fatal, so what one event says ends the whole recording, unless this
is the last event and what still waits is dropped at the end. No other event can end a run
(`outcome_run`).
-/

namespace StateHistory.CallStack

open StateSystem Touch
open Analysis (recordAll)

/-- An entry that tells an end before its own time. -/
def EndsEarly (e : Event) : Prop :=
  e.name = "entry" ∧ ∃ stop ∈ e.fieldLong "end", stop < e.timestamp

instance (e : Event) : Decidable (EndsEarly e) :=
  inferInstanceAs (Decidable (e.name = "entry" ∧ ∃ stop ∈ e.fieldLong "end", stop < e.timestamp))

/-- The events after which the queue is looked at again: all of them if what waits at the end is
made, and otherwise all but the last. -/
def lookedAfter (flushAtEnd : Bool) (events : List Event) : List Event :=
  if flushAtEnd then events else events.dropLast

/-- The next change is a pop that is refused for its order. -/
structure Doomed (s : StateSystem) (c : Change) (last : Time) : Prop where
  live : s.disposed = false
  next : ∃ rest, s.deferred.changes = c :: rest
  kind_eq : c.kind = .pop
  refused : Store.pop c.time c.quark s.store =
    .error (.orderingViolation (some c.quark) c.time last) s.store

section
variable {s s₁ s' : StateSystem} {now t last stop : Time} {replays : List String → Replay}
  {q : Quark} {e : Event} {events : List Event} {c : Change} {flushAtEnd : Bool}

theorem le_of_not_endsEarly (h : ¬ EndsEarly e) (hname : e.name = "entry") (stop : Time)
    (hstop : e.fieldLong "end" = some stop) : e.timestamp ≤ stop :=
  Int.not_lt.1 fun hlt => h ⟨hname, stop, hstop, hlt⟩

/-! ## A pop that is refused -/

/-- The refusal ends the flush in which the pop is due. -/
theorem Doomed.flush (h : Doomed s c last) (hdue : c.time ≤ t) :
    ∃ s', StateSystem.flush t s = .error (.orderingViolation (some c.quark) c.time last) s' := by
  obtain ⟨rest, hchanges⟩ := h.next
  let s' := { s with deferred := ⟨rest⟩ }.publish s.store
  have happly : apply c { s with deferred := ⟨rest⟩ } =
      .error (.orderingViolation (some c.quark) c.time last) s' := by
    simp only [apply, h.kind_eq]
    exact bind_of_error (edit_of_error h.live h.refused)
  refine ⟨s', ?_⟩
  simp only [StateSystem.flush, Deferred.size, hchanges, List.length_cons, flushLoop,
    Deferred.nextDue_of_le hchanges hdue, happly]
  rfl

/-- The next event cannot be recorded. -/
theorem Doomed.record (h : Doomed s c last) (hdue : c.time ≤ e.timestamp) (handle : Handler) :
    ∃ s', Analysis.record handle e s =
      .error (.orderingViolation (some c.quark) c.time last) s' := by
  obtain ⟨s', hflush⟩ := h.flush hdue
  have hadvance : advanceTo e.timestamp s =
      .error (.orderingViolation (some c.quark) c.time last) s' :=
    bind_of_error hflush
  exact ⟨s', Analysis.record_of_error hadvance⟩

/-- What is left of the work fails, if any is left. -/
theorem Doomed.recordAll (h : Doomed s c last) (hevents : ∀ e ∈ events, c.time ≤ e.timestamp)
    (hlatest : c.time ≤ Time.latest) (hleft : flushAtEnd = true ∨ events ≠ []) (handle : Handler) :
    ∃ s', Analysis.recordAll handle events flushAtEnd s =
      .error (.orderingViolation (some c.quark) c.time last) s' := by
  cases events with
  | nil =>
    obtain rfl : flushAtEnd = true := hleft.resolve_right (by simp)
    obtain ⟨s', hflush⟩ := h.flush hlatest
    rw [Analysis.recordAll_nil, Analysis.closing_true]
    exact ⟨s', bind_of_error hflush⟩
  | cons e events =>
    obtain ⟨s', hrecord⟩ := h.record (hevents e (by simp)) handle
    exact ⟨s', Analysis.recordAll_error hrecord⟩

/-! ## Events -/

/-- An entry that ends early succeeds, and leaves its pop to be refused. -/
theorem Keeps.entry_early (h : Keeps s e.timestamp replays)
    (hlater : ∀ c ∈ s.deferred.changes, e.timestamp < c.time)
    (hstop : e.fieldLong "end" = some stop) (hlt : stop < e.timestamp)
    (hfits : Value.fitsLong (pushes (replays (path e)).done + 1) = true) :
    ∃ s' q last, enter e s = .ok () s' ∧ s'.store.UpTo e.timestamp ∧ stop < last ∧
      Doomed s' ⟨stop, q, .null, .pop⟩ last := by
  obtain ⟨q, s₁, store, hpushed⟩ := h.pushed hlater hfits
  have h₁ := hpushed.keeps
  have hclosed : store.closed = false := hpushed.touched.closed_eq.trans h₁.tracked.building
  have hstack := stackOf_append ((replays (path e)).catchUp e.timestamp).done
    (.push e.timestamp (e.fieldValue "function"))
  obtain ⟨last, hlast, hrefused⟩ :=
    hpushed.stacked_pushed.pop_refused hclosed hstack
      (Store.not_writable_of_push hpushed.pushed hlt)
  have henter := hpushed.enter_eq
  rw [hstop] at henter
  refine ⟨_, q, last, henter, hpushed.touched.upTo h₁.tracked.building h₁.tracked.upTo,
    hlast, h₁.live, ⟨s₁.deferred.changes, Deferred.insert_of_lt fun c hc => ?_⟩, rfl, hrefused⟩
  exact Int.lt_of_lt_of_le hlt (h₁.tracked.waits c hc).now_le

theorem Keeps.record_early (h : Keeps s now replays) (hle : now ≤ e.timestamp)
    (hname : e.name = "entry") (hstop : e.fieldLong "end" = some stop) (hlt : stop < e.timestamp)
    (hfits : Value.fitsLong (pushes (replays (path e)).done + 1) = true) :
    ∃ s' q last, Analysis.record CallStack.handle e s = .ok () s' ∧
      s'.store.UpTo e.timestamp ∧ stop < last ∧
      Doomed s' ⟨stop, q, .null, .pop⟩ last := by
  obtain ⟨s₁, hadvance, h₁, hlater, -, -⟩ := h.advanceTo hle
  obtain ⟨s', q, last, henter, hupTo, hlast, hdoomed⟩ := h₁.entry_early hlater hstop hlt hfits
  have hhandle : CallStack.handle e s₁ = .ok () s' := by simp [CallStack.handle, hname, henter]
  exact ⟨s', q, last, Analysis.record_of_ok hadvance hhandle, hupTo, hlast, hdoomed⟩

/-- Any event can be recorded, and the state system could be closed then. -/
theorem Keeps.record_any (h : Keeps s now replays) (hle : now ≤ e.timestamp)
    (hfits : Value.fitsLong (pushes (replays (path e)).done + 1) = true) :
    ∃ s', Analysis.record CallStack.handle e s = .ok () s' ∧ s'.disposed = false ∧
      s'.store.UpTo e.timestamp := by
  by_cases hearly : EndsEarly e
  · obtain ⟨hname, stop, hstop, hlt⟩ := hearly
    obtain ⟨s', q, last, hrecord, hupTo, -, hdoomed⟩ := h.record_early hle hname hstop hlt hfits
    exact ⟨s', hrecord, hdoomed.live, hupTo⟩
  · obtain ⟨s', hrecord, hkeeps, -, -⟩ := h.record hle (le_of_not_endsEarly hearly) hfits
    exact ⟨s', hrecord, hkeeps.live, hkeeps.tracked.upTo⟩

/-! ## All events -/

/-- Events none of which ends early can be recorded. -/
theorem recorded_of_not_endsEarly (hends : ∀ e ∈ events, ¬ EndsEarly e)
    (hascending : events.Pairwise (·.timestamp ≤ ·.timestamp)) {bound : Time}
    (hbound : ∀ e ∈ events, e.timestamp ≤ bound) (hcount : Value.fitsLong events.length = true)
    (id : String) :
    ∃ s now replays, events.forM (Analysis.record handle) (.new id) = .ok () s ∧ now ≤ bound ∧
      Keeps s now replays ∧
      ∀ p, pushes (replays p).done ≤ events.length := by
  obtain ⟨start, hstart, hfirst⟩ := exists_start hascending hbound
  have hnew : Keeps (.new id) start fun _ => {} := ⟨rfl, tracked_new start⟩
  obtain ⟨s, now, hrecord, hnow, hkeeps, -, -⟩ := hnew.recorded hstart hascending hfirst hbound
    (fun e he => le_of_not_endsEarly (hends e he)) fun p => by simpa [pushes] using hcount
  refine ⟨s, now, _, hrecord, hnow, hkeeps, fun p => ?_⟩
  have hpushes := pushes_foldl_le {} (events.filter (path · = p))
  have hlength := List.length_filter_le (path · = p) events
  simp only [pushes, List.countP_nil, Nat.zero_add] at hpushes ⊢
  omega

/-- An event that ends early and is looked after leaves work to be done. -/
theorem exists_left {before after : List Event}
    (h : lookedAfter flushAtEnd events = before ++ e :: after) :
    ∃ rest, events = before ++ e :: rest ∧ (flushAtEnd = true ∨ rest ≠ []) := by
  cases flushAtEnd with
  | true => exact ⟨after, h, Or.inl rfl⟩
  | false =>
    change events.dropLast = _ at h
    rcases List.eq_nil_or_concat events with rfl | ⟨init, last, rfl⟩
    · simp at h
    · rw [List.concat_eq_append, List.dropLast_concat] at h
      exact ⟨after ++ [last], by simp [h], Or.inr (by simp)⟩

/-- **The work is done** when no event that is looked after ends early. -/
theorem recordAll_completes (hends : ∀ e ∈ lookedAfter flushAtEnd events, ¬ EndsEarly e)
    (hascending : events.Pairwise (·.timestamp ≤ ·.timestamp))
    (hlatest : ∀ e ∈ events, e.timestamp ≤ Time.latest)
    (hcount : Value.fitsLong events.length = true) (id : String) :
    ∃ s', recordAll handle events flushAtEnd (.new id) = .ok () s' := by
  cases flushAtEnd with
  | true =>
    obtain ⟨s, now, replays, hrecord, hnow, hkeeps, -⟩ :=
      recorded_of_not_endsEarly hends hascending hlatest hcount id
    obtain ⟨s', store, now', hclosing, -⟩ := hkeeps.closing hnow
    exact ⟨s', (bind_of_ok hrecord).trans hclosing⟩
  | false =>
    change ∀ e ∈ events.dropLast, _ at hends
    rcases List.eq_nil_or_concat events with rfl | ⟨init, e, rfl⟩
    · exact ⟨_, rfl⟩
    rw [List.concat_eq_append] at *
    rw [List.dropLast_concat] at hends
    obtain ⟨hinit, -, hlate⟩ := List.pairwise_append.1 hascending
    have hlength : (init ++ [e]).length = init.length + 1 := by simp
    obtain ⟨s, now, replays, hrecord, hnow, hkeeps, hpushes⟩ :=
      recorded_of_not_endsEarly hends hinit
      (fun d hd => hlate d hd e (by simp)) (Value.fitsLong_of_le hcount (by omega) (by omega)) id
    have hheight := hpushes (path e)
    obtain ⟨s₁, hlast, hlive, hupTo⟩ :=
      hkeeps.record_any hnow (Value.fitsLong_of_le hcount (by omega) (by omega))
    have hclose := Analysis.closeAtStop_ok hlive fun stop hs =>
      Int.le_trans (hupTo.stop_le stop hs) (hlatest e (by simp))
    refine ⟨(s₁.publish (s₁.store.ended (s₁.store.stop.elim 0 Time.after))).finish .built, ?_⟩
    rw [Analysis.recordAll_append hrecord, Analysis.recordAll_ok hlast, Analysis.recordAll_nil,
      Analysis.closing_false, hclose]

/-- **The first event that is looked after and ends early ends the work.** -/
theorem recordAll_fails (hfirst : (lookedAfter flushAtEnd events).find? (EndsEarly ·) = some e)
    (hascending : events.Pairwise (·.timestamp ≤ ·.timestamp))
    (hlatest : ∀ e ∈ events, e.timestamp ≤ Time.latest)
    (hcount : Value.fitsLong events.length = true) (id : String) :
    ∃ q stop last s', e.fieldLong "end" = some stop ∧ stop < last ∧
      recordAll handle events flushAtEnd (.new id) =
        .error (.orderingViolation (some q) stop last) s' := by
  obtain ⟨hearly, before, after, hlooked, hbefore⟩ := List.find?_eq_some_iff_append.1 hfirst
  obtain ⟨hname, stop, hstop, hlt⟩ := of_decide_eq_true hearly
  obtain ⟨rest, rfl, hleft⟩ := exists_left hlooked
  obtain ⟨hascends, hafter, hlate⟩ := List.pairwise_append.1 hascending
  have hlength : (before ++ e :: rest).length = before.length + rest.length + 1 := by simp; omega
  obtain ⟨s, now, replays, hrecord, hnow, hkeeps, hpushes⟩ := recorded_of_not_endsEarly
    (fun d hd => by simpa using hbefore d hd) hascends (fun d hd => hlate d hd e (by simp))
    (Value.fitsLong_of_le hcount (by omega) (by omega)) id
  have hheight := hpushes (path e)
  obtain ⟨s₁, q, last, hnext, -, hlast, hdoomed⟩ := hkeeps.record_early hnow hname hstop hlt
    (Value.fitsLong_of_le hcount (by omega) (by omega))
  have hbehind : ∀ d ∈ rest, stop ≤ d.timestamp := fun d hd =>
    Int.le_trans (Int.le_of_lt hlt) ((List.pairwise_cons.1 hafter).1 d hd)
  obtain ⟨s', hfails⟩ :=
    hdoomed.recordAll hbehind (Int.le_trans (Int.le_of_lt hlt) (hlatest e (by simp))) hleft handle
  refine ⟨q, stop, last, s', hstop, hlast, ?_⟩
  rw [Analysis.recordAll_append hrecord, Analysis.recordAll_ok hnext, hfails]

end

/-- **A run fails on an entry that ends before it begins, and on nothing else.** A run over events
in order that nobody calls off completes if a history was saved before, or if no entry that is
looked after tells an end before its own time, whatever else the names and fields of the events are.
If there is such an entry and no saved history, the pop of the first of them fails the run, for its
order. Times have 64 bits, and 64 bits count the events of any list in memory. -/
theorem outcome_run (a : Analysis) (folder : Folder) (events : List Event)
    (hprovider : a.provider = provider) (hsource : a.source = .ofEvents events)
    (hphase : a.phase = .idle) (hdependencies : a.dependencies = []) (hquiet : a.Quiet)
    (hcount : Value.fitsLong events.length = true)
    (hascending : events.Pairwise (·.timestamp ≤ ·.timestamp))
    (hlatest : ∀ e ∈ events, e.timestamp ≤ Time.latest) :
    ∃ ready, a.schedule = .ok ready ∧
      ((∃ s, a.loadHistory folder = some s) ∨
        (∀ e ∈ lookedAfter a.config.flushAtEnd events, ¬ EndsEarly e) →
        (Session.runAlone ready folder).1.outcome = .completed) ∧
      (a.loadHistory folder = none → ∀ e,
        (lookedAfter a.config.flushAtEnd events).find? (EndsEarly ·) = some e →
        ∃ q stop last, e.fieldLong "end" = some stop ∧ stop < last ∧
          (Session.runAlone ready folder).1.outcome =
            .failed (Failure.orderingViolation (some q) stop last).message) := by
  let ready : Analysis := { a with outcome := .running, phase := .starting }
  have hready : a.schedule = .ok ready := Analysis.schedule_idle hphase hdependencies
  have hquiet' : ready.Quiet := ⟨hquiet.wanted, hquiet.patient⟩
  have hstart : ready.provider.start {} = .ok handle := by
    change a.provider.start {} = _
    rw [hprovider]
    rfl
  have hends : a.loadHistory folder = none →
      (Session.runAlone ready folder).1.EndsAs
        (recordAll handle events a.config.flushAtEnd (.new a.id)) :=
    fun hfresh =>
      Analysis.runAlone_ends (a := ready) hquiet' rfl hdependencies hsource hfresh hstart hascending
  refine ⟨ready, hready, fun hgood => ?_, fun hfresh e hfirst => ?_⟩
  · cases hload : a.loadHistory folder with
    | some s => exact (Analysis.runAlone_loaded (a := ready) rfl hdependencies hload).1
    | none =>
      have hnone := hgood.resolve_left (by simp [hload])
      obtain ⟨s', hwork⟩ := recordAll_completes hnone hascending hlatest hcount a.id
      have h := hends hload
      rw [hwork] at h
      exact h.1
  · obtain ⟨q, stop, last, s', hstop, hlast, hwork⟩ :=
      recordAll_fails hfirst hascending hlatest hcount a.id
    have h := hends hfresh
    rw [hwork] at h
    exact ⟨q, stop, last, hstop, hlast, h.1⟩

/-- A function that ends five before it begins, and another event. -/
def backwards : List Event :=
  [⟨10, "entry", [("end", .int 5), ("function", .string "f")]⟩, ⟨20, "mark", []⟩]

/-- An analysis that is to record some calls. -/
def recorder (events : List Event) : Analysis :=
  ⟨"calls", provider, .ofEvents events, [], {}, [], .pending, false, none, .idle⟩

/-- The run over these events fails, though they are in order and nobody calls it off. -/
theorem backwards_fails :
    backwards.Pairwise (·.timestamp ≤ ·.timestamp) ∧ (recorder backwards).Quiet ∧
      ∃ ready, (recorder backwards).schedule = .ok ready ∧
        (Session.runAlone ready {}).1.outcome =
          .failed "Ordering violation on attribute #4: time 5 precedes 10" := by
  refine ⟨by decide, ⟨rfl, by simp [recorder]⟩, _, rfl, ?_⟩
  decide +kernel

theorem outcome_run_backwards :
    ∃ ready reason, (recorder backwards).schedule = .ok ready ∧
      (Session.runAlone ready {}).1.outcome = .failed reason := by
  obtain ⟨ready, hready, -, hfails⟩ := outcome_run (recorder backwards) {} backwards rfl rfl rfl rfl
    ⟨rfl, by simp [recorder]⟩ (by decide) (by decide) (by decide)
  obtain ⟨q, stop, last, -, -, houtcome⟩ := hfails rfl backwards[0] rfl
  exact ⟨ready, _, hready, houtcome⟩

end StateHistory.CallStack
