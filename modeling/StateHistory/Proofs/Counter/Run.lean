import StateHistory.Proofs.Analysis.Closing
import StateHistory.Proofs.Analysis.Quiet
import StateHistory.Proofs.Counter.Counted
import StateHistory.Proofs.Deferred

/-!
# Counters of a whole run

No event about counters has a fatal failure, and none defers a change. So a run over events in order
completes, and a query for a counter at any time finds what the events about it come to by that time
(`counters_recorded`).
-/

namespace StateHistory.Counter

open Store StateSystem

/-- A state system that has its data, in which nothing waits and the counters have their values. -/
structure Keeps (s : StateSystem) (now : Time) (past : List Event) : Prop where
  live : s.disposed = false
  still : s.deferred.changes = []
  counted : Counted s.store now past

section
variable {s s' : StateSystem} {store : Store} {now t : Time} {past events : List Event} {e : Event}
  {name : String}

theorem Keeps.flush (h : Keeps s now past) (t : Time) : StateSystem.flush t s = .ok 0 s := by
  simp [StateSystem.flush, Deferred.size, h.still, flushLoop, pure, EStateM.pure]

/-- Recording moves on. -/
theorem Keeps.advanceTo (h : Keeps s now past) (hle : now ≤ t) :
    ∃ s', StateSystem.advanceTo t s = .ok () s' ∧ Keeps s' t past ∧ s'.store.Reaches t t := by
  have hadvance : Store.advance t s.store = .ok () (s.store.reach t) :=
    advance_ok_iff.2 ⟨h.counted.isOpen hle, rfl⟩
  exact ⟨s.publish (s.store.reach t), (bind_of_ok (h.flush t)).trans (edit_of_ok h.live hadvance),
    ⟨h.live, h.still, h.counted.reach hle⟩, reaches_reach (h.counted.upTo.mono hle)⟩

/-! ## Events -/

/-- The failures that a handler may have do not matter. -/
def Passes (op : Write Unit) (s s' : StateSystem) : Prop :=
  op s = .ok () s' ∨ ∃ f, op s = .error f s' ∧ f.isFatal = false

theorem concerns_iff (hname : e.fieldSegment "name" = some name)
    (hkind : e.name = "counter" ∨ e.name = "increment") (n : String) :
    concerns n e = true ↔ n = name := by
  unfold concerns
  rcases hkind with hkind | hkind <;> simp [hkind, hname, eq_comm]

/-- The counter of an event is found, or is added if it is missing. -/
theorem Keeps.prepared (h : Keeps s now past) (hreaches : s.store.Reaches now now) (name : String) :
    ∃ q s', addPath (path name) s = .ok q s' ∧ Keeps s' now past ∧ s'.store.Reaches now now ∧
      s'.store.tree.descend .root (path name) = some q := by
  have hroot := h.counted.linked.contains_root
  have hadd := add_ok_iff.2 ⟨hroot, Eq.refl (s.store.tree.grow .root (path name)).1, rfl⟩
  exact ⟨_, s.publish (s.store.grown .root (path name)), edit_of_ok h.live hadd,
    ⟨h.live, h.still, h.counted.grown name⟩, hreaches.takes (.add hroot) h.counted.building,
    h.counted.linked.descend_grow_self hroot (path name)⟩

/-- An assignment writes its value. -/
theorem Keeps.assign (h : Keeps s e.timestamp past)
    (hreaches : s.store.Reaches e.timestamp e.timestamp) (hname : e.fieldSegment "name" = some name)
    (hkind : e.name = "counter") :
    ∃ s', Passes (assign name e) s s' ∧ Keeps s' e.timestamp (past ++ [e]) := by
  obtain ⟨q, s₁, hadd, h₁, hreaches₁, hq⟩ := h.prepared hreaches name
  have hwrite :=
    write_ok_iff.2 ⟨h₁.counted.writable hq,
    Eq.refl (s₁.store.wrote e.timestamp (e.fieldValue "value") q)⟩
  have hact : act (valueBy name past e.timestamp) e = e.fieldValue "value" := by simp [act, hkind]
  exact ⟨s₁.publish _, Or.inl ((bind_of_ok hadd).trans (edit_of_ok h₁.live hwrite)),
    h₁.live, h₁.still, h₁.counted.wrote rfl hreaches₁ (concerns_iff hname (Or.inl hkind)) hq hact⟩

/-- An increment writes the increased value, or leaves a value that it cannot increase. -/
theorem Keeps.increment (h : Keeps s e.timestamp past)
    (hreaches : s.store.Reaches e.timestamp e.timestamp) (hname : e.fieldSegment "name" = some name)
    (hkind : e.name = "increment") :
    ∃ s', Passes (increment name e) s s' ∧ Keeps s' e.timestamp (past ++ [e]) := by
  obtain ⟨q, s₁, hadd, h₁, hreaches₁, hq⟩ := h.prepared hreaches name
  have hconcerns := concerns_iff hname (Or.inr hkind)
  have hdelta : Value.fitsLong ((e.fieldLong "delta").getD 1) = true := by
    cases hd : e.fieldLong "delta" with
    | none => rfl
    | some d => exact Event.fitsLong_fieldLong hd
  have hact : act (valueBy name past e.timestamp) e =
      increased (s₁.store.valueOf q) ((e.fieldLong "delta").getD 1) := by
    rw [h₁.counted.value_eq hq]
    simp [act, hkind]
  rcases addLong_cases (h₁.counted.writable hq) hdelta with hadded | ⟨⟨f, hfailed, hf⟩, hsame⟩
  · exact ⟨s₁.publish _, Or.inl ((bind_of_ok hadd).trans (edit_of_ok h₁.live hadded)),
      h₁.live, h₁.still, h₁.counted.wrote rfl hreaches₁ hconcerns hq hact⟩
  · refine ⟨s₁.publish s₁.store,
      Or.inr ⟨f, (bind_of_ok hadd).trans (edit_of_error h₁.live hfailed), hf⟩, h₁.live,
      h₁.still, h₁.counted.ignored rfl hreaches₁
        (fun n hn => ⟨q, (hconcerns n).1 hn ▸ hq⟩) fun n hn => ?_⟩
    obtain rfl := (hconcerns n).1 hn
    rw [hact, hsame, h₁.counted.value_eq hq]

/-- **Every event can be handled**, or fails without harm. -/
theorem Keeps.handle (h : Keeps s e.timestamp past)
    (hreaches : s.store.Reaches e.timestamp e.timestamp) :
    ∃ s', Passes (Counter.handle e) s s' ∧ Keeps s' e.timestamp (past ++ [e]) := by
  have hignored : (∀ n, concerns n e = false) → ∃ s',
      Passes (pure ()) s s' ∧ Keeps s' e.timestamp (past ++ [e]) :=
    fun hnone =>
      ⟨s, Or.inl rfl, h.live, h.still,
      h.counted.ignored rfl hreaches (by simp [hnone]) (by simp [hnone])⟩
  unfold Counter.handle
  split
  · rename_i hname hkind
    exact h.assign hreaches hname hkind
  · rename_i hname hkind
    exact h.increment hreaches hname hkind
  · rename_i hcounter hincrement
    refine hignored fun n => ?_
    cases hname : e.fieldSegment "name" with
    | none => simp [concerns, hname]
    | some m =>
      have hcounter' : e.name ≠ "counter" := fun hkind => hcounter m hname hkind
      have hincrement' : e.name ≠ "increment" := fun hkind => hincrement m hname hkind
      simp [concerns, hcounter', hincrement']

theorem Keeps.record (h : Keeps s now past) (hle : now ≤ e.timestamp) :
    ∃ s', Analysis.record Counter.handle e s = .ok () s' ∧ Keeps s' e.timestamp (past ++ [e]) := by
  obtain ⟨s₁, hadvance, h₁, hreaches⟩ := h.advanceTo hle
  obtain ⟨s', hhandle, h'⟩ := h₁.handle hreaches
  refine ⟨s', ?_, h'⟩
  rcases hhandle with hhandle | ⟨f, hhandle, hf⟩
  · exact Analysis.record_of_ok hadvance hhandle
  · exact Analysis.record_of_passed hadvance hhandle hf

/-- **All events can be recorded**, and the counters then have the values that the events come
to. -/
theorem Keeps.recorded (h : Keeps s now past) {bound : Time} (hbound : now ≤ bound)
    (hascending : events.Pairwise (·.timestamp ≤ ·.timestamp))
    (hnow : ∀ e ∈ events, now ≤ e.timestamp) (hbounds : ∀ e ∈ events, e.timestamp ≤ bound) :
    ∃ s' now', events.forM (Analysis.record Counter.handle) s = .ok () s' ∧ now' ≤ bound ∧
      Keeps s' now' (past ++ events) := by
  induction events generalizing s now past with
  | nil => exact ⟨s, now, rfl, hbound, by rwa [List.append_nil]⟩
  | cons e events ih =>
    obtain ⟨hlate, hrest⟩ := List.pairwise_cons.1 hascending
    obtain ⟨s₁, hrecord, h₁⟩ := h.record (hnow e (by simp))
    obtain ⟨s', now', hforM, hle, hkeeps⟩ := ih h₁ (hbounds e (by simp)) hrest hlate
      (fun e' he' => hbounds e' (by simp [he']))
    exact ⟨s', now', (bind_of_ok hrecord).trans hforM, hle, by simpa using hkeeps⟩

/-- The state system can be closed. -/
theorem Keeps.closing (h : Keeps s now past) (hle : now ≤ Time.latest) (flushAtEnd : Bool) :
    ∃ s', Analysis.closing flushAtEnd s = .ok () s' ∧ s'.disposed = false ∧
      s'.store = s.store.ended (s.store.stop.elim 0 Time.after) := by
  have hclose := Analysis.closeAtStop_ok h.live fun stop hs =>
    Int.le_trans (h.counted.upTo.stop_le stop hs) hle
  cases flushAtEnd with
  | false => exact ⟨_, hclose, h.live, rfl⟩
  | true => exact ⟨_, (bind_of_ok (h.flush _)).trans hclose, h.live, rfl⟩

/-- Events in order are recorded, and the state system can be closed then. -/
theorem recorded_closed (hascending : events.Pairwise (·.timestamp ≤ ·.timestamp))
    (hbound : ∀ e ∈ events, e.timestamp ≤ Time.latest) (id : String) (flushAtEnd : Bool) :
    ∃ s s', events.forM (Analysis.record Counter.handle) (.new id) = .ok () s ∧
      Analysis.closing flushAtEnd s = .ok () s' ∧ s'.disposed = false ∧
      s'.store = s.store.ended (s.store.stop.elim 0 Time.after) ∧ ∃ now,
      Counted s.store now events := by
  obtain ⟨start, hstart, hfirst⟩ := exists_start hascending hbound
  have hnew : Keeps (.new id) start [] := ⟨rfl, rfl, counted_new start⟩
  obtain ⟨s, now, hrecord, hnow, hkeeps⟩ := hnew.recorded hstart hascending hfirst hbound
  obtain ⟨s', hclosing, hlive, hstore⟩ := hkeeps.closing hnow flushAtEnd
  exact ⟨s, s', hrecord, hclosing, hlive, hstore, now, hkeeps.counted⟩

/-- A counter that an event tells of is there. -/
theorem Counted.located (h : Counted store now past) (he : e ∈ past)
    (hkind : e.name = "counter" ∨ e.name = "increment")
    (hname : e.fieldSegment "name" = some name) :
    ∃ q, store.tree.descend .root (path name) = some q := by
  cases hd : store.tree.descend .root (path name) with
  | some q => exact ⟨q, rfl⟩
  | none =>
    have hnot := h.absent name hd e he
    rw [(concerns_iff hname hkind name).2 rfl] at hnot
    cases hnot

end

/-- **The counters that an analysis records have the values that their events come to.** A run over
events in order, the last of them before the latest time, completes when nobody calls it off. Unless
it loads a history that was saved before, a query for any counter that an event tells of then finds,
from the first event to the last, what the events about this counter come to by that time, in their
order and beginning with null. -/
theorem counters_recorded (a : Analysis) (folder : Folder) (events : List Event)
    (hprovider : a.provider = provider) (hsource : a.source = .ofEvents events)
    (hphase : a.phase = .idle) (hdependencies : a.dependencies = []) (hquiet : a.Quiet)
    (hascending : events.Pairwise (·.timestamp ≤ ·.timestamp))
    (hlatest : ∀ last ∈ events.getLast?, last.timestamp < Time.latest) :
    ∃ ready, a.schedule = .ok ready ∧ (Session.runAlone ready folder).1.outcome = .completed ∧
      (a.loadHistory folder = none → ∃ system,
        (Session.runAlone ready folder).1.system = some system ∧
        ∀ e ∈ events, e.name = "counter" ∨ e.name = "increment" → ∀ name,
        e.fieldSegment "name" = some name →
          ∀ first ∈ events.head?, ∀ last ∈ events.getLast?, ∀ t, first.timestamp ≤ t →
          t ≤ last.timestamp →
            ∃ q iv, system.locate .root ["Counters", name] = .ok q ∧
            system.query (Store.single t q) = .ok iv ∧
              iv.value = valueBy name events t) := by
  refine ⟨_, Analysis.schedule_idle hphase hdependencies, ?_⟩
  cases hload : a.loadHistory folder with
  | some history =>
    exact ⟨(Analysis.runAlone_loaded (a := { a with outcome := .running, phase := .starting })
      rfl hdependencies hload).1, fun hfresh => by cases hfresh⟩
  | none =>
    have hbound : ∀ e ∈ events, e.timestamp ≤ Time.latest := by
      intro e he
      have hlast := List.getLast?_eq_some_getLast (List.ne_nil_of_mem he)
      exact Int.le_of_lt (Int.lt_of_le_of_lt (le_last hascending he hlast) (hlatest _ hlast))
    obtain ⟨s, s', hrecord, hclosing, hlive, hstore, now, hcounted⟩ :=
      recorded_closed hascending hbound a.id a.config.flushAtEnd
    have hstart : a.provider.start {} = .ok handle := by
      rw [hprovider]
      rfl
    obtain ⟨houtcome, hsystem⟩ :=
      Analysis.runAlone_completed (a := { a with outcome := .running, phase := .starting })
      ⟨hquiet.wanted, hquiet.patient⟩ rfl hdependencies hsource hload hstart hascending
        hrecord hclosing
    refine ⟨houtcome, fun _ =>
      ⟨s', hsystem, fun e he hkind name hname first hfirst last hlast t hle hle' => ?_⟩⟩
    obtain ⟨q, hq⟩ := hcounted.located he hkind hname
    have hreaches : s.store.Reaches first.timestamp last.timestamp :=
      ⟨(hcounted.reaches first (List.mem_of_mem_head? hfirst)).start_le,
        (hcounted.reaches last (List.mem_of_mem_getLast? hlast)).le_stop⟩
    obtain ⟨iv, hiv, hvalue⟩ := hcounted.single_ended hq hreaches hle hle' (hlatest last hlast)
    refine ⟨q, iv, locate_of_descend hlive ?_ ?_, ?_, hvalue⟩
    · rw [hstore, tree_ended]
      exact hcounted.linked.contains_root
    · rw [hstore, tree_ended]
      exact hq
    · rw [query_of_live hlive, hstore, hiv]

/-- A counter that is counted up, then set to a text, and then not counted up any more. -/
def tallied : List Event :=
  [⟨1, "increment", [("name", .string "n")]⟩,
    ⟨1, "increment", [("delta", .int 41), ("name", .string "n")]⟩,
    ⟨5, "counter", [("name", .string "n"), ("value", .string "off")]⟩,
    ⟨7, "increment", [("name", .string "n")]⟩]

theorem counters_recorded_tallied :
    ∃ ready, Analysis.schedule ⟨"counts", provider, .ofEvents tallied, [], {}, [], .pending, false,
      none, .idle⟩ =
        .ok ready ∧
      (Session.runAlone ready {}).1.outcome = .completed ∧ ∃ system,
        (Session.runAlone ready {}).1.system = some system ∧
        ∃ q, system.locate .root ["Counters", "n"] = .ok q ∧
          (∃ iv, system.query (Store.single 4 q) = .ok iv ∧ iv.value = .long 42) ∧
          ∃ iv, system.query (Store.single 7 q) = .ok iv ∧ iv.value = .string "off" := by
  obtain ⟨ready, hready, houtcome, hvalues⟩ := counters_recorded
    ⟨"counts", provider, .ofEvents tallied, [], {}, [], .pending, false, none, .idle⟩
      {} tallied rfl rfl rfl rfl
    ⟨rfl, by simp⟩ (by decide) (by decide)
  obtain ⟨system, hsystem, hvalues⟩ := hvalues rfl
  have hvalue :=
    hvalues tallied[0] (by simp [tallied]) (by decide) "n" (by decide +kernel) _ rfl _ rfl
  obtain ⟨q, iv, hq, hiv, hearly⟩ := hvalue 4 (by decide) (by decide)
  obtain ⟨q', iv', hq', hiv', hlate⟩ := hvalue 7 (by decide) (by decide)
  obtain rfl : q = q' := Except.ok.inj (hq.symm.trans hq')
  exact ⟨ready, hready, houtcome, system, hsystem, q, hq,
    ⟨iv, hiv, hearly.trans (by decide +kernel)⟩, iv', hiv', hlate.trans (by decide +kernel)⟩

end StateHistory.Counter
