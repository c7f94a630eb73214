import StateHistory.Proofs.Analysis.Closing
import StateHistory.Proofs.Analysis.Complete
import StateHistory.Proofs.Analysis.Underway
import StateHistory.Proofs.Store.Visible

/-!
# The values that the last event has set

A run closes its state system just after the last recorded time, so that what its last event has set
can still be seen there. This holds unless the last recorded time is the latest of 64 bits, which
has no time after it: of what was ongoing then, only what began at that very time can be seen
(`last_values`). A single event that tells such an end is enough for the others to lose their last
values (`last_value_lost`).
-/

namespace StateHistory.Analysis

open StateSystem

/-- What a run does before it closes its state system. -/
def prepared (handle : Handler) (events : List Event) (flushAtEnd : Bool) : Write Unit := do
  events.forM (record handle)
  if flushAtEnd then
    let _ ← flush Time.latest

section
variable {a ready : Analysis} {handle : Handler} {events : List Event} {s s₀ s' : StateSystem}
  {folder folder' : Folder}

theorem of_schedule (h : a.schedule = .ok ready) :
    a.dependencies = [] ∧ ready = { a with outcome := .running, phase := .starting } := by
  unfold schedule at h
  split at h
  · unfold scheduleAfter at h
    split at h
    · exact ⟨by simpa using ‹a.dependencies.isEmpty = true›, (Except.ok.inj h).symm⟩
    · cases h
  · cases h

/-- Closing is preparing, and then closing just after the last recorded time. -/
theorem Builds.prepared (h : Builds handle events a folder s s₀ s' folder') :
    ∃ s₁, Analysis.prepared handle events a.config.flushAtEnd s = .ok () s₁ ∧
      closeAtStop s₁ = .ok () s' ∧
      (a.config.flushAtEnd = true ∧ (∃ n, flush Time.latest s₀ = .ok n s₁) ∨ s₁ = s₀) := by
  have hclosed := h.closed
  unfold Analysis.prepared
  cases hflushAtEnd : a.config.flushAtEnd with
  | false =>
    rw [hflushAtEnd, closing_false] at hclosed
    exact ⟨s₀, bind_of_ok h.recorded, hclosed, .inr rfl⟩
  | true =>
    rw [hflushAtEnd, closing_true] at hclosed
    cases hflush : flush Time.latest s₀ with
    | error f s₁ =>
      rw [bind_of_error hflush] at hclosed
      cases hclosed
    | ok n s₁ =>
      rw [bind_of_ok hflush] at hclosed
      exact ⟨s₁, (bind_of_ok h.recorded).trans (bind_of_ok hflush), hclosed, .inl ⟨rfl, n, rfl⟩⟩

/-- What a run leads to that completes by building, with a stock provider and events at times of 64
bits. -/
theorem Builds.underway (h : Builds handle events a folder (.new a.id) s₀ s' folder') (k : Stock)
    (hstart : k.provider.start {} = .ok handle) (hrange : ∀ e ∈ events, e.timestamp.InRange) :
    ∃ s₁, Analysis.prepared handle events a.config.flushAtEnd (.new a.id) = .ok () s₁ ∧
      Underway a.id events s₁ ∧
      s' = (s₁.publish (s₁.store.ended (s₁.store.stop.elim 0 Time.after))).finish .built := by
  obtain ⟨s₁, hprepared, hclose, hflushed⟩ := h.prepared
  have hrecorded := (underway_new a.id).recorded k hstart hrange h.recorded
  have hunderway : Underway a.id events s₁ := by
    rcases hflushed with ⟨-, n, hflush⟩ | rfl
    · exact (keeps_flush Time.latest).of_ok hrecorded hflush
    · exact hrecorded
  rw [closeAtStop_ok hunderway.live fun stop hstop =>
    (hunderway.dated.stop_inRange stop hstop).2] at hclose
  cases hclose
  exact ⟨s₁, hprepared, hunderway, rfl⟩

/-- **The values that the last event has set.** When a run with a stock provider has completed by
building, recording had reached every event just before the state system was closed, and its end is
that of the completed system. There every attribute answers, and it answers with the value that was
ongoing on it just before closing, exactly if that stays visible: if the end is not the latest time
of 64 bits, or else if the value has begun there or is null. -/
theorem last_values (k : Stock) (hprovider : a.provider = k.provider)
    (hready : a.schedule = .ok ready) (hsource : a.source = .ofEvents events)
    (hrange : ∀ e ∈ events, e.timestamp.InRange) (folder : Folder)
    (hfresh : a.loadHistory folder = none)
    (hcompleted : (Session.runAlone ready folder).1.outcome = .completed) :
    ∃ handle s₁ s₂, a.provider.start {} = .ok handle ∧
      prepared handle events a.config.flushAtEnd (.new a.id) = .ok () s₁ ∧
      closeAtStop s₁ = .ok () s₂ ∧
      (Session.runAlone ready folder).1.system = some s₂ ∧
      (∀ e ∈ events, ∃ stop, s₁.store.stop = some stop ∧ e.timestamp ≤ stop) ∧
      ∀ stop, s₁.query (fun store => .ok store.stop) = .ok (some stop) →
        s₂.query (fun store => .ok store.stop) = .ok (some stop) ∧
        ∀ q, s₂.store.tree.contains q = true →
          ∃ v iv, s₁.query (·.ongoingValue q) = .ok v ∧ s₂.query (Store.single stop q) = .ok iv ∧
            (iv.value = v ↔ s₁.store.StaysVisible q stop) := by
  obtain ⟨hdependencies, rfl⟩ := of_schedule hready
  have hstart : ∃ handle, k.provider.start {} = .ok handle := by
    cases k <;> exact ⟨_, rfl⟩
  obtain ⟨handle, hstart⟩ := hstart
  rw [← hprovider] at hstart
  obtain ⟨s₀, s₂, hbuilds, hsystem⟩ :=
    runAlone_built (a := { a with outcome := .running, phase := .starting }) rfl
    hdependencies hsource hfresh hstart hcompleted
  obtain ⟨s₁, hprepared, hunderway, rfl⟩ := hbuilds.underway k (hprovider ▸ hstart) hrange
  have hclose := closeAtStop_ok hunderway.live fun stop hstop =>
    (hunderway.dated.stop_inRange stop hstop).2
  refine ⟨handle, s₁, _, hstart, hprepared, hclose, hsystem, hunderway.reached,
    fun stop hstop => ?_⟩
  rw [query_of_live hunderway.live] at hstop
  have hstop : s₁.store.stop = some stop := Except.ok.inj hstop
  rw [hstop, Option.elim_some]
  have hlive : ((s₁.publish (s₁.store.ended stop.after)).finish .built).disposed = false :=
    hunderway.live
  refine ⟨?_, fun q hq => ?_⟩
  · rw [query_of_live hlive]
    exact congrArg (Except.ok ∘ some) (hunderway.dated.lastTime_after hstop)
  · obtain ⟨-, iv, hiv, hvisible⟩ := hunderway.dated.single_ended hunderway.lawful.toSound hstop hq
    refine ⟨s₁.store.valueOf q, iv, ?_, ?_, hvisible⟩
    · have hcovered := hunderway.lawful.covered.contains_iff.1 hq
      rw [query_of_live hunderway.live, Store.ongoingValue,
        Store.timeline_eq_ok_iff.2 ⟨hcovered, rfl⟩]
      rfl
    · rw [query_of_live hlive]
      exact hiv

end

/-- Two calls, of which the first ends when it is told to and the second does not end. -/
def callsUntil (stop : Int) : List Event :=
  [⟨10, "entry", [("end", .int stop), ("function", .string "f"), ("pid", .int 1)]⟩,
    ⟨20, "entry", [("function", .string "g"), ("pid", .int 2)]⟩]

/-- An analysis that is to record some calls, and is ready to. -/
def caller (events : List Event) : Analysis :=
  { id := "calls", provider := Stock.callStack.provider, source :=
    .ofEvents events, outcome := .running,
    phase := .starting }

/-- The state system of the run over such calls when all events are recorded. -/
def beforeClosing (stop : Int) : StateSystem :=
  (prepared CallStack.handle (callsUntil stop) true).after (.new "calls")

/-- When the first call ends before the second begins, the second process is seen in its function at
the end. -/
theorem last_values_seen :
    (Session.runAlone (caller (callsUntil 15)) {}).1.outcome = .completed ∧
      ∃ s₂ iv, (Session.runAlone (caller (callsUntil 15)) {}).1.system = some s₂ ∧
        s₂.query (Store.single 20 ⟨8⟩) = .ok iv ∧ iv.value = .int 1 := by
  have hcompleted : (Session.runAlone (caller (callsUntil 15)) {}).1.outcome = .completed := by
    decide +kernel
  obtain ⟨handle, s₁, s₂, hstart, hprepared, hclose, hsystem, -, hvalues⟩ :=
    last_values (a := { caller (callsUntil 15) with outcome := .pending, phase := .idle })
      .callStack rfl rfl rfl (by decide) {} rfl hcompleted
  obtain rfl : CallStack.handle = handle := Except.ok.inj hstart
  have hprepared : prepared CallStack.handle (callsUntil 15) true (.new "calls") = .ok () s₁ :=
    hprepared
  obtain rfl : beforeClosing 15 = s₁ := by rw [beforeClosing, Write.after, hprepared]
  have hstop : (beforeClosing 15).store.stop = some 20 := by decide +kernel
  have hcontains : s₂.store.tree.contains ⟨8⟩ = true := by
    have hclosed :=
      closeAtStop_ok (s := beforeClosing 15) (by decide +kernel) (by simp [hstop, Time.latest])
    obtain ⟨-, hs₂⟩ := EStateM.Result.ok.inj (hclose.symm.trans hclosed)
    rw [hs₂]
    decide +kernel
  obtain ⟨-, hvalues⟩ := hvalues 20 (by decide +kernel)
  obtain ⟨v, iv, hv, hiv, hvisible⟩ := hvalues ⟨8⟩ hcontains
  have hv' : (beforeClosing 15).query (·.ongoingValue ⟨8⟩) = .ok (.int 1) := by decide +kernel
  refine ⟨hcompleted, s₂, iv, hsystem, hiv, (hvisible.2 (.inl (by decide))).trans ?_⟩
  exact Except.ok.inj (hv.symm.trans hv')

/-- **Bug.** When the first call ends at the latest time of 64 bits, which moves the end of
recording there, the run closes the state system at that time itself instead of after it. The second
process, which is in its function until the end, is not seen in it there. -/
theorem last_value_lost :
    (callsUntil 9223372036854775807).Pairwise (·.timestamp ≤ ·.timestamp) ∧
    (Session.runAlone (caller (callsUntil 9223372036854775807)) {}).1.outcome = .completed ∧
    ∃ s₁ s₂, prepared CallStack.handle (callsUntil 9223372036854775807) true (.new "calls") =
      .ok () s₁ ∧
      (Session.runAlone (caller (callsUntil 9223372036854775807)) {}).1.system = some s₂ ∧
      s₁.query (fun store => .ok store.stop) = .ok (some Time.latest) ∧
      s₁.query (·.ongoingValue ⟨8⟩) = .ok (.int 1) ∧
      s₂.query (Store.single Time.latest ⟨8⟩) = .ok ⟨⟨8⟩, Time.latest, Time.latest, .null⟩ := by
  have hcompleted : (Session.runAlone (caller (callsUntil 9223372036854775807)) {}).1.outcome =
      .completed := by
    decide +kernel
  have hsource : (caller (callsUntil 9223372036854775807)).source =
      .ofEvents (callsUntil 9223372036854775807) := rfl
  obtain ⟨s₀, s₂, hbuilds, hsystem⟩ := runAlone_built rfl rfl hsource rfl rfl hcompleted
  obtain ⟨s₁, hprepared, -, rfl⟩ := hbuilds.underway .callStack rfl (by decide)
  have hprepared : prepared CallStack.handle (callsUntil 9223372036854775807) true (.new "calls") =
      .ok () s₁ := hprepared
  obtain rfl : beforeClosing 9223372036854775807 = s₁ := by
    rw [beforeClosing, Write.after, hprepared]
  exact ⟨by decide, hcompleted, _, _, hprepared, hsystem, by decide +kernel, by decide +kernel, by
    decide +kernel⟩

end StateHistory.Analysis
