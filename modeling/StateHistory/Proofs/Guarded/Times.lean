import StateHistory.Proofs.Guarded.Question
import StateHistory.Proofs.Guarded.Writer
import StateHistory.Proofs.Store.Inside
import StateHistory.Proofs.Store.Parts
import StateHistory.Proofs.Store.Scan

/-!
# Guarded times

A writer computes a time where a write ends the state before it, where it looks for the time from
which on it can write, where an amendment brings a state into being, and where closing ends what is
ongoing. Each is one more or one less than a time that 64 bits hold, so it could be one too many. It
never is, before the store was closed for the first time (`timed_run`). As long as the store grows,
a timeline with closed intervals has an ongoing state, and then nothing is computed from their last
end; a state that a write ends has begun before it, so there is a time before the write; and closing
stays at the earliest time where there is none before it. The queries of such a store compute the
bounds of a gap from times on either side of the one that is asked for.
-/

namespace StateHistory

open Store (Call Step)

namespace Guarded

namespace Timed

/-! ## Operations -/

/-- The time just before `t`, or the earliest time if there is none. -/
def before (t : Time) : Guarded Time := if t = Time.earliest then return t else calculated (t - 1)

/-- The earliest time at which a value can be written. -/
def floor (l : Timeline) : Guarded (Option Time) :=
  match l.ongoing, l.last? with
  | some o, _ => return some o.start
  | none, some iv => do return some (← calculated (iv.stop + 1))
  | none, none => return none

/-- Is a write at `t` too early? If so, the time it should not precede. -/
def tooEarly (l : Timeline) (t : Time) : Guarded (Option Time) := do
  return (← floor l).filter fun floor => t < floor

/-- Ends the ongoing state just before `t`; an empty interval is not kept. -/
def cut (l : Timeline) (q : Quark) (t : Time) : Guarded (Array Interval) :=
  match l.ongoing with
  | some o => if o.start < t then do return l.closed.push ⟨q, o.start, ← calculated (t - 1),
      o.value⟩ else return l.closed
  | none => return l.closed

/-- Refuses a write at `t` that would come too early for the timeline. -/
def allow (l : Timeline) (q : Quark) (t : Time) : Checked Unit := do
  match ← tooEarly l t with
  | some floor => throw (.orderingViolation (some q) t floor)
  | none => return

/-- Starts a new state at `t`. -/
def written (l : Timeline) (q : Quark) (t : Time) (v : Value) : Checked Timeline := do
  allow l q t
  return { closed := ← cut l q t, ongoing := some ⟨t, v⟩ }

/-- Changes the value of the ongoing state. Without one, a state starts after the last interval, or
at `default` if there is none. -/
def amended (l : Timeline) (v : Value) (default : Time) : Guarded Timeline :=
  match l.ongoing, l.last? with
  | some o, _ => return { l with ongoing := some { o with value := v } }
  | none, some iv => do return { l with ongoing := some ⟨← calculated (iv.stop + 1), v⟩ }
  | none, none => return { l with ongoing := some ⟨default, v⟩ }

/-- Ends the ongoing state just before `t`, but not before its own start, and gives the last time it
held. -/
def ended (l : Timeline) (q : Quark) (t : Time) : Guarded (Option Time × Timeline) :=
  match l.ongoing with
  | some o => do
    let stop := max (← before t) o.start
    return (some stop, { closed := l.closed.push ⟨q, o.start, stop, o.value⟩, ongoing := none })
  | none => return (none, l)

/-- The timelines with every ongoing state ended at `t`, and the last time any of them held. -/
def endedAll (t : Time) : List Timeline → Nat → Time → Guarded (List Timeline × Time)
  | [], _, stop => return ([], stop)
  | l :: rest, i, stop => do
    let (held, l) ← ended l ⟨i⟩ t
    let (rest, stop) ← endedAll t rest (i + 1) (held.elim stop (max stop))
    return (l :: rest, stop)

/-- Refuses a write to `q` at `t` that would come too early or too late. -/
def check (q : Quark) (t : Time) (s : Store) : Checked Unit := do
  plain (s.checkTime (some q) t)
  allow (← plain (s.timeline q)) q t

/-- Asks the store without changing it. -/
def consult {α : Type} (f : Store → Checked α) : Edit α :=
  ExceptT.mk fun s => do return (← (f s).run, s)

/-- Starts a new state of `q` at `t`. -/
def write (t : Time) (v : Value) (q : Quark) : Edit Unit := do
  consult (check q t)
  let l ← consult fun s => written (s.timelineOf q) q t v
  lift (modify (·.setTimeline q l))
  lift (Store.advance t)

/-- Changes the value of the ongoing state of `q`. -/
def amend (v : Value) (q : Quark) : Edit Unit := do
  lift (Store.Edit.ask (·.checkQuark q))
  let l ← consult fun s => liftM (amended (s.timelineOf q) v ((s.stop.or s.start).getD 0))
  lift (modify (·.setTimeline q l))

/-- Ends every ongoing state just before `t` and closes the store. -/
def close (t : Time) : Edit Unit := do
  let s ← lift get
  match s.stop.filter fun stop => t < stop with
  | some stop => lift (throw (.orderingViolation none t stop))
  | none =>
    let last ← consult fun s => s.stop.elim (return t) fun stop => do return max (← before t) stop
    let (ls, stop) ← consult fun s => liftM (endedAll t s.timelines.toList 0 last)
    lift (set { s with
      timelines := ls.toArray
      start := some (min (s.start.getD stop) stop)
      stop := some stop
      closed := true })

/-- The parts of a writer's calls with their times guarded. -/
def parts : Store.Parts Edit where
  ask f := lift (Store.Edit.ask f)
  timeline q := lift (Store.Edit.ask fun s => .ok (s.timelineOf q))
  add base path := lift (Store.add base path)
  advance t := lift (Store.advance t)
  check q t := consult (check q t)
  write := write
  amend := amend
  close := close

/-- A call to a writer. -/
def call (c : Call) (s : Store) : Guarded (Except Failure Unit × Store) := (parts.edit c).run.run s

section
variable {l : Timeline} {q : Quark} {t : Time} {v : Value}

/-! ## Timelines -/

/-- Only at the earliest time is there none before it. -/
theorem before_eq (ht : t.InRange) : before t = .ok t.before := by
  unfold before
  split
  · rename_i heq
    have hstays : t.before = t := by
      rw [heq]
      rfl
    rw [hstays]
    rfl
  · rename_i hne
    have hsteps : t.before = t - 1 := by
      unfold Time.before Time.InRange at *
      lia
    rw [hsteps]
    refine calculated_of_inRange ?_
    unfold Time.InRange at *
    lia

/-- A growing timeline without an ongoing state has nothing that a write could come after. -/
theorem floor_eq (hg : l.Growing) : floor l = .ok l.floor := by
  unfold floor Timeline.floor
  cases ho : l.ongoing with
  | some o => rfl
  | none => rw [hg.last?_eq_none ho]; rfl

theorem tooEarly_eq (hg : l.Growing) (t : Time) : tooEarly l t = .ok (l.tooEarly t) := by
  unfold tooEarly
  rw [floor_eq hg]
  rfl

/-- A state that is cut off has begun before `t`, so `t` is not the earliest time. -/
theorem cut_eq (h : l.Ranged) (ht : t.InRange) (q : Quark) : cut l q t = .ok (l.cut q t) := by
  unfold cut Timeline.cut
  cases ho : l.ongoing with
  | none => rfl
  | some o =>
    simp only
    split
    · have hstart := h.ongoing_inRange o ho
      have hrange : Time.InRange (t - 1) := by
        unfold Time.InRange at *
        lia
      rw [calculated_of_inRange hrange]
      rfl
    · rfl

theorem allow_eq (hg : l.Growing) (q : Quark) (t : Time) : (allow l q t).run =
    .ok (match l.tooEarly t with
      | some floor => .error (.orderingViolation (some q) t floor)
      | none => .ok ()) := by
  unfold allow
  rw [tooEarly_eq hg]
  cases l.tooEarly t <;> rfl

theorem written_eq (hg : l.Growing) (h : l.Ranged) (ht : t.InRange) (q : Quark) (v : Value) :
    (written l q t v).run = .ok (l.write q t v) := by
  unfold written Timeline.write
  change ((allow l q t).run >>= _) = _
  rw [allow_eq hg, cut_eq h ht]
  cases l.tooEarly t <;> rfl

theorem amended_eq (hg : l.Growing) (v : Value) (default : Time) :
    amended l v default = .ok (l.amend v default) := by
  unfold amended Timeline.amend
  cases ho : l.ongoing with
  | some o => rfl
  | none => rw [hg.last?_eq_none ho]; rfl

theorem ended_eq (ht : t.InRange) (l : Timeline) (q : Quark) : ended l q t = .ok (l.close q t) := by
  unfold ended Timeline.close
  cases l.ongoing with
  | none => rfl
  | some o =>
    rw [before_eq ht]
    rfl

theorem endedAll_eq (ht : t.InRange) : ∀ (ls : List Timeline) (i : Nat) (stop : Time),
    endedAll t ls i stop = .ok (Store.closeAll t ls i stop)
  | [], _, _ => rfl
  | l :: rest, i, stop => by
    rw [endedAll, ended_eq ht l ⟨i⟩]
    change (endedAll t rest (i + 1) _ >>= _) = _
    rw [endedAll_eq ht rest (i + 1)]
    rfl

end

end Timed

end Guarded

/-! ## Stores that grow at 64-bit times -/

namespace Store

/-- A store that is not closed, with times of 64 bits. -/
structure Clocked (s : Store) : Prop extends s.Sound, s.Bounded, s.Ranged where
  building : s.closed = false

theorem clocked_run {calls : List Call} (hopen : (new.run calls).closed = false)
    (hr : ∀ c ∈ calls, c.InRange) :
    (new.run calls).Clocked :=
      ⟨sound_run calls, bounded_run calls hopen, ranged_building hopen hr, hopen⟩

/-- Only closing leads out of the stores that grow. -/
theorem Clocked.step {s : Store} {a : Step} (h : s.Clocked) (hne : ∀ t, a ≠ .close t)
    (hr : a.InRange) :
    ((Call.step a).after s).Clocked := by
  have hranged := h.toRanged.after h.covered h.toBounded (c := .step a) hr
  rcases Call.after_step a s with hedit | ⟨-, hsame⟩
  · have ha := Step.takes_of_edit hedit
    have hbuilding := (ha.closed_eq hne).trans h.building
    exact ⟨h.toSound.takes ha, h.toBounded.takes h.covered ha hbuilding, hranged, hbuilding⟩
  · rw [hsame]
    exact h

/-- Up to the first time that it is closed, a store can be read. -/
theorem readable_run {calls : List Call} (hopen : (new.run calls.dropLast).closed = false)
    (hr : ∀ c ∈ calls, c.InRange) :
    (new.run calls).Readable :=
  ⟨ranged_run hopen hr, grown_run calls, covered_run calls, fun hc q => ended_run calls hopen hc q⟩

end Store

namespace Guarded

namespace Timed

section
variable {α β : Type} {s : Store} {q : Quark} {t : Time} {c : Call}

/-! ## Calls -/

/-- Asking with guards what is answered without a fault. -/
theorem agrees_consult {f : Store → Checked α} {g : Store → Except Failure α}
    (h : (f s).run = .ok (g s)) :
    Agrees (consult f) (Store.Edit.ask g) s := by
  unfold Agrees
  change ((f s).run >>= fun r => Except.ok (r, s)) = _
  rw [h]
  unfold Store.Edit.ask
  cases g s <;> rfl

/-- What was found with guards can be used. -/
theorem Agrees.consult {f : Store → Checked α} {k : α → Edit β} {op : Store.Edit β} {a : α}
    (h : (f s).run = .ok (.ok a)) (hk : Agrees (k a) op s) :
    Agrees (Timed.consult f >>= k) op s := by
  have hasked := agrees_consult (g := fun _ => .ok a) h
  refine hasked.bind (f := k) (g := fun _ => op) fun a' s' hok => ?_
  obtain ⟨ha, hs⟩ := Store.Edit.ask_ok.1 hok
  cases ha
  rw [hs]
  exact hk

/-- A closed store refuses before it is asked for a timeline, and any other has only growing
ones. -/
theorem check_eq (h : s.Sound) (q : Quark) (t : Time) :
    (check q t s).run = .ok (s.checkWritable q t) := by
  unfold check Store.checkWritable
  cases htime : s.checkTime (some q) t with
  | error e => rfl
  | ok u =>
    cases hl : s.timeline q with
    | error e => rfl
    | ok l =>
      have hgrows := (Store.checkTime_ok_iff.1 htime).building
      obtain ⟨-, rfl⟩ := Store.timeline_eq_ok_iff.1 hl
      exact allow_eq (h.growing hgrows q) q t

theorem agrees_write (hs : s.Clocked) (ht : t.InRange) (v : Value) (q : Quark) :
    Agrees (write t v q) (Store.write t v q) s := by
  refine (agrees_consult (check_eq hs.toSound q t)).bind fun _ s' hok => ?_
  obtain ⟨-, rfl⟩ := Store.Edit.ask_ok.1 hok
  refine (agrees_consult (written_eq (hs.growing hs.building q) (hs.timelines q) ht q v)).bind
    fun l s₁ _ => ?_
  exact (agrees_lift _ _).bind fun _ s₂ _ => agrees_lift _ _

theorem agrees_amend (hs : s.Clocked) (v : Value) (q : Quark) :
    Agrees (amend v q) (Store.amend v q) s := by
  refine (agrees_lift _ _).bind fun _ s' hok => ?_
  obtain ⟨-, rfl⟩ := Store.Edit.ask_ok.1 hok
  have hamended : (liftM (amended (s'.timelineOf q) v ((s'.stop.or s'.start).getD 0)) :
    Checked Timeline).run =
      .ok (.ok ((s'.timelineOf q).amend v ((s'.stop.or s'.start).getD 0))) := by
    rw [amended_eq (hs.growing hs.building q)]
    rfl
  exact Agrees.consult hamended rfl

/-- Closing computes no time but the one before it. -/
theorem agrees_close (ht : t.InRange) (s : Store) : Agrees (close t) (Store.close t) s := by
  refine (agrees_lift get s).bind fun s₀ s' hok => ?_
  obtain ⟨rfl, rfl⟩ := Store.Edit.get_ok.1 hok
  cases s.stop.filter fun stop => t < stop with
  | some stop => exact agrees_lift ..
  | none =>
    have hlast : (s.stop.elim (return t) fun stop => do return max (← before t) stop :
      Checked Time).run =
        .ok (.ok (s.stop.elim t (max t.before))) := by
      cases s.stop with
      | none => rfl
      | some stop =>
        simp only [Option.elim_some]
        rw [before_eq ht]
        rfl
    have hended : (liftM (endedAll t s.timelines.toList 0 (s.stop.elim t (max t.before))) :
      Checked _).run =
        .ok (.ok (Store.closeAll t s.timelines.toList 0 (s.stop.elim t (max t.before)))) := by
      rw [endedAll_eq ht]
      rfl
    exact Agrees.consult hlast (Agrees.consult hended rfl)

/-- Up to closing, no part computes a time that does not fit, at any store that grows. -/
theorem faithful_parts : Faithful Store.Clocked Time.InRange parts where
  ask f s := agrees_lift ..
  timeline _ := agrees_lift ..
  add base path hs := by
    have hstep := hs.step (a := .add base path) (by simp) trivial
    refine ⟨agrees_lift .., ?_⟩
    rwa [Call.after, Call.edit, Step.edit, Store.Edit.after_discard] at hstep
  advance {_ t} ht hs := ⟨agrees_lift .., hs.step (a := .advance t) (by simp) ht⟩
  check q t hs := agrees_consult (check_eq hs.toSound q t)
  write {_ t} v q ht hs := ⟨agrees_write hs ht v q, hs.step (a := .write t v q) (by simp) ht⟩
  amend v q _ hs := agrees_amend hs v q
  close ht _ := agrees_close ht _

theorem atTime_of_inRange (h : c.InRange) : c.AtTime Time.InRange := by
  cases c with
  | step a => cases a <;> exact h
  | _ => exact h

end

end Timed

/-! ## Runs -/

open StateSystem (Question)

/-- **No time leaves its 64 bits.** Up to the first time that a store is closed, and at whatever
times of 64 bits, each call does what it does without computing a time that 64 bits cannot hold. The
same holds of every question that is then asked of a state system with the store. -/
theorem timed_run (calls : List Call) (hopen : (Store.new.run calls.dropLast).closed = false)
    (hr : ∀ c ∈ calls, c.InRange) :
    (∀ before c after, calls = before ++ c :: after →
      Timed.call c (Store.new.run before) = .ok (outcome (c.edit (Store.new.run before)))) ∧
    ∀ (sys : StateSystem) (question : Question), sys.store = Store.new.run calls →
      (∀ t ∈ question.times, t.InRange) →
      (ask partitionPoint sys question).run = .ok (question.ask sys) := by
  constructor
  · rintro before c after rfl
    rw [List.dropLast_append_of_ne_nil (by simp), Store.run_append] at hopen
    have hbuilding := (Store.trail_run (Store.covered_run before) _).building hopen
    have hbefore := Store.clocked_run hbuilding fun c' hc' => hr c' (by simp [hc'])
    exact Timed.faithful_parts.agrees_edit (Timed.atTime_of_inRange (hr c (by simp))) hbefore
      (Store.grown_run before).toLinked fun _ => hbefore.covered
  · intro sys question hsys hq
    have hreadable : ∀ store, sys.live = .ok store → store.Readable := by
      intro store hlive
      unfold StateSystem.live at hlive
      split at hlive
      · cases hlive
      · obtain rfl := Except.ok.inj hlive
        rw [hsys]
        exact Store.readable_run hopen hr
    obtain ⟨answer, hanswer, hexact⟩ := runs_ask boundary_partitionPoint hreadable question hq
    rw [hanswer, hexact rfl]

/-- Two attributes in a store that is closed at the last time of 64 bits: one is written at the
first and at the last, the other only at the last. -/
def extremes : List Call :=
  [.step (.add .root ["a"]), .step (.add .root ["b"]), .step (.write Time.earliest (.int 1) ⟨1⟩),
    .step (.write Time.latest (.int 2) ⟨1⟩), .step (.write Time.latest (.int 3) ⟨2⟩),
    .step (.close Time.latest)]

/-- The last write and the close compute the time before the last, and so does the gap before the
second attribute. -/
theorem timed_run_extremes :
    Timed.call (.step (.close Time.latest)) (Store.new.run extremes.dropLast) =
      .ok (.ok (), Store.new.run extremes) ∧
    (ask partitionPoint { StateSystem.new "s" with
      store := Store.new.run extremes } (.full Time.earliest)).run =
      .ok (.ok (.intervals [⟨⟨0⟩, Time.earliest, Time.latest, .null⟩,
        ⟨⟨1⟩, Time.earliest, Time.latest - 1, .int 1⟩,
        ⟨⟨2⟩, Time.earliest, Time.latest - 1, .null⟩])) := by
  obtain ⟨hcalls, hasked⟩ := timed_run extremes (by decide) (by decide)
  refine ⟨(hcalls extremes.dropLast _ [] rfl).trans ?_, (hasked _ _ rfl (by decide)).trans ?_⟩
  · rfl
  · decide +kernel

/-- Once the store is closed, an amendment can leave 64 bits: nothing comes after an interval that
ends at the last time. -/
example : Timed.call (.step (.amend .null ⟨1⟩)) (Store.new.run
    [.step (.add .root ["a"]), .step (.write Time.latest .null ⟨1⟩), .step (.close Time.latest)]) =
      .error .overflow := by rfl

end Guarded

end StateHistory
