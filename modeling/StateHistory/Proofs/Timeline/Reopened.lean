import StateHistory.Proofs.Guarded.Times
import StateHistory.Proofs.Timeline.LinearScan

/-!
# Timelines that are opened again

On its own a timeline can be closed and opened again as often as one likes, by a write at any later
time or by an amendment that goes on where the last interval ended. So it can have holes, and yet
each change keeps it in order (`Ordered.after`): it closes at most the ongoing state, which started
behind all that was closed before, and starts the new one behind that. Whatever is called, then, a
lookup finds what a scan finds (`lookup_run`). The times are exact here. With times of 64 bits the
calls do the same until one of them comes to a time that does not fit (`Guarded.Timed.gives_run`).
-/

namespace StateHistory

namespace Timeline

/-! ## Changes keep the order -/

section
variable {l : Timeline} {q : Quark} {t : Time} {o : Ongoing}

theorem ordered_empty : Ordered {} := by
  constructor <;> simp [last?]

/-- Another ongoing state that starts after the last closed interval. -/
theorem Ordered.begun (h : l.Ordered) (hlast : ∀ iv, l.last? = some iv → iv.stop < o.start) :
    Ordered { l with ongoing := some o } := by
  refine ⟨h.start_le, h.pairwise, ?_⟩
  rintro _ iv ⟨⟩ hl
  exact hlast iv hl

/-- The ongoing state becomes the last closed interval, and whatever is ongoing now starts after
it. -/
theorem Ordered.ended (h : l.Ordered) (ho : l.ongoing = some o) (q : Quark) {stop : Time}
    (hle : o.start ≤ stop) {next : Option Ongoing}
    (hnext : ∀ o', next = some o' → stop < o'.start) :
    Ordered { closed := l.closed.push ⟨q, o.start, stop, o.value⟩, ongoing := next } := by
  refine ⟨?_, ?_, ?_⟩
  · intro iv hiv
    rcases Array.mem_push.1 hiv with hiv | rfl
    · exact h.start_le iv hiv
    · exact hle
  · rw [Array.toList_push, List.pairwise_append]
    refine ⟨h.pairwise, List.pairwise_singleton .., fun iv hiv last hlast => ?_⟩
    rw [List.mem_singleton.1 hlast]
    exact h.stop_lt_ongoing (Array.mem_toList_iff.1 hiv) ho
  · intro o' last ho' hlast
    simp only [last?, Array.back?_push, Option.some.injEq] at hlast
    subst hlast
    exact hnext o' ho'

theorem Ordered.opened (h : l.Ordered) (v : Value) (ht : l.tooEarly t = none) :
    (l.opened q t v).Ordered := by
  rw [tooEarly_eq_none_iff] at ht
  unfold Timeline.opened cut
  cases ho : l.ongoing with
  | none =>
    refine h.begun fun iv hl => ?_
    have hle := ht (iv.stop + 1) (by simp [floor, ho, hl])
    simp only
    lia
  | some o =>
    have hle := ht _ (floor_of_ongoing ho)
    by_cases hlt : o.start < t
    · simp only [hlt, ↓reduceIte]
      refine h.ended ho q (by lia) ?_
      rintro _ ⟨⟩
      simp only
      lia
    · simp only [hlt, ↓reduceIte]
      refine h.begun fun iv hl => ?_
      have hstart := h.last_lt o iv ho hl
      simp only
      lia

theorem Ordered.amend (h : l.Ordered) (v : Value) (t : Time) : (l.amend v t).Ordered := by
  unfold Timeline.amend
  cases ho : l.ongoing with
  | some o => exact h.begun fun iv hl => h.last_lt o iv ho hl
  | none =>
    refine h.begun fun iv hl => ?_
    simp only [hl]
    lia

theorem Ordered.close (h : l.Ordered) (q : Quark) (t : Time) : (l.close q t).2.Ordered := by
  unfold Timeline.close
  cases ho : l.ongoing with
  | some o => exact h.ended ho q (Int.le_max_right ..) (by simp)
  | none => exact h

end

/-! ## Calls -/

/-- A call that changes a timeline. -/
inductive Call where
  | write (q : Quark) (t : Time) (v : Value)
  | amend (v : Value) (default : Time)
  | close (q : Quark) (t : Time)
deriving DecidableEq, Repr

/-- The timeline after the call. A write that comes too early changes nothing. -/
def Call.after (l : Timeline) : Call → Timeline
  | .write q t v =>
    match l.write q t v with
    | .ok l' => l'
    | .error _ => l
  | .amend v default => l.amend v default
  | .close q t => (l.close q t).2

/-- The timeline after some calls, whether they succeed or fail. -/
def run (l : Timeline) (calls : List Call) : Timeline := calls.foldl Call.after l

theorem Ordered.after {l : Timeline} (h : l.Ordered) (c : Call) : (c.after l).Ordered := by
  cases c with
  | write q t v =>
    unfold Call.after
    cases ht : l.tooEarly t with
    | some floor => simpa only [write, ht] using h
    | none => simpa only [write_eq_opened v ht] using h.opened v ht
  | amend v default => exact h.amend v default
  | close q t => exact h.close q t

theorem Ordered.run {l : Timeline} (h : l.Ordered) (calls : List Call) : (l.run calls).Ordered := by
  induction calls generalizing l with
  | nil => exact h
  | cons c calls ih => exact ih (h.after c)

end Timeline

/-! ## Times of 64 bits -/

namespace Guarded

variable {α β : Type}

/-- If the operation comes to no fault, it gives `a`. -/
def Gives (x : Guarded α) (a : α) : Prop := ∀ b, x = .ok b → b = a

theorem gives_ok (a : α) : Gives (.ok a) a := by
  rintro _ ⟨⟩
  rfl

theorem Gives.bind {x : Guarded α} {a : α} {f : α → Guarded β} {b : β} (h : Gives x a)
    (hf : Gives (f a) b) :
    Gives (x >>= f) b := by
  intro c hc
  cases x with
  | ok a' =>
    obtain rfl := h a' rfl
    exact hf c hc
  | error e => cases hc

theorem gives_calculated (t : Int) : Gives (calculated t) t := by
  unfold calculated
  split
  · exact gives_ok t
  · rintro _ ⟨⟩

namespace Timed

theorem gives_floor (l : Timeline) : Gives (floor l) l.floor := by
  unfold floor Timeline.floor
  cases l.ongoing with
  | some o => exact gives_ok _
  | none =>
    cases l.last? with
    | some iv => exact (gives_calculated _).bind (gives_ok _)
    | none => exact gives_ok _

theorem gives_tooEarly (l : Timeline) (t : Time) : Gives (tooEarly l t) (l.tooEarly t) :=
  (gives_floor l).bind (gives_ok _)

theorem gives_cut (l : Timeline) (q : Quark) (t : Time) : Gives (cut l q t) (l.cut q t) := by
  unfold cut Timeline.cut
  cases l.ongoing with
  | none => exact gives_ok _
  | some o =>
    simp only
    split
    · exact (gives_calculated _).bind (gives_ok _)
    · exact gives_ok _

theorem gives_written (l : Timeline) (q : Quark) (t : Time) (v : Value) :
    Gives (written l q t v).run (l.write q t v) := by
  have hearly := gives_tooEarly l t
  unfold written allow Timeline.write
  cases htime : tooEarly l t with
  | error e => rintro _ ⟨⟩
  | ok early =>
    obtain rfl := hearly _ htime
    cases l.tooEarly t with
    | some floor => exact gives_ok _
    | none =>
      have hcut := gives_cut l q t
      cases hclosed : cut l q t with
      | error e => rintro _ ⟨⟩
      | ok closed =>
        obtain rfl := hcut _ hclosed
        exact gives_ok _

theorem gives_amended (l : Timeline) (v : Value) (default : Time) :
    Gives (amended l v default) (l.amend v default) := by
  unfold amended Timeline.amend
  cases l.ongoing with
  | some o => exact gives_ok _
  | none =>
    cases l.last? with
    | some iv => exact (gives_calculated _).bind (gives_ok _)
    | none => exact gives_ok _

/-- Only at the earliest time the time before it is not one less. -/
theorem gives_before (t : Time) : Gives (before t) t.before := by
  unfold before
  split
  · rename_i heq
    rw [heq]
    exact gives_ok _
  · rename_i hne
    intro u hu
    obtain rfl := gives_calculated _ u hu
    unfold calculated at hu
    split at hu
    · rename_i hrange
      unfold Time.InRange at hrange
      unfold Time.before
      lia
    · cases hu

theorem gives_ended (l : Timeline) (q : Quark) (t : Time) : Gives (ended l q t) (l.close q t) := by
  unfold ended Timeline.close
  cases l.ongoing with
  | none => exact gives_ok _
  | some o => exact (gives_before t).bind (gives_ok _)

/-- The timeline after a call. -/
def after (l : Timeline) : Timeline.Call → Guarded Timeline
  | .write q t v => do
    match ← (written l q t v).run with
    | .ok l' => return l'
    | .error _ => return l
  | .amend v default => amended l v default
  | .close q t => do return (← ended l q t).2

/-- The timeline after some calls. -/
def run (l : Timeline) (calls : List Timeline.Call) : Guarded Timeline := calls.foldlM after l

theorem gives_after (l : Timeline) (c : Timeline.Call) : Gives (after l c) (c.after l) := by
  cases c with
  | write q t v =>
    refine (gives_written l q t v).bind ?_
    simp only [Timeline.Call.after]
    cases l.write q t v with
    | ok l' => exact gives_ok _
    | error e => exact gives_ok _
  | amend v default => exact gives_amended l v default
  | close q t => exact (gives_ended l q t).bind (gives_ok _)

theorem gives_run (l : Timeline) (calls : List Timeline.Call) :
    Gives (run l calls) (l.run calls) := by
  induction calls generalizing l with
  | nil => exact gives_ok l
  | cons c calls ih => exact (gives_after l c).bind (ih (c.after l))

end Timed

end Guarded

namespace Timeline

/-- **A lookup finds what a scan finds, whatever was called.** The closed intervals are in the order
of time and apart from each other, and the ongoing state starts behind them. A lookup at any time
tells which of them there is, or how far away the nearest are. The calls come to the same timeline
with times of 64 bits if all the times that they compute fit. -/
theorem lookup_run (calls : List Call) (t : Time) :
    ((∀ iv ∈ (run {} calls).closed, iv.start ≤ iv.stop) ∧
      (run {} calls).closed.toList.Pairwise (fun a b => a.stop < b.start) ∧
      ∀ o, (run {} calls).ongoing = some o → ∀ iv ∈ (run {} calls).closed, iv.stop < o.start) ∧
    (run {} calls).lookup t = (run {} calls).scan t ∧
    (run {} calls).Finds t ((run {} calls).lookup t) ∧
    ∀ l, Guarded.Timed.run {} calls = .ok l → l = run {} calls := by
  have h := ordered_empty.run calls
  refine ⟨⟨h.start_le, h.pairwise, fun o ho iv hiv => h.stop_lt_ongoing hiv ho⟩, h.lookup_eq_scan t,
    h.finds_lookup t, ?_⟩
  exact Guarded.Timed.gives_run {} calls

/-- Closed at 20, opened again by a write at 30, closed there, and opened again by an amendment:
there is a hole at 25. -/
example :
    (Guarded.Timed.run {} [.write ⟨1⟩ 10 .null, .close ⟨1⟩ 20, .write ⟨1⟩ 30 .null, .close ⟨1⟩ 30,
    .amend .null 0]).map (fun l => (l.lookup 25, l.lookup 31)) =
      .ok (.gap (some 19) (some 30), .ongoing ⟨31, .null⟩) := by decide

end Timeline

end StateHistory
