import StateHistory.Proofs.Store.Queued

/-!
# Queues among other calls

A writer may use an attribute as a queue while it does anything else elsewhere. As long as nothing
but offers and polls writes the children of the attribute, and these never go back in time, the
attribute is a queue: each of these calls answers as a list would (`results`, `answers`), and the
children show the list between the calls (`fifo_run`).
-/

namespace StateHistory.Store

open Queueing

/-- The use of `x` as a queue that a call is. -/
def queueingOf (x : Quark) : Call → Option Queueing
  | .offer t v q => if q = x then some (.offer t v) else none
  | .poll t q => if q = x then some (.poll t) else none
  | _ => none

/-- The uses of `x` as a queue in some calls. -/
def queueings (x : Quark) (calls : List Call) : List Queueing := calls.filterMap (queueingOf x)

/-- A call writes no child of `x`, new children included. -/
def Call.Avoids (s : Store) (x : Quark) (c : Call) : Prop :=
  ∀ a ∈ c.steps s, ∀ q, a.target? = some q → q ∉ (c.after s).tree.childrenOf x

instance (s : Store) (x : Quark) (c : Call) : Decidable (c.Avoids s x) :=
  inferInstanceAs (Decidable (∀ a ∈ c.steps s, ∀ q ∈ a.target?, q ∉ (c.after s).tree.childrenOf x))

/-- A use comes neither before the start nor before the uses so far, and offers no null. -/
structure InLine (s : Store) (past : List Queueing) (o : Queueing) : Prop where
  late : ∀ p ∈ past, p.time ≤ o.time
  started : ∀ start, s.start = some start → start ≤ o.time
  solid : o.value? ≠ some .null

instance (s : Store) (past : List Queueing) (o : Queueing) : Decidable (InLine s past o) :=
  decidable_of_iff ((∀ p ∈ past, p.time ≤ o.time) ∧ (∀ start ∈ s.start, start ≤ o.time) ∧
    o.value? ≠ some .null) ⟨fun ⟨hl, hs, hv⟩ => ⟨hl, hs, hv⟩, fun ⟨hl, hs, hv⟩ => ⟨hl, hs, hv⟩⟩

/-- Calls that use `x` as a queue after the uses `past`, and otherwise leave its children alone. -/
def UsedAsQueue (x : Quark) : Store → List Queueing → List Call → Prop
  | _, _, [] => True
  | s, past, c :: calls =>
    match queueingOf x c with
    | some o => InLine s past o ∧ UsedAsQueue x (c.after s) (past ++ [o]) calls
    | none => c.Avoids s x ∧ UsedAsQueue x (c.after s) past calls

instance decidableUsedAsQueue (x : Quark) :
    ∀ (s : Store) (past : List Queueing) (calls : List Call),
    Decidable (UsedAsQueue x s past calls)
  | _, _, [] => isTrue trivial
  | s, past, c :: calls =>
    have := fun past => decidableUsedAsQueue x (c.after s) past calls
    match hc : queueingOf x c with
    | some o =>
      decidable_of_iff (InLine s past o ∧ UsedAsQueue x (c.after s) (past ++ [o]) calls)
        (by simp only [UsedAsQueue, hc])
    | none =>
      decidable_of_iff (c.Avoids s x ∧ UsedAsQueue x (c.after s) past calls)
        (by simp only [UsedAsQueue, hc])

/-! ## What the calls answer -/

/-- What comes of a use of `x`: an offer answers nothing, a poll a value. -/
def result (x : Quark) (s : Store) : Queueing → Except Failure (Option Value)
  | .offer t v =>
    match offer t v x s with
    | .ok _ _ => .ok none
    | .error e _ => .error e
  | .poll t =>
    match poll t x s with
    | .ok v _ => .ok (some v)
    | .error e _ => .error e

/-- What comes of the uses of `x` among some calls, one after the other. -/
def results (x : Quark) : Store → List Call → List (Except Failure (Option Value))
  | _, [] => []
  | s, c :: calls =>
    match queueingOf x c with
    | some o => result x s o :: results x (c.after s) calls
    | none => results x (c.after s) calls

section
variable {s s' : Store} {x : Quark} {past : List Queueing} {o : Queueing}

/-- A call that leaves the children alone keeps the simulation. -/
theorem Queued.avoided (h : s.Queued x past) {c : Call} (hc : (c.after s).closed = false)
    (havoids : c.Avoids s x) :
    (c.after s).Queued x past :=
  h.of_spared (Call.trail h.sound.covered c) hc havoids

/-- **A use in line** answers as the queue does, and keeps the simulation. -/
theorem Queued.used (h : s.Queued x past) {c : Call} (hc : queueingOf x c = some o)
    (hs : s.closed = false) (ho : InLine s past o) :
    result x s o = .ok (o.answer (queueOf past)) ∧ (c.after s).Queued x (past ++ [o]) := by
  have hopen : s.Open o.time := ⟨hs, ho.started⟩
  cases c with
  | offer t v q =>
    obtain ⟨rfl, rfl⟩ : q = x ∧ Queueing.offer t v = o := by simpa [queueingOf] using hc
    have hv : v ≠ .null := fun hv => ho.solid (by rw [hv]; rfl)
    obtain ⟨s', hoffer, hs'⟩ := h.offered (t := t) hopen ho.late hv
    refine ⟨by simp only [result, hoffer, answer], ?_⟩
    simpa only [Call.after, Edit.after, Call.edit, hoffer] using hs'
  | poll t q =>
    obtain ⟨rfl, rfl⟩ : q = x ∧ Queueing.poll t = o := by simpa [queueingOf] using hc
    obtain ⟨s', hpoll, hs', -⟩ := h.polled (t := t) hopen ho.late
    refine ⟨by simp only [result, hpoll, answer], ?_⟩
    have hafter : (Call.poll t q).after s = (Store.poll t q).after s :=
      Edit.after_discard (Store.poll t q) s
    rw [hafter, Edit.after, hpoll]
    exact hs'
  | _ => cases hc

/-- **Calls that use an attribute as a queue** get the answers of a queue, and keep the
simulation. -/
theorem Queued.run (h : s.Queued x past) {calls : List Call} (huse : UsedAsQueue x s past calls)
    (hc : (s.run calls).closed = false) :
    results x s calls = (answers (queueOf past) (queueings x calls)).map .ok ∧
      (s.run calls).Queued x (past ++ queueings x calls) := by
  induction calls generalizing s past with
  | nil =>
    rw [queueings, List.filterMap_nil, List.append_nil]
    exact ⟨rfl, h⟩
  | cons c calls ih =>
    have hct := Call.trail h.sound.covered c
    have hc' : (c.after s).closed = false :=
      (trail_run (hct.covered h.sound.covered) calls).building hc
    unfold UsedAsQueue at huse
    cases ho : queueingOf x c with
    | some o =>
      rw [ho] at huse
      obtain ⟨hresult, hused⟩ := h.used ho (hct.building hc') huse.1
      obtain ⟨hrest, hqueued⟩ := ih hused huse.2 hc
      rw [queueOf_append] at hrest
      rw [queueings, List.filterMap_cons_some ho]
      refine ⟨?_, ?_⟩
      · simp only [results, ho, answers, List.map_cons, hresult, hrest, queueings]
      · rwa [List.append_assoc, List.singleton_append] at hqueued
    | none =>
      rw [ho] at huse
      rw [queueings, List.filterMap_cons_none ho]
      simp only [results, ho]
      exact ih (h.avoided hc' huse.1) huse.2 hc

/-- Whatever is offered in line is not null. -/
theorem solid_of_usedAsQueue {calls : List Call} (huse : UsedAsQueue x s past calls) :
    ∀ o ∈ queueings x calls, o.value? ≠ some .null := by
  induction calls generalizing s past with
  | nil => simp [queueings]
  | cons c calls ih =>
    unfold UsedAsQueue at huse
    cases ho : queueingOf x c with
    | some o =>
      rw [ho] at huse
      rw [queueings, List.filterMap_cons_some ho]
      intro p hp
      rcases List.mem_cons.1 hp with rfl | hp
      · exact huse.1.solid
      · exact ih huse.2 p hp
    | none =>
      rw [ho] at huse
      rw [queueings, List.filterMap_cons_none ho]
      exact ih huse.2

end

/-- **An attribute used as a queue is one.** Let `x` have no children in a growing store, and let
more calls offer values to it that are not null and poll it, at times that never go back, and
otherwise leave its children alone. Then all of these calls succeed, with the answers of a queue:
the polls answer the values in the order in which they were offered, and null just when nothing is
left, and then nothing is written. At the end, looking at the head finds it; the slots hold the
values that are left, in order, and further slots null; and queries find what the slots held at
their time. -/
theorem fifo_run (calls more : List Call) (x : Quark) (hx : (new.run calls).tree.contains x = true)
    (hchildren : (new.run calls).tree.childrenOf x = [])
    (huse : UsedAsQueue x (new.run calls) [] more)
    (hopen : ((new.run calls).run more).closed = false) :
    let s := (new.run calls).run more
    let uses := queueings x more
    results x (new.run calls) more = (answers [] uses).map .ok ∧
    ((answers [] uses).filterMap id).filter (· ≠ .null) ++ queueOf uses = uses.filterMap value? ∧
    .null ∉ queueOf uses ∧
    (∀ t, InLine s uses (.poll t) → queueOf uses = [] → poll t x s = .ok .null s) ∧
    peek x s = .ok ((queueOf uses).headD .null) ∧
    (∀ i < (queueOf uses).length, ∃ c, s.tree.find? x (slotName (i + 1 : Nat)) = some c) ∧
    ∀ i c, s.tree.find? x (slotName (i + 1 : Nat)) = some c →
      ongoingValue c s = .ok ((queueOf uses).getD i .null) ∧
      ∀ start t, s.start = some start → start ≤ t →
        ∃ iv, single t c s = .ok iv ∧ iv.value = (queueBy uses t).getD i .null := by
  intro s uses
  have hnil := queued_nil (sound_run calls) (linked_run calls) hx hchildren
  obtain ⟨hresults, hrun⟩ := hnil.run huse hopen
  have h : s.Queued x uses := by simpa using hrun
  refine ⟨hresults, answers_append_queue [] List.not_mem_nil uses (solid_of_usedAsQueue huse),
    h.null_notMem, fun t ho hempty => ?_, h.peek hopen, fun i hi => ?_, fun i c hc => ?_⟩
  · obtain ⟨s', hpoll, -, hsame⟩ := h.polled (t := t) ⟨hopen, ho.started⟩ ho.late
    rw [hpoll, hempty, hsame hempty]
    rfl
  · obtain ⟨c, hc⟩ := h.exists_slot hi
    exact ⟨c, (find?_slotName h.contained).trans hc⟩
  · rw [find?_slotName h.contained] at hc
    have hin := h.linked.contains_of_mem (mem_of_slotOf hc)
    refine ⟨?_, fun start t hstart hle =>
      ⟨_, single_ok_iff.2 ⟨hin, ⟨⟨start, hstart, hle⟩, fun hclosed => ?_⟩, rfl⟩, ?_⟩⟩
    · rw [ongoingValue_eq (h.sound.covered.contains_iff.1 hin), h.valueOf_eq hopen hc]
    · rw [hopen] at hclosed
      cases hclosed
    · rw [intervalAt_value, h.value t i c hc]

/-- Two queues by turns, a poll of the empty queue, values at one time, a slot that another call
adds and one used again. -/
def queueing : List Call :=
  [.poll 5 ⟨1⟩, .offer 10 (.int 1) ⟨1⟩, .offer 15 (.int 7) ⟨2⟩, .offer 10 (.int 2) ⟨1⟩,
    .poll 20 ⟨1⟩, .step (.add ⟨1⟩ ["3"]),
    .offer 20 (.int 3) ⟨1⟩, .poll 20 ⟨1⟩, .offer 20 (.int 4) ⟨1⟩, .poll 12 ⟨2⟩,
    .offer 30 (.string "z") ⟨1⟩]

theorem fifo_run_queueing :
    results ⟨1⟩ (new.run [.step (.add ⟨0⟩ ["a"]), .step (.add ⟨0⟩ ["b"])]) queueing =
      [.ok (some .null), .ok none, .ok none, .ok (some (.int 1)), .ok none, .ok (some (.int 2)),
        .ok none, .ok none] ∧
    peek ⟨1⟩ ((new.run [.step (.add ⟨0⟩ ["a"]), .step (.add ⟨0⟩ ["b"])]).run queueing) =
      .ok (.int 3) := by
  obtain ⟨hresults, -, -, -, hpeek, -⟩ :=
    fifo_run [.step (.add ⟨0⟩ ["a"]), .step (.add ⟨0⟩ ["b"])] queueing ⟨1⟩
    (by decide +kernel) (by decide +kernel) (by decide +kernel) (by decide +kernel)
  exact ⟨hresults, hpeek⟩

end StateHistory.Store
