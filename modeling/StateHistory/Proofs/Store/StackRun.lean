import StateHistory.Proofs.Store.Stacked

/-!
# Stacks among other calls

A writer may use an attribute as a stack while it does anything else elsewhere. As long as nothing
but pushes and pops writes the attribute and its slots, and these never go back in time, the
attribute is a stack: pushes succeed, pops take the last value that was pushed and not yet popped,
and a query for the top finds what was on top at its time (`stack_run`).
-/

namespace StateHistory.Store

open Touch

/-- The use of `x` as a stack that a call is. -/
def touchOf (x : Quark) : Call → Option Touch
  | .push t v q => if q = x then some (.push t v) else none
  | .pop t q => if q = x then some (.pop t) else none
  | _ => none

/-- The uses of `x` as a stack in some calls. -/
def touches (x : Quark) (calls : List Call) : List Touch := calls.filterMap (touchOf x)

/-- A call writes neither `x` nor a child of `x`, new children included. What lies further below may
be written, and children may be added. -/
def Call.Spares (s : Store) (x : Quark) (c : Call) : Prop :=
  ∀ a ∈ c.steps s, ∀ q, a.target? = some q → q ≠ x ∧ q ∉ (c.after s).tree.childrenOf x

instance (s : Store) (x : Quark) (c : Call) : Decidable (c.Spares s x) :=
  inferInstanceAs
    (Decidable (∀ a ∈ c.steps s, ∀ q ∈ a.target?, q ≠ x ∧ q ∉ (c.after s).tree.childrenOf x))

/-- A touch comes neither before the start nor before the touches so far, and leaves a stack whose
height has 64 bits. -/
structure InTurn (s : Store) (past : List Touch) (o : Touch) : Prop where
  late : ∀ p ∈ past, p.time ≤ o.time
  started : ∀ start, s.start = some start → start ≤ o.time
  fits : Value.fitsLong (o.act (stackOf past)).length = true

instance (s : Store) (past : List Touch) (o : Touch) : Decidable (InTurn s past o) :=
  decidable_of_iff ((∀ p ∈ past, p.time ≤ o.time) ∧ (∀ start ∈ s.start, start ≤ o.time) ∧
      Value.fitsLong (o.act (stackOf past)).length = true)
    ⟨fun ⟨hl, hs, hf⟩ => ⟨hl, hs, hf⟩, fun ⟨hl, hs, hf⟩ => ⟨hl, hs, hf⟩⟩

/-- Calls that use `x` as a stack after the touches `past`, and otherwise spare it. -/
def UsedAsStack (x : Quark) : Store → List Touch → List Call → Prop
  | _, _, [] => True
  | s, past, c :: calls =>
    match touchOf x c with
    | some o => InTurn s past o ∧ UsedAsStack x (c.after s) (past ++ [o]) calls
    | none => c.Spares s x ∧ UsedAsStack x (c.after s) past calls

instance decidableUsedAsStack (x : Quark) : ∀ (s : Store) (past : List Touch) (calls : List Call),
    Decidable (UsedAsStack x s past calls)
  | _, _, [] => isTrue trivial
  | s, past, c :: calls =>
    have := fun past => decidableUsedAsStack x (c.after s) past calls
    match hc : touchOf x c with
    | some o =>
      decidable_of_iff (InTurn s past o ∧ UsedAsStack x (c.after s) (past ++ [o]) calls)
        (by simp only [UsedAsStack, hc])
    | none =>
      decidable_of_iff (c.Spares s x ∧ UsedAsStack x (c.after s) past calls)
        (by simp only [UsedAsStack, hc])

section
variable {s s' : Store} {x q : Quark} {past : List Touch} {o : Touch} {steps : List Step}

/-- A call that spares the stack keeps the simulation. -/
theorem Stacked.spared (h : s.Stacked x past) {c : Call} (hc : (c.after s).closed = false)
    (hspares : c.Spares s x) :
    (c.after s).Stacked x past :=
  h.of_spared (Call.trail h.sound.covered c) hc hspares

theorem Call.after_pop (t : Time) (q : Quark) (s : Store) :
    (Call.pop t q).after s = (Store.pop t q).after s :=
  Edit.after_discard (Store.pop t q) s

/-- A touch in turn keeps the simulation. -/
theorem Stacked.touched (h : s.Stacked x past) {c : Call} (hc : touchOf x c = some o)
    (hs : s.closed = false) (ho : InTurn s past o) : (c.after s).Stacked x (past ++ [o]) := by
  have hopen : s.Open o.time := ⟨hs, ho.started⟩
  cases c with
  | push t v q =>
    obtain ⟨rfl, rfl⟩ : q = x ∧ Touch.push t v = o := by simpa [touchOf] using hc
    obtain ⟨s', hpush, hs', -⟩ := h.push (t := t) hopen ho.late v ho.fits
    simpa only [Call.after, Edit.after, Call.edit, hpush] using hs'
  | pop t q =>
    obtain ⟨rfl, rfl⟩ : q = x ∧ Touch.pop t = o := by simpa [touchOf] using hc
    obtain ⟨s', hpop, hs', -⟩ := h.popped (t := t) hopen ho.late
    rw [Call.after_pop, Edit.after]
    rcases hpop with ⟨v, hpop⟩ | hpop
    · rw [hpop]
      exact hs'
    · rw [hpop]
      exact hs'
  | _ => cases hc

/-- **Calls that use an attribute as a stack keep the simulation.** -/
theorem Stacked.run (h : s.Stacked x past) {calls : List Call} (huse : UsedAsStack x s past calls)
    (hc : (s.run calls).closed = false) : (s.run calls).Stacked x (past ++ touches x calls) := by
  induction calls generalizing s past with
  | nil =>
    rw [touches, List.filterMap_nil, List.append_nil]
    exact h
  | cons c calls ih =>
    have hct := Call.trail h.sound.covered c
    have hc' : (c.after s).closed = false :=
      (trail_run (hct.covered h.sound.covered) calls).building hc
    unfold UsedAsStack at huse
    cases ho : touchOf x c with
    | some o =>
      rw [ho] at huse
      have := ih (h.touched ho (hct.building hc') huse.1) huse.2 hc
      rw [touches, List.filterMap_cons_some ho]
      rwa [List.append_assoc, List.singleton_append] at this
    | none =>
      rw [ho] at huse
      rw [touches, List.filterMap_cons_none ho]
      exact ih (h.spared hc' huse.1) huse.2 hc

end

/-- **An attribute used as a stack is one.** Let `x` have no children and no records in a growing
store, and let more calls push and pop it, at times that never go back, and otherwise spare it and
its slots. Then the next push succeeds; the next pop succeeds with the top of the stack, and fails
for underflow if it is empty; the depth is the height of the stack; and a query for the top finds
what was on top at its time, also after closing. -/
theorem stack_run (calls more : List Call) (x : Quark) (hx : (new.run calls).tree.contains x = true)
    (hchildren : (new.run calls).tree.childrenOf x = [])
    (hempty : (new.run calls).timelineOf x = {}) (huse : UsedAsStack x (new.run calls) [] more)
    (hopen : ((new.run calls).run more).closed = false) :
    let s := (new.run calls).run more
    let past := touches x more
    (∀ t v, InTurn s past (.push t v) → ∃ s', push t v x s = .ok () s') ∧
    (∀ t, InTurn s past (.pop t) →
      (∀ v below, stackOf past = v :: below → ∃ s', pop t x s = .ok v s') ∧
      (stackOf past = [] → pop t x s = .error (.stackUnderflow x t) s)) ∧
    depth x s = .ok (stackOf past).length ∧
    (∀ start t, s.start = some start → start ≤ t →
      ∃ found, top t x s = .ok found ∧ found.map (·.value) = (stackBy past t).head?) ∧
    ∀ stop s' start t, close stop s = .ok () s' → s'.start = some start → start ≤ t → t < stop →
      ∃ found, top t x s' = .ok found ∧ found.map (·.value) = (stackBy past t).head? := by
  intro s past
  have hnil := stacked_nil (sound_run calls) (linked_run calls) hx hchildren hempty
  have h : s.Stacked x past := by simpa using hnil.run huse hopen
  refine ⟨fun t v ho => ?_, fun t ho => ⟨fun v below hv => ?_, fun hv => ?_⟩, h.depth hopen,
    fun start t hs hle => ?_, fun stop s' start t hclose hs hle hlt => ?_⟩
  · obtain ⟨s', hpush, -⟩ := h.push (t := t) ⟨hopen, ho.started⟩ ho.late v ho.fits
    exact ⟨s', hpush⟩
  · obtain ⟨s', hpop, -⟩ := h.pop_cons (t := t) ⟨hopen, ho.started⟩ ho.late hv
    exact ⟨s', hpop⟩
  · exact (h.pop_nil hopen ho.late hv).1
  · refine h.top ⟨⟨start, hs, hle⟩, fun hc => ?_⟩
    rw [hopen] at hc
    cases hc
  · obtain ⟨-, rfl⟩ := close_ok_iff.1 hclose
    refine h.top_ended hlt ⟨⟨start, hs, hle⟩, fun _ last hl => ?_⟩
    rw [stop_ended, Option.some.injEq] at hl
    have := sub_one_le_lastTime s stop
    lia

/-- Two stacks by turns, a null on one of them, an underflow, and values written at one time. -/
def stacking : List Call :=
  [.push 10 (.int 1) ⟨1⟩, .push 15 (.int 7) ⟨2⟩, .push 20 .null ⟨1⟩,
    .step (.add ⟨1⟩ ["3"]), .pop 20 ⟨1⟩,
    .pop 30 ⟨1⟩, .pop 30 ⟨1⟩, .pop 12 ⟨2⟩, .push 40 (.string "z") ⟨1⟩]

theorem stack_run_stacking :
    ∃ s' found,
      depth ⟨1⟩ ((new.run [.step (.add ⟨0⟩ ["a"]), .step (.add ⟨0⟩ ["b"])]).run stacking) = .ok 1 ∧
      close 50 ((new.run [.step (.add ⟨0⟩ ["a"]), .step (.add ⟨0⟩ ["b"])]).run stacking) =
        .ok () s' ∧
      top 25 ⟨1⟩ s' = .ok found ∧ found.map (·.value) = some (.int 1) := by
  obtain ⟨-, -, hdepth, -, hclosed⟩ :=
    stack_run [.step (.add ⟨0⟩ ["a"]), .step (.add ⟨0⟩ ["b"])] stacking ⟨1⟩
    (by decide +kernel) (by decide +kernel) (by decide +kernel) (by decide +kernel)
      (by decide +kernel)
  have hclose :=
    (close_ok_iff (t := 50) (s :=
    (new.run [.step (.add ⟨0⟩ ["a"]), .step (.add ⟨0⟩ ["b"])]).run stacking)).2
    ⟨by decide +kernel, rfl⟩
  obtain ⟨found, hfound, hvalue⟩ :=
    hclosed 50 _ 10 25 hclose (by decide +kernel) (by decide) (by decide)
  exact ⟨_, found, hdepth, hclose, hfound, hvalue⟩

end StateHistory.Store
