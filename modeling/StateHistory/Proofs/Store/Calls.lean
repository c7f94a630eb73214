import StateHistory.Proofs.Store.Edits
import StateHistory.Store.Queue

/-!
# Calls of a writer

A writer changes a store by calls, each of which may fail. A call is an elementary step or is
composed of several; `Call.steps` lists the steps that it really takes, and a `Trail` is a sequence
of steps that all succeed. What a step can do is said once, by `Step.Takes`: an invariant of the
store is proved for its five cases and then holds along every trail.
-/

namespace StateHistory.Store

open Edit

/-- The store as an edit leaves it, whether it succeeds or fails. -/
def Edit.after {α : Type} (op : Edit α) (s : Store) : Store :=
  match op s with
  | .ok _ s' => s'
  | .error _ s' => s'

theorem Edit.after_ask {α : Type} (f : Store → Except Failure α) (s : Store) :
    (ask f).after s = s := by
  unfold Edit.after ask
  cases f s <;> rfl

/-- Of two edits the second says what is left, or the first if it fails. -/
theorem Edit.after_bind {α β : Type} (op : Edit α) (f : α → Edit β) (s : Store) :
    (op >>= f).after s =
    match op s with
    | .ok a s' => (f a).after s'
    | .error _ s' => s' := by
  change Edit.after (EStateM.bind op f) s = _
  unfold Edit.after
  rw [EStateM.bind]
  cases op s <;> rfl

/-- What an edit answers makes no difference to what it leaves. -/
theorem Edit.after_discard {α : Type} (op : Edit α) (s : Store) :
    (op >>= fun _ => pure () : Edit Unit).after s = op.after s := by
  rw [Edit.after_bind]
  unfold Edit.after
  cases op s <;> rfl

/-- An elementary change. -/
inductive Step where
  | add (base : Quark) (path : List String)
  | advance (t : Time)
  | write (t : Time) (v : Value) (q : Quark)
  | amend (v : Value) (q : Quark)
  | close (t : Time)
deriving DecidableEq, Repr

def Step.edit : Step → Edit Unit
  | .add base path => do let _ ← Store.add base path
  | .advance t => Store.advance t
  | .write t v q => Store.write t v q
  | .amend v q => Store.amend v q
  | .close t => Store.close t

/-- What the writer of a store can ask for. -/
inductive Call where
  | step (step : Step)
  | push (t : Time) (v : Value) (q : Quark)
  | pop (t : Time) (q : Quark)
  | addLong (t : Time) (q : Quark) (delta : Int64)
  | addInt (t : Time) (q : Quark) (delta : Int32)
  | addDouble (t : Time) (q : Quark) (delta : UInt64)
  | clear (t : Time) (q : Quark)
  | offer (t : Time) (v : Value) (q : Quark)
  | poll (t : Time) (q : Quark)
deriving DecidableEq, Repr

namespace Call

def edit : Call → Edit Unit
  | .step a => a.edit
  | .push t v q => Store.push t v q
  | .pop t q => do let _ ← Store.pop t q
  | .addLong t q delta => Store.addLong t q delta
  | .addInt t q delta => Store.addInt t q delta
  | .addDouble t q delta => Store.addDouble t q delta
  | .clear t q => Store.clear t q
  | .offer t v q => Store.offer t v q
  | .poll t q => do let _ ← Store.poll t q

/-- The store after the call. -/
def after (c : Call) (s : Store) : Store := c.edit.after s

/-- The name of the slot that an offer fills. -/
def nextSlot (s : Store) (q : Quark) : List String := slotName ((s.slots q).length + 1)

/-- The attributes that `clear` sets to null. -/
def cleared (s : Store) (q : Quark) (below : List Quark) : List Quark :=
  (q :: below).filter fun a => !(s.valueOf a).isNull

/-- The slots that `poll` writes, each with the value behind it. -/
def shifted (s : Store) (q : Quark) : List (Quark × Value) :=
  (s.slots q).zip (((s.slots q).map s.valueOf).drop 1 ++ [.null])

/-- The steps of a call that succeeds at `s`, in order. -/
def parts (s : Store) : Call → List Step
  | .step a => [a]
  | .push t v q =>
    match depth q s with
    | .ok d =>
      let slot := slotName (d + 1)
      [.add q slot, .write t v (s.tree.grow q slot).1, .write t (.ofCount (d + 1)) q]
    | .error _ => []
  | .pop t q =>
    match depth q s with
    | .ok d =>
      match topChild q d s with
      | .ok child => [.write t .null child, .write t (depthValue (d - 1)) q]
      | .error _ => []
    | .error _ => []
  | .addLong t q delta =>
    match base 0 "long" Value.asLong q s with
    | .ok n => [.write t (.long (.ofInt (n + delta.toInt))) q]
    | .error _ => []
  | .addInt t q delta =>
    match base 0 "int" viewInt q s with
    | .ok n => [.write t (.int (.ofInt (n + delta.toInt))) q]
    | .error _ => []
  | .addDouble t q delta =>
    match base 0 "double" Value.asDouble q s with
    | .ok bits => [.write t (.double (addBits bits delta)) q]
    | .error _ => []
  | .clear t q =>
    match s.tree.below q true with
    | .ok below => (cleared s q below).map (.write t .null) ++ [.advance t]
    | .error _ => []
  | .offer t v q => [.add q (nextSlot s q), .write t v (s.tree.grow q (nextSlot s q)).1]
  | .poll t q => (shifted s q).map fun (slot, v) => .write t v slot

/-- The steps of a call that fails: only an offer leaves something behind, the slot it has added. -/
def leftover (s : Store) : Call → List Step
  | .offer _ _ q => if s.tree.contains q then [.add q (nextSlot s q)] else []
  | _ => []

/-- The steps that a call takes at `s`. -/
def steps (s : Store) (c : Call) : List Step :=
  match c.edit s with
  | .ok _ _ => c.parts s
  | .error _ _ => c.leftover s

end Call

/-- The store after some calls, whether they succeed or fail. -/
def run (s : Store) : List Call → Store
  | [] => s
  | c :: calls => run (c.after s) calls

/-- The steps that some calls take, one call after the other. -/
def trace (s : Store) : List Call → List Step
  | [] => []
  | c :: calls => c.steps s ++ trace (c.after s) calls

/-! ## What a step does -/

/-- Each step that succeeds: when it can, and what it leads to. -/
inductive Step.Takes (s : Store) : Step → Store → Prop
  | add {base : Quark} {path : List String} (h : s.tree.contains base = true) :
    Takes s (.add base path) (s.grown base path)
  | advance {t : Time} (h : s.Open t) : Takes s (.advance t) (s.reach t)
  | write {t : Time} {v : Value} {q : Quark} (h : s.Writable q t) :
    Takes s (.write t v q) (s.wrote t v q)
  | amend {v : Value} {q : Quark} (h : s.tree.contains q = true) :
      Takes s (.amend v q) (s.amended v q)
  | close {t : Time} (h : ∀ stop, s.stop = some stop → stop ≤ t) : Takes s (.close t) (s.ended t)

section
variable {s s₁ s' : Store} {a : Step} {steps more : List Step}

theorem Step.add_edit_ok_iff {base : Quark} {path : List String} :
    (Step.add base path).edit s = .ok () s' ↔
      s.tree.contains base = true ∧ s' = s.grown base path := by
  simp only [Step.edit, bind_ok, add_ok_iff, pure_ok]
  constructor
  · rintro ⟨_, _, ⟨hb, rfl, rfl⟩, -, rfl⟩
    exact ⟨hb, rfl⟩
  · rintro ⟨hb, rfl⟩
    exact ⟨_, _, ⟨hb, rfl, rfl⟩, trivial, rfl⟩

theorem Step.takes_of_edit (h : a.edit s = .ok () s') : a.Takes s s' := by
  cases a with
  | add base path =>
    obtain ⟨hb, rfl⟩ := Step.add_edit_ok_iff.1 h
    exact .add hb
  | advance t =>
    obtain ⟨ho, rfl⟩ := advance_ok_iff.1 h
    exact .advance ho
  | write t v q =>
    obtain ⟨hw, rfl⟩ := write_ok_iff.1 h
    exact .write hw
  | amend v q =>
    obtain ⟨hq, rfl⟩ := amend_ok_iff.1 h
    exact .amend hq
  | close t =>
    obtain ⟨hle, rfl⟩ := close_ok_iff.1 h
    exact .close hle

theorem Step.edit_error {e : Failure} (h : a.edit s = .error e s') : s' = s := by
  cases a with
  | add base path =>
    rcases bind_error.1 h with h | ⟨_, _, _, h⟩
    · exact (add_error h).2
    · cases h
  | advance t => exact advance_error h
  | write t v q => exact (write_error h).2
  | amend v q => exact amend_error h
  | close t => exact close_error h

theorem Call.after_of_edit (h : a.edit s = .ok () s') : (Call.step a).after s = s' := by
  unfold Call.after Edit.after
  simp only [Call.edit, h]

/-- A step that can be taken leads where it says, and one that cannot leads nowhere. -/
theorem Call.after_step (a : Step) (s : Store) : (a.edit s = .ok () ((Call.step a).after s)) ∨
    (∀ s', a.edit s ≠ .ok () s') ∧ (Call.step a).after s = s := by
  unfold Call.after Edit.after
  simp only [Call.edit]
  cases he : a.edit s with
  | ok u s' => exact Or.inl rfl
  | error e s' => exact Or.inr ⟨by simp, Step.edit_error he⟩

/-! ## Trails -/

/-- Steps that succeed one after the other and lead from one store to another. -/
inductive Trail : Store → List Step → Store → Prop
  | nil {s : Store} : Trail s [] s
  | cons {s s₁ s' : Store} {a : Step} {steps : List Step} (head : a.edit s = .ok () s₁)
    (rest : Trail s₁ steps s') : Trail s (a :: steps) s'

theorem Trail.append (h : Trail s steps s₁) (h' : Trail s₁ more s') :
    Trail s (steps ++ more) s' := by
  induction h with
  | nil => exact h'
  | cons head _ ih => exact .cons head (ih h')

theorem Trail.single (h : a.edit s = .ok () s') : Trail s [a] s' := .cons h .nil

/-- What every step keeps holds along every trail. -/
theorem Trail.induct {P : Store → Prop}
    (hstep : ∀ {s s' : Store} {a : Step}, P s → a.Takes s s' → P s') (h : Trail s steps s')
    (hs : P s) : P s' := by
  induction h with
  | nil => exact hs
  | cons head _ ih => exact ih (hstep hs (Step.takes_of_edit head))

/-- What every step of a kind keeps holds along every trail of such steps. -/
theorem Trail.induct_of {P : Store → Prop} {Q : Step → Prop}
    (hstep : ∀ {s s' : Store} {a : Step}, Q a → P s → a.Takes s s' → P s') (ht : Trail s steps s')
    (hsteps : ∀ a ∈ steps, Q a) (hs : P s) : P s' := by
  induction ht with
  | nil => exact hs
  | @cons s s₁ s' a steps head rest ih =>
    exact ih (fun b hb => hsteps b (by simp [hb])) (hstep (hsteps a (by simp)) hs
      (Step.takes_of_edit head))

end

/-- A closed store stays closed. -/
theorem Step.Takes.closed {s s' : Store} {a : Step} (ha : a.Takes s s') (hc : s.closed = true) :
    s'.closed = true := by
  cases ha with
  | add _ => exact hc
  | advance ho => rw [closed_reach]; exact hc
  | write hw => rw [closed_wrote]; exact hc
  | amend _ => exact hc
  | close _ => rfl

/-- Only closing closes. -/
theorem Step.Takes.closed_eq {s s' : Store} {a : Step} (ha : a.Takes s s') (h : ∀ t, a ≠ .close t) :
    s'.closed = s.closed := by
  cases ha with
  | add _ => rfl
  | advance _ => exact closed_reach
  | write _ => exact closed_wrote
  | amend _ => rfl
  | close _ => exact absurd rfl (h _)

theorem Step.Takes.building {s s' : Store} {a : Step} (ha : a.Takes s s') (hc : s'.closed = false) :
    s.closed = false := by
  cases hs : s.closed with
  | false => rfl
  | true => rw [ha.closed hs] at hc; cases hc

theorem Trail.closed {s s' : Store} {steps : List Step} (h : Trail s steps s')
    (hc : s.closed = true) :
    s'.closed = true := h.induct (P := fun s => s.closed = true) (fun hc ha => ha.closed hc) hc

theorem Trail.building {s s' : Store} {steps : List Step} (h : Trail s steps s')
    (hc : s'.closed = false) :
    s.closed = false := by
  cases hs : s.closed with
  | false => rfl
  | true => rw [h.closed hs] at hc; cases hc

/-! ## Covered stores -/

/-- There is one timeline for each attribute. -/
def Covered (s : Store) : Prop := s.timelines.size = s.tree.size

section
variable {s s' : Store} {a : Step} {q : Quark}

theorem covered_new : Covered new := rfl

theorem Covered.contains_iff (h : s.Covered) :
    s.tree.contains q = true ↔ q.index < s.timelines.size := by
  rw [h]
  simp [Tree.contains, Tree.size]

theorem Covered.takes (h : s.Covered) (ha : a.Takes s s') : s'.Covered := by
  unfold Covered at h ⊢
  cases ha with
  | add hb =>
    rename_i base path
    have := Tree.size_le_grow s.tree base path
    rw [grown, size_timelines_cover]
    simp only [cover]
    omega
  | advance ho => simpa using h
  | write hw => simpa using h
  | amend hq => simpa [amended, setTimeline] using h
  | close hle => simpa using h

end

end StateHistory.Store
