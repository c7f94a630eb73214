import StateHistory.Proofs.Store.Calls
import StateHistory.StateSystem.Reader

/-!
# The state systems that there are

A state system is new or restored from an image, and from then on changed by its writer, by the end
of construction, and by giving up the data. All that the writer does to the store are calls,
deferred changes included (`apply_eq`), so what calls keep is true of the store of every state
system: `Reached.store`.
-/

namespace StateHistory

open Store

/-- The call that a deferred change makes when it takes effect. -/
def Change.call (c : Change) : Call :=
  match c.kind with
  | .write => .step (.write c.time c.value c.quark)
  | .push => .push c.time c.value c.quark
  | .pop => .pop c.time c.quark

namespace StateSystem

/-- The system as an operation leaves it, whether it succeeds or fails. -/
def Write.after {α : Type} (op : Write α) (s : StateSystem) : StateSystem :=
  match op s with
  | .ok _ s' => s'
  | .error _ s' => s'

/-- What can be done to a state system. -/
inductive Operation where
  | call (c : Call)
  | schedule (c : Change)
  | flush (t : Time)
  | advanceTo (t : Time)
  | close (t : Time)
  | finish (status : Status)
  | dispose
deriving DecidableEq, Repr

/-- The system after an operation. -/
def Operation.after (s : StateSystem) : Operation → StateSystem
  | .call c => (edit c.edit).after s
  | .schedule c => (StateSystem.schedule c).after s
  | .flush t => (StateSystem.flush t).after s
  | .advanceTo t => (StateSystem.advanceTo t).after s
  | .close t => (StateSystem.close t).after s
  | .finish status => s.finish status
  | .dispose => s.dispose

/-- The systems that operations lead to from a new or restored one. -/
inductive Reached : StateSystem → Prop
  | new (id : String) : Reached (new id)
  | restored {id : String} {i : Image} {s : StateSystem} (h : ofImage id i = .ok s) : Reached s
  | operated {s : StateSystem} (h : Reached s) (o : Operation) : Reached (o.after s)

section
variable {s s' : StateSystem} {P : Store → Prop}

theorem edit_of_live {α : Type} (op : Edit α) (h : s.disposed = false) :
    edit op s = match op s.store with
      | .ok a store => .ok a (s.publish store)
      | .error e store => .error e (s.publish store) := by
  have hlive : s.live = .ok s.store := by simp [live, h]
  cases hop : op s.store with
  | ok a store => simp [edit, hlive, hop]
  | error e store => simp [edit, hlive, hop]

theorem edit_of_disposed {α : Type} (op : Edit α) (h : s.disposed = true) :
    edit op s = .error (.disposed s.id) s := by
  simp [edit, live, h]

theorem query_of_live {α : Type} (h : s.disposed = false) (f : Store → Except Failure α) :
    s.query f = f s.store := by
  simp [query, live, h, bind, Except.bind]

theorem locate_of_descend {p : List String} {q : Quark} (h : s.disposed = false)
    (hroot : s.store.tree.contains .root = true) (hd : s.store.tree.descend .root p = some q) :
    s.locate .root p = .ok q := by
  have hfind : s.store.tree.find? .root p = some q := by rw [Tree.find?, if_pos hroot, hd]
  simp [locate, live, h, bind, Except.bind, hfind, pure, Except.pure]

section
variable {α β : Type} {a : α} {store : Store} {e : Failure}

theorem edit_of_ok {op : Edit α} (h : s.disposed = false) (hop : op s.store = .ok a store) :
    edit op s = .ok a (s.publish store) := by
  rw [edit_of_live op h, hop]

theorem edit_of_error {op : Edit α} (h : s.disposed = false) (hop : op s.store = .error e store) :
    edit op s = .error e (s.publish store) := by
  rw [edit_of_live op h, hop]

theorem bind_of_ok {op : Write α} {f : α → Write β} (h : op s = .ok a s') :
    (op >>= f) s = f a s' := by
  change EStateM.bind op f s = _
  rw [EStateM.bind, h]

theorem bind_of_error {op : Write α} {f : α → Write β} (h : op s = .error e s') :
    (op >>= f) s = .error e s' := by
  change EStateM.bind op f s = _
  rw [EStateM.bind, h]

theorem discard_of_ok {op : Write α} (h : op s = .ok a s') :
    (discard op : Write Unit) s = .ok () s' := by
  change EStateM.map (fun _ => PUnit.unit) op s = _
  rw [EStateM.map, h]

theorem discard_of_error {op : Write α} (h : op s = .error e s') :
    (discard op : Write Unit) s = .error e s' := by
  change EStateM.map (fun _ => PUnit.unit) op s = _
  rw [EStateM.map, h]

end

/-- A call leaves the store that it leaves alone, or the one before it if the data was given up. -/
theorem store_after_edit (c : Call) (hP : P s.store)
    (hcall : ∀ (c : Call) store, P store → P (c.after store)) :
    P ((edit c.edit).after s).store := by
  unfold Write.after
  cases hd : s.disposed with
  | true => rw [edit_of_disposed _ hd]; exact hP
  | false =>
    have := hcall c s.store hP
    unfold Call.after Edit.after at this
    rw [edit_of_live _ hd]
    cases hc : c.edit s.store <;> rw [hc] at this <;> exact this

/-- A change takes effect as a call. -/
theorem apply_eq (c : Change) : apply c = edit c.call.edit := by
  unfold apply Change.call
  cases c.kind with
  | write => rfl
  | push => rfl
  | pop =>
    funext s
    change EStateM.bind (edit (Store.pop c.time c.quark)) (fun _ => pure ()) s =
      edit (EStateM.bind (Store.pop c.time c.quark) fun _ => pure ()) s
    cases hd : s.disposed with
    | true => simp [EStateM.bind, edit_of_disposed _ hd]
    | false =>
      simp only [EStateM.bind, edit_of_live _ hd]
      cases Store.pop c.time c.quark s.store <;> rfl

theorem after_edit_of_live (c : Call) (hd : s.disposed = false) :
    (edit c.edit).after s = s.publish (c.after s.store) := by
  unfold Write.after Call.after Edit.after
  rw [edit_of_live _ hd]
  cases c.edit s.store <;> rfl

/-- An edit changes at most the store and what is made known of it. -/
theorem edit_after {α : Type} (op : Edit α) (s : StateSystem) :
    (edit op).after s = s ∨ ∃ store, (edit op).after s = s.publish store := by
  unfold Write.after
  cases hd : s.disposed with
  | true =>
    rw [edit_of_disposed _ hd]
    exact Or.inl rfl
  | false =>
    rw [edit_of_live _ hd]
    cases op s.store with
    | ok a store => exact Or.inr ⟨store, rfl⟩
    | error e store => exact Or.inr ⟨store, rfl⟩

theorem deferred_edit {α : Type} (op : Store.Edit α) (s : StateSystem) :
    ((edit op).after s).deferred = s.deferred := by
  rcases edit_after op s with h | ⟨store, h⟩
  · rw [h]
  · rw [h]
    rfl

/-- What taking the next change and making its call keep is kept by the changes that are due. -/
theorem flushLoop_induct_of {Q : StateSystem → Prop} {P : Change → Prop}
    (htake : ∀ s c deferred, Q s → s.deferred.next = some (c, deferred) → P c ∧ Q { s with
      deferred })
    (hcall : ∀ c s, P c → Q s → Q ((edit c.call.edit).after s)) (t : Time) :
    ∀ (fuel applied : Nat) (s : StateSystem), Q s → Q ((flushLoop t fuel applied).after s)
  | 0, _, _, hQ => hQ
  | fuel + 1, applied, s, hQ => by
    unfold Write.after
    simp only [flushLoop]
    cases hnext : s.deferred.nextDue t with
    | none => exact hQ
    | some next =>
      obtain ⟨c, deferred⟩ := next
      obtain ⟨hP, htaken⟩ := htake s c deferred hQ (Option.eq_some_of_filter_eq_some hnext)
      have hafter : Q ((edit c.call.edit).after { s with deferred }) := hcall c _ hP htaken
      unfold Write.after at hafter
      rw [← apply_eq] at hafter
      simp only
      cases hc : apply c { s with deferred } with
      | ok u s₁ =>
        rw [hc] at hafter
        exact flushLoop_induct_of htake hcall t fuel (applied + 1) s₁ hafter
      | error e s₁ =>
        rw [hc] at hafter
        cases he : e.isFatal with
        | true => simpa only [he, ↓reduceIte] using hafter
        | false =>
          have hrest := flushLoop_induct_of htake hcall t fuel applied s₁ hafter
          unfold Write.after at hrest
          simpa only [he, Bool.false_eq_true, ↓reduceIte] using hrest

/-- What the calls of changes keep and does not depend on the queue is kept by the changes that are
due. -/
theorem flushLoop_induct {Q : StateSystem → Prop}
    (hqueue : ∀ s deferred, Q s → Q { s with deferred })
    (hcall : ∀ (c : Change) s, Q s → Q ((edit c.call.edit).after s)) (t : Time) (fuel applied : Nat)
    (s : StateSystem) (hQ : Q s) : Q ((flushLoop t fuel applied).after s) :=
  flushLoop_induct_of (P := fun _ => True) (fun s _ deferred hQ _ =>
    ⟨trivial, hqueue s deferred hQ⟩)
    (fun c s _ hQ => hcall c s hQ) t fuel applied s hQ

theorem store_flush (hcall : ∀ (c : Call) store, P store → P (c.after store)) (t : Time)
    (hP : P s.store) :
    P ((flush t).after s).store :=
  flushLoop_induct (Q := (P ·.store))
    (fun _ _ h => h) (fun c _ h => store_after_edit c.call h hcall) t _ _ s hP

theorem advanceTo_eq (t : Time) (s : StateSystem) : advanceTo t s = match flush t s with
    | .ok _ s => edit (Store.advance t) s
    | .error e s => .error e s := by
  unfold advanceTo
  change EStateM.bind _ _ s = _
  unfold EStateM.bind
  cases flush t s <;> rfl

theorem store_advanceTo (hcall : ∀ (c : Call) store, P store → P (c.after store)) (t : Time)
    (hP : P s.store) :
    P ((advanceTo t).after s).store := by
  have hflush := store_flush hcall t hP
  unfold Write.after at hflush ⊢
  rw [advanceTo_eq]
  cases hf : flush t s with
  | ok n s₁ =>
    rw [hf] at hflush
    exact store_after_edit (.step (.advance t)) hflush hcall
  | error e s₁ =>
    rw [hf] at hflush
    exact hflush

theorem store_close (hcall : ∀ (c : Call) store, P store → P (c.after store)) (t : Time)
    (hP : P s.store) :
    P ((close t).after s).store := by
  have hclose : P ((edit (Store.close t)).after s).store :=
    store_after_edit (.step (.close t)) hP hcall
  unfold Write.after at hclose ⊢
  unfold close
  cases hc : edit (Store.close t) s <;> rw [hc] at hclose <;> exact hclose

theorem Reached.operations (h : s.Reached) (os : List Operation) :
    (os.foldl Operation.after s).Reached := by
  induction os generalizing s with
  | nil => exact h
  | cons o os ih => exact ih (h.operated o)

/-- What new and restored stores have and calls keep holds of the store of every state system. -/
theorem Reached.store (h : s.Reached) (hnew : P Store.new)
    (himage : ∀ {i store}, Store.ofImage i = .ok store → P store)
    (hcall : ∀ (c : Call) store, P store → P (c.after store)) : P s.store := by
  induction h with
  | new id => exact hnew
  | @restored id i s h =>
    unfold ofImage at h
    cases hi : Store.ofImage i with
    | error e => rw [hi] at h; cases h
    | ok store =>
      rw [hi] at h
      obtain rfl := Except.ok.inj h
      exact himage hi
  | @operated s h o ih =>
    cases o with
    | call c => exact store_after_edit c ih hcall
    | schedule c => exact ih
    | flush t => exact store_flush hcall t ih
    | advanceTo t => exact store_advanceTo hcall t ih
    | close t => exact store_close hcall t ih
    | finish status => exact ih
    | dispose =>
      change P s.dispose.store
      unfold StateSystem.dispose
      split
      · exact ih
      · exact hnew

end

end StateSystem

end StateHistory
