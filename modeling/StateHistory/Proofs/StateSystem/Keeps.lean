import StateHistory.Proofs.StateSystem.Reached
import StateHistory.Proofs.Store.Dated
import StateHistory.Provider.Stock

/-!
# What operations keep

A property of state systems that single operations keep, whether they succeed or fail, is kept by
all that is put together from them. What a stock provider does with an event is put together from
calls at the time of the event, and from deferring a change to the end that the event tells
(`Stock.keeps`).
-/

namespace StateHistory

namespace StateSystem

/-- The operation keeps a property, whether it succeeds or fails. -/
def Write.Keeps {α : Type} (Q : StateSystem → Prop) (op : Write α) : Prop :=
  ∀ s, Q s → Q (op.after s)

section
variable {α β : Type} {Q : StateSystem → Prop} {op : Write α} {f : α → Write β} {a : α}
  {e : Failure} {s s' : StateSystem}

theorem Write.Keeps.of_ok (h : op.Keeps Q) (hQ : Q s) (hop : op s = .ok a s') : Q s' := by
  have := h s hQ
  rwa [Write.after, hop] at this

theorem Write.Keeps.of_error (h : op.Keeps Q) (hQ : Q s) (hop : op s = .error e s') : Q s' := by
  have := h s hQ
  rwa [Write.after, hop] at this

theorem keeps_pure (a : α) : (pure a : Write α).Keeps Q := fun _ hQ => hQ

theorem keeps_ask (f : StateSystem → Except Failure α) : (Write.ask f).Keeps Q := by
  intro s hQ
  unfold Write.after Write.ask
  cases f s <;> exact hQ

theorem Write.Keeps.bind (h : op.Keeps Q) (hf : ∀ a, (f a).Keeps Q) : (op >>= f).Keeps Q := by
  intro s hQ
  unfold Write.after
  cases hop : op s with
  | ok a s' =>
    rw [bind_of_ok hop]
    exact hf a s' (h.of_ok hQ hop)
  | error e s' =>
    rw [bind_of_error hop]
    exact h.of_error hQ hop

theorem Write.Keeps.discard (h : op.Keeps Q) : (discard op : Write Unit).Keeps Q := by
  intro s hQ
  unfold Write.after
  cases hop : op s with
  | ok a s' =>
    rw [discard_of_ok hop]
    exact h.of_ok hQ hop
  | error e s' =>
    rw [discard_of_error hop]
    exact h.of_error hQ hop

/-- The result of an edit does not matter to what it keeps. -/
theorem keeps_edit {op : Store.Edit α} (h : (edit (do let _ ← op)).Keeps Q) :
    (edit op).Keeps Q := by
  intro s hQ
  have hafter := h s hQ
  unfold Write.after at hafter ⊢
  cases hd : s.disposed with
  | true =>
    rw [edit_of_disposed _ hd]
    exact hQ
  | false =>
    cases hop : op s.store with
    | ok a store =>
      have hunit : (do let _ ← op : Store.Edit Unit) s.store = .ok () store :=
        Store.Edit.bind_ok.2 ⟨a, store, hop, rfl⟩
      rw [edit_of_ok hd hunit] at hafter
      rw [edit_of_ok hd hop]
      exact hafter
    | error e store =>
      have hunit : (do let _ ← op : Store.Edit Unit) s.store = .error e store :=
        Store.Edit.bind_error.2 (.inl hop)
      rw [edit_of_error hd hunit] at hafter
      rw [edit_of_error hd hop]
      exact hafter

end

end StateSystem

open StateSystem

/-- **What a stock provider does with an event** keeps what calls at the time of the event keep, and
deferring a change to the end that the event tells. -/
theorem Stock.keeps (k : Stock) {context : Context} {handle : Handler}
    (h : k.provider.start context = .ok handle) (e : Event) {Q : StateSystem → Prop}
    (hcall : ∀ c : Store.Call, c.At e.timestamp → (edit c.edit).Keeps Q)
    (hschedule : ∀ c : Change, e.fieldLong "end" = some c.time → (schedule c).Keeps Q) :
    (handle e).Keeps Q := by
  have hadd : ∀ path, (addPath path).Keeps Q := fun path =>
    keeps_edit (hcall (.step (.add .root path)) trivial)
  cases k with
  | callStack =>
    obtain rfl : CallStack.handle = handle := Except.ok.inj h
    unfold CallStack.handle
    split
    · refine (hadd _).bind fun stack =>
        (hcall (.push e.timestamp (e.fieldValue "function") stack) rfl).bind fun _ => ?_
      cases hend : e.fieldLong "end" with
      | some stop => exact hschedule _ hend
      | none => exact keeps_pure _
    · exact (hadd _).bind fun stack => (keeps_edit (hcall (.pop e.timestamp stack) rfl)).discard
    · exact keeps_pure _
  | counter =>
    obtain rfl : Counter.handle = handle := Except.ok.inj h
    unfold Counter.handle
    split
    · exact (hadd _).bind fun q => hcall (.step (.write e.timestamp (e.fieldValue "value") q)) rfl
    · exact (hadd _).bind fun q => hcall (.addLong e.timestamp q _) rfl
    · exact keeps_pure _

end StateHistory
