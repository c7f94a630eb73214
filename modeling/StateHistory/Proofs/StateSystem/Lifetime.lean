import StateHistory.Proofs.StateSystem.Question
import StateHistory.Proofs.StateSystem.Status
import StateHistory.Proofs.Store.Growth

/-!
# The life of a state system

The state of construction, what is made known of the progress, the store and the loss of the data
are kept apart, and every operation has to bring them into agreement again. Here is what that
agreement is (`Agrees`), that the writer's work, the end of construction and the loss of the data
keep it, whatever fails on the way, and what follows for those who look at the system at any two
moments of its life (`life`).
-/

namespace StateHistory

theorem Change.call_ne_close (c : Change) (t : Time) : c.call ≠ .step (.close t) := by
  unfold Change.call
  split <;> simp

namespace StateSystem

/-! ## Orders of operations -/

/-- What can happen while construction goes on: the writer works, and the data is given up. -/
def Operation.Works : Operation → Prop
  | .call (.step (.close _)) => False
  | .call _ | .schedule _ | .flush _ | .advanceTo _ | .dispose => True
  | .close _ | .finish _ => False

/-- The last thing the writer does. -/
def Operation.Ends : Operation → Prop
  | .close _ | .finish .cancelled | .finish (.failed _) => True
  | _ => False

/-- The writer ends construction at most once, and is gone then. -/
def InOrder : List Operation → Prop
  | [] => True
  | o :: os => o.Works ∧ InOrder os ∨ o.Ends ∧ ∀ later ∈ os, later = .dispose

/-- The end of recording that was last seen in live data. -/
def seen (last : Option Time) (s : StateSystem) : Option Time :=
  if s.disposed then last else s.store.stop

/-- The end of recording that was last seen in live data after some operations. -/
def lastStop (s : StateSystem) (last : Option Time) : List Operation → Option Time
  | [] => last
  | o :: os => lastStop (o.after s) (seen last (o.after s)) os

section
variable {s s₁ s' : StateSystem} {o : Operation} {os more : List Operation} {last : Option Time}
  {id : String}

theorem Operation.Works.not_ends (h : o.Works) : ¬ o.Ends := by
  cases o with
  | finish status => exact h.elim
  | close t => exact h.elim
  | _ => exact not_false

/-! ## What the writer's work keeps -/

/-- `s'` is what the writer's work has made of `s`: nothing if the data was given up, and otherwise
a store that has grown and whose end is known. -/
structure Progress (s s' : StateSystem) : Prop where
  id_eq : s'.id = s.id
  status_eq : s'.status = s.status
  disposed_eq : s'.disposed = s.disposed
  given_up : s.disposed = true → s'.store = s.store ∧ s'.published = s.published
  extends_of_live : s.disposed = false → s.store.Lawful →
    s'.store.Lawful ∧ s.store.Extends s'.store ∧ s'.store.closed = s.store.closed
  published_eq : s.disposed = false → s.published = s.store.stop → s'.published = s'.store.stop

theorem Progress.refl (s : StateSystem) : s.Progress s :=
  ⟨rfl, rfl, rfl, fun _ => ⟨rfl, rfl⟩, fun _ h => ⟨h, .refl _, rfl⟩, fun _ h => h⟩

theorem Progress.trans (h : s.Progress s₁) (h' : s₁.Progress s') : s.Progress s' where
  id_eq := h'.id_eq.trans h.id_eq
  status_eq := h'.status_eq.trans h.status_eq
  disposed_eq := h'.disposed_eq.trans h.disposed_eq
  given_up hd := by
    obtain ⟨hstore, hpublished⟩ := h.given_up hd
    obtain ⟨hstore', hpublished'⟩ := h'.given_up (h.disposed_eq.trans hd)
    exact ⟨hstore'.trans hstore, hpublished'.trans hpublished⟩
  extends_of_live hd hl := by
    obtain ⟨hl₁, he, hc⟩ := h.extends_of_live hd hl
    obtain ⟨hl', he', hc'⟩ := h'.extends_of_live (h.disposed_eq.trans hd) hl₁
    exact ⟨hl', he.trans he', hc'.trans hc⟩
  published_eq hd hp := h'.published_eq (h.disposed_eq.trans hd) (h.published_eq hd hp)

theorem Progress.deferred (h : s.Progress s') (deferred : Deferred) :
    s.Progress { s' with deferred } :=
  ⟨h.id_eq, h.status_eq, h.disposed_eq, h.given_up, h.extends_of_live, h.published_eq⟩

theorem progress_call {c : Store.Call} (hc : ∀ t, c ≠ .step (.close t)) (s : StateSystem) :
    s.Progress ((edit c.edit).after s) := by
  cases hd : s.disposed with
  | true =>
    rw [show (edit c.edit).after s = s by unfold Write.after; rw [edit_of_disposed _ hd]]
    exact .refl s
  | false =>
    rw [after_edit_of_live c hd]
    refine ⟨rfl, rfl, rfl, ?_, ?_, fun _ _ => rfl⟩
    · intro hd'
      rw [hd] at hd'
      cases hd'
    · intro _ hl
      obtain ⟨hl', he⟩ := hl.after c
      exact ⟨hl', he, Store.Call.closed_after hl.covered hc⟩

theorem progress_flush (t : Time) (s : StateSystem) : s.Progress ((flush t).after s) :=
  flushLoop_induct (Q := s.Progress) (fun _ deferred h => h.deferred deferred)
    (fun c s₁ h => h.trans (progress_call c.call_ne_close s₁)) t _ _ s (.refl s)

theorem progress_advanceTo (t : Time) (s : StateSystem) : s.Progress ((advanceTo t).after s) := by
  have hflush := progress_flush t s
  unfold Write.after at hflush ⊢
  rw [advanceTo_eq]
  cases hf : flush t s with
  | error e s₁ =>
    rw [hf] at hflush
    exact hflush
  | ok n s₁ =>
    rw [hf] at hflush
    exact hflush.trans (progress_call (c := .step (.advance t)) (by simp) s₁)

theorem Operation.Works.progress (h : o.Works) (hdispose : o ≠ .dispose) (s : StateSystem) :
    s.Progress (o.after s) := by
  cases o with
  | call c =>
    refine progress_call ?_ s
    rintro t rfl
    exact h
  | schedule c => exact (Progress.refl s).deferred _
  | flush t => exact progress_flush t s
  | advanceTo t => exact progress_advanceTo t s
  | dispose => exact absurd rfl hdispose
  | close t => exact h.elim
  | finish status => exact h.elim

/-! ## What has to agree -/

/-- The parts of a state system agree, where `last` is the end of recording that was last seen in
live data. -/
structure Agrees (s : StateSystem) (last : Option Time) : Prop where
  lawful : s.store.Lawful
  stop_eq : s.disposed = false → s.store.stop = last
  published_eq : s.status = .building → s.published = last
  built_iff : s.disposed = false → (s.status = .built ↔ s.store.closed = true)

theorem agrees_new (id : String) : (new id).Agrees none := by
  refine ⟨Store.lawful_new, fun _ => rfl, fun _ => rfl, fun _ => ?_⟩
  simp [new, Store.new]

theorem seen_of_live (h : s.disposed = false) (last : Option Time) :
    seen last s = s.store.stop := by simp [seen, h]

theorem seen_of_disposed (h : s.disposed = true) (last : Option Time) : seen last s = last := by
  simp [seen, h]

theorem Agrees.seen_eq (h : s.Agrees last) : seen last s = last := by
  cases hd : s.disposed with
  | true => exact seen_of_disposed hd last
  | false => exact (seen_of_live hd last).trans (h.stop_eq hd)

theorem Agrees.closed_of_building (h : s.Agrees last) (hb : s.status = .building)
    (hd : s.disposed = false) :
    s.store.closed = false := by
  refine Bool.eq_false_iff.2 fun hc => ?_
  rw [(h.built_iff hd).2 hc] at hb
  cases hb

theorem Progress.agrees (hp : s.Progress s') (h : s.Agrees last) : s'.Agrees (seen last s') := by
  cases hd : s.disposed with
  | true =>
    obtain ⟨hstore, hpublished⟩ := hp.given_up hd
    have hd' : s'.disposed = true := hp.disposed_eq.trans hd
    rw [seen_of_disposed hd']
    refine ⟨hstore ▸ h.lawful, ?_, fun hb => hpublished.trans (h.published_eq (hp.status_eq ▸ hb)),
      ?_⟩ <;> simp [hd']
  | false =>
    obtain ⟨hlawful, -, hclosed⟩ := hp.extends_of_live hd h.lawful
    rw [seen_of_live (hp.disposed_eq.trans hd)]
    refine ⟨hlawful, fun _ => rfl, fun hb => ?_, fun _ => ?_⟩
    · have hpublished := h.published_eq (hp.status_eq ▸ hb)
      exact hp.published_eq hd (hpublished.trans (h.stop_eq hd).symm)
    · rw [hp.status_eq, hclosed]
      exact h.built_iff hd

/-- Work does not move back the end of recording that is seen. -/
theorem Progress.seen_le (hp : s.Progress s') (h : s.Agrees last) {t : Time} (ht : last = some t) :
    ∃ t', seen last s' = some t' ∧ t ≤ t' := by
  cases hd : s.disposed with
  | true => exact ⟨t, by rw [seen_of_disposed (hp.disposed_eq.trans hd), ht], Int.le_refl t⟩
  | false =>
    obtain ⟨-, he, -⟩ := hp.extends_of_live hd h.lawful
    rw [seen_of_live (hp.disposed_eq.trans hd)]
    exact he.stop_le t ((h.stop_eq hd).trans ht)

theorem dispose_disposed (s : StateSystem) : s.dispose.disposed = true := by
  unfold dispose
  split
  · assumption
  · rfl

theorem dispose_status (s : StateSystem) : s.dispose.status = s.status := by
  unfold dispose
  split <;> rfl

theorem dispose_id (s : StateSystem) : s.dispose.id = s.id := by
  unfold dispose
  split <;> rfl

theorem Agrees.dispose (h : s.Agrees last) : s.dispose.Agrees last := by
  have hd := s.dispose_disposed
  refine ⟨?_, by simp [hd], ?_, by simp [hd]⟩
  · unfold StateSystem.dispose
    split
    · exact h.lawful
    · exact Store.lawful_new
  · unfold StateSystem.dispose
    split <;> exact h.published_eq

/-- A system whose construction has ended otherwise than by closing. -/
theorem Agrees.finish (h : s.Agrees last) (hb : s.status = .building) (status : Status)
    (hfinished : status.isFinished = true) (hbuilt : status ≠ .built) :
    (s.finish status).Agrees last ∧ (s.finish status).status = status := by
  have hstatus : (s.finish status).status = status := by
    simp [StateSystem.finish, hb, Status.isFinished]
  refine ⟨⟨h.lawful, h.stop_eq, ?_, ?_⟩, hstatus⟩
  · rw [hstatus]
    rintro rfl
    cases hfinished
  · intro hd
    rw [hstatus]
    have hopen : (s.finish status).store.closed = false := h.closed_of_building hb hd
    simp [hbuilt, hopen]

theorem Agrees.close (h : s.Agrees last) (hb : s.status = .building) (t : Time) :
    ((StateSystem.close t).after s).Agrees (seen last ((StateSystem.close t).after s)) ∧
      ((StateSystem.close t).after s).status ≠ .building := by
  unfold Write.after StateSystem.close
  cases hd : s.disposed with
  | true =>
    rw [edit_of_disposed _ hd]
    obtain ⟨hagrees, hstatus⟩ := h.finish hb (.failed (Failure.disposed s.id).message) rfl (by simp)
    exact ⟨hagrees.seen_eq.symm ▸ hagrees, by simp [hstatus]⟩
  | false =>
    cases hclose : Store.close t s.store with
    | ok u store =>
      obtain ⟨hle, rfl⟩ := Store.close_ok_iff.1 hclose
      rw [edit_of_ok hd hclose]
      have hstatus : ((s.publish (s.store.ended t)).finish .built).status = .built := by
        simp [StateSystem.finish, publish, hb, Status.isFinished]
      refine ⟨⟨h.lawful.takes (.close hle), fun hd' => (seen_of_live hd' last).symm, ?_, ?_⟩, ?_⟩
      · simp [hstatus]
      · exact fun _ => ⟨fun _ => rfl, fun _ => hstatus⟩
      · simp [hstatus]
    | error e store =>
      obtain rfl := Store.close_error hclose
      rw [edit_of_error hd hclose]
      have hpublish : (s.publish s.store).Agrees last :=
        ⟨h.lawful, h.stop_eq, fun _ => h.stop_eq hd, h.built_iff⟩
      obtain ⟨hagrees, hstatus⟩ := hpublish.finish hb (.failed e.message) rfl (by simp)
      exact ⟨hagrees.seen_eq.symm ▸ hagrees, by simp [hstatus]⟩

theorem Operation.Ends.agrees (ho : o.Ends) (h : s.Agrees last) (hb : s.status = .building) :
    (o.after s).Agrees (seen last (o.after s)) ∧ (o.after s).status ≠ .building := by
  cases o with
  | close t => exact h.close hb t
  | finish status =>
    have hstatus : status.isFinished = true ∧ status ≠ .built := by
      cases status with
      | cancelled => exact ⟨rfl, by simp⟩
      | failed reason => exact ⟨rfl, by simp⟩
      | _ => exact ho.elim
    obtain ⟨hagrees, hended⟩ := h.finish hb status hstatus.1 hstatus.2
    refine ⟨hagrees.seen_eq.symm ▸ hagrees, ?_⟩
    intro hbuilding
    rw [← hended, show (s.finish status).status = .building from hbuilding] at hstatus
    cases hstatus.1
  | _ => exact ho.elim

/-! ## One operation -/

/-- What can still happen to a system. -/
def Awaits (s : StateSystem) (os : List Operation) : Prop :=
  s.status = .building ∧ InOrder os ∨ s.status ≠ .building ∧ ∀ o ∈ os, o = .dispose

/-- How a system and what was last seen of it relate to those of a later moment. -/
structure Later (s : StateSystem) (last : Option Time) (s' : StateSystem)
    (last' : Option Time) : Prop where
  id_eq : s'.id = s.id
  status_eq : s.status ≠ .building → s'.status = s.status
  disposed_of : s.disposed = true → s'.disposed = true
  le_last : s'.status = .building → ∀ t, last = some t → ∃ t', last' = some t' ∧ t ≤ t'

theorem Later.refl (s : StateSystem) (last : Option Time) : Later s last s last :=
  ⟨rfl, fun _ => rfl, fun h => h, fun _ t ht => ⟨t, ht, Int.le_refl t⟩⟩

theorem Later.trans {last₁ last' : Option Time} (h : Later s last s₁ last₁)
    (h' : Later s₁ last₁ s' last') :
    Later s last s' last' where
  id_eq := h'.id_eq.trans h.id_eq
  status_eq hf := (h'.status_eq (by rw [h.status_eq hf]; exact hf)).trans (h.status_eq hf)
  disposed_of hd := h'.disposed_of (h.disposed_of hd)
  le_last hb t ht := by
    -- what is building now was building before
    have hb₁ : s₁.status = .building := by
      by_contra hf
      exact hf ((h'.status_eq hf).symm.trans hb)
    obtain ⟨t₁, ht₁, hle⟩ := h.le_last hb₁ t ht
    obtain ⟨t', ht', hle'⟩ := h'.le_last hb t₁ ht₁
    exact ⟨t', ht', Int.le_trans hle hle'⟩

theorem Operation.id_close (t : Time) (s : StateSystem) : (Operation.after s (.close t)).id = s.id ∧
    (Operation.after s (.close t)).disposed = s.disposed := by
  have hedit := edit_after (Store.close t) s
  simp only [Operation.after]
  unfold Write.after StateSystem.close at *
  cases hc : edit (Store.close t) s <;> rw [hc] at hedit <;>
    rcases hedit with rfl | ⟨store, rfl⟩ <;> exact ⟨rfl, rfl⟩

/-- An operation that can happen keeps the parts in agreement. -/
theorem Agrees.operation (h : s.Agrees last) (ho : s.Awaits (o :: os)) :
    (o.after s).Agrees (seen last (o.after s)) ∧ (o.after s).Awaits os ∧
      Later s last (o.after s) (seen last (o.after s)) ∧
      ((o.after s).status = .building ↔ s.status = .building ∧ ¬ o.Ends) := by
  by_cases hdispose : o = .dispose
  · subst hdispose
    have hstatus := s.dispose_status
    have hseen : seen last s.dispose = last := seen_of_disposed s.dispose_disposed last
    refine ⟨?_, ?_, ?_, ?_⟩
    · rw [show Operation.dispose.after s = s.dispose from rfl, hseen]
      exact h.dispose
    · rcases ho with ⟨hb, ⟨-, hos⟩ | ⟨hends, -⟩⟩ | ⟨hf, hos⟩
      · exact .inl ⟨hstatus.trans hb, hos⟩
      · exact hends.elim
      · exact .inr ⟨hstatus ▸ hf, fun o ho => hos o (List.mem_cons_of_mem _ ho)⟩
    · rw [show Operation.dispose.after s = s.dispose from rfl, hseen]
      exact ⟨s.dispose_id, fun _ => hstatus, fun _ => s.dispose_disposed,
        fun _ t ht => ⟨t, ht, Int.le_refl t⟩⟩
    · rw [show Operation.dispose.after s = s.dispose from rfl, hstatus]
      simp [Operation.Ends]
  rcases ho with ⟨hb, ⟨hworks, hos⟩ | ⟨hends, hos⟩⟩ | ⟨-, hos⟩
  · have hp := hworks.progress hdispose s
    refine ⟨hp.agrees h, .inl ⟨hp.status_eq.trans hb, hos⟩,
      ⟨hp.id_eq, fun _ => hp.status_eq, ?_, ?_⟩, ?_⟩
    · exact fun hd => hp.disposed_eq.trans hd
    · exact fun _ t ht => hp.seen_le h ht
    · simp [hp.status_eq, hb, hworks.not_ends]
  · obtain ⟨hagrees, hended⟩ := hends.agrees h hb
    have hkept : (o.after s).id = s.id ∧ (o.after s).disposed = s.disposed := by
      cases o with
      | close t => exact Operation.id_close t s
      | finish status => exact ⟨rfl, rfl⟩
      | _ => exact hends.elim
    refine ⟨hagrees, .inr ⟨hended, hos⟩,
      ⟨hkept.1, fun hf => absurd hb hf, ?_, fun hb' => absurd hb' hended⟩, ?_⟩
    · exact fun hd => hkept.2.trans hd
    · simp [hended, hends]
  · exact absurd (hos o (List.mem_cons_self ..)) hdispose

/-! ## All operations -/

/-- The system after some operations. -/
def run (s : StateSystem) (os : List Operation) : StateSystem := os.foldl Operation.after s

theorem run_append (s : StateSystem) (os more : List Operation) :
    s.run (os ++ more) = (s.run os).run more :=
  List.foldl_append

/-- Operations in order keep the parts in agreement, and construction goes on until it is ended. -/
theorem Agrees.run (h : s.Agrees last) (ho : s.Awaits (os ++ more)) :
    (s.run os).Agrees (lastStop s last os) ∧ (s.run os).Awaits more ∧
      Later s last (s.run os) (lastStop s last os) ∧
      ((s.run os).status = .building ↔ s.status = .building ∧ ∀ o ∈ os, ¬ o.Ends) := by
  induction os generalizing s last with
  | nil => exact ⟨h, ho, .refl s last, by simp [StateSystem.run]⟩
  | cons o os ih =>
    obtain ⟨hagrees, hawaits, hlater, hstatus⟩ := h.operation ho
    obtain ⟨hagrees', hawaits', hlater', hstatus'⟩ := ih hagrees hawaits
    refine ⟨hagrees', hawaits', hlater.trans hlater', hstatus'.trans ?_⟩
    simp [hstatus, and_assoc]

theorem Agrees.hasReached_iff (h : s.Agrees last) (t : Time) :
    s.hasReached t = true ↔ s.status ≠ .building ∨ ∃ stop, last = some stop ∧ t ≤ stop := by
  cases hs : s.status with
  | building => cases last <;> simp [hasReached, hs, Status.isFinished, h.published_eq hs]
  | _ => simp [hasReached, hs, Status.isFinished]

theorem Later.hasReached {last' : Option Time} (hl : Later s last s' last') (h : s.Agrees last)
    (h' : s'.Agrees last') {t : Time} (ht : s.hasReached t = true) : s'.hasReached t = true := by
  rw [h'.hasReached_iff]
  by_cases hb : s'.status = .building
  · rcases (h.hasReached_iff t).1 ht with hf | ⟨stop, hstop, hle⟩
    · exact .inl (by rw [hl.status_eq hf]; exact hf)
    · obtain ⟨stop', hstop', hle'⟩ := hl.le_last hb stop hstop
      exact .inr ⟨stop', hstop', Int.le_trans hle hle'⟩
  · exact .inl hb

theorem disposed_run (h : s.Agrees last) (ho : s.Awaits (os ++ more)) (hmem : .dispose ∈ os) :
    (s.run os).disposed = true := by
  obtain ⟨before, later, rfl⟩ := List.append_of_mem hmem
  rw [List.append_assoc] at ho
  obtain ⟨hagrees, hawaits, -, -⟩ := h.run ho
  obtain ⟨hagrees', hawaits', -, -⟩ := hagrees.operation hawaits
  obtain ⟨-, -, hlater, -⟩ := hagrees'.run hawaits'
  rw [run_append]
  exact hlater.disposed_of (dispose_disposed _)

/-! ## Once the data was given up -/

/-- Every question and every writing operation fails for the loss of the data. -/
structure GivenUp (s : StateSystem) (id : String) : Prop where
  ask : ∀ question : Question, question.ask s = .error (.disposed id)
  query : ∀ {α : Type} (f : Store → Except Failure α), s.query f = .error (.disposed id)
  edit : ∀ {α : Type} (op : Store.Edit α), StateSystem.edit op s = .error (.disposed id) s
  flush : ∀ t, s.deferred.nextDue t ≠ none → ∃ s', StateSystem.flush t s = .error (.disposed id) s'
  advanceTo : ∀ t, ∃ s', StateSystem.advanceTo t s = .error (.disposed id) s'
  close : ∀ t, ∃ s', StateSystem.close t s = .error (.disposed id) s'

theorem flush_of_disposed (hd : s.disposed = true) (t : Time) :
    StateSystem.flush t s = .ok 0 s ∧ s.deferred.nextDue t = none ∨
      ∃ s', StateSystem.flush t s = .error (.disposed s.id) s' := by
  unfold StateSystem.flush
  cases hsize : s.deferred.size with
  | zero =>
    have hchanges : s.deferred.changes = [] := List.eq_nil_of_length_eq_zero hsize
    exact .inl ⟨rfl, by simp [Deferred.nextDue, Deferred.next, hchanges]⟩
  | succ n =>
    simp only [flushLoop]
    cases hnext : s.deferred.nextDue t with
    | none => exact .inl ⟨rfl, rfl⟩
    | some next =>
      obtain ⟨c, deferred⟩ := next
      -- the first change that is due fails, and its failure is fatal
      have happly : apply c { s with deferred } = .error (.disposed s.id) { s with deferred } := by
        rw [apply_eq]
        exact edit_of_disposed (s := { s with deferred }) _ hd
      exact .inr ⟨{ s with deferred }, by simp [happly, Failure.isFatal]⟩

theorem givenUp_of_disposed (hd : s.disposed = true) : s.GivenUp s.id where
  ask := Question.ask_of_disposed hd
  query := query_of_disposed hd
  edit op := edit_of_disposed op hd
  flush t hdue := by
    rcases flush_of_disposed hd t with ⟨-, hnone⟩ | h
    · exact absurd hnone hdue
    · exact h
  advanceTo t := by
    rw [advanceTo_eq]
    rcases flush_of_disposed hd t with ⟨hflush, -⟩ | ⟨s', hflush⟩
    · rw [hflush]
      exact ⟨s, edit_of_disposed _ hd⟩
    · rw [hflush]
      exact ⟨s', rfl⟩
  close t := by
    unfold StateSystem.close
    rw [edit_of_disposed _ hd]
    exact ⟨_, rfl⟩

end

/-- **The life of a state system**, seen at one moment and at any later one. Construction goes on
until the writer ends it, and that it has ended, and how, stays. As long as the data is there,
construction is complete exactly if the store is closed. Those who wait for a time are let go
exactly if construction has ended or the end of recording has reached it, as far as the data has
ever shown, and who was let go once is not held up again. From the loss of the data on, every
question and every writing operation fails for that reason. -/
theorem life (id : String) (os more : List Operation) (h : InOrder (os ++ more)) :
    (((new id).run os).status = .building ↔ ∀ o ∈ os, ¬ o.Ends) ∧
    (((new id).run os).status ≠ .building →
      ((new id).run (os ++ more)).status = ((new id).run os).status) ∧
    (((new id).run os).disposed = false →
      (((new id).run os).status = .built ↔ ((new id).run os).store.closed = true)) ∧
    (∀ t, ((new id).run os).hasReached t = true ↔
      ((new id).run os).status ≠ .building ∨ ∃ stop, lastStop (new id) none os = some stop ∧
      t ≤ stop) ∧
    (∀ t, ((new id).run os).hasReached t = true → ((new id).run (os ++ more)).hasReached t = true) ∧
    (.dispose ∈ os → ((new id).run os).disposed = true ∧
      ((new id).run (os ++ more)).GivenUp id) := by
  have hawaits : (new id).Awaits (os ++ more) := .inl ⟨rfl, h⟩
  obtain ⟨hagrees, hrest, hbefore, hstatus⟩ := (agrees_new id).run hawaits
  have hrest' : ((new id).run os).Awaits (more ++ []) := by rwa [List.append_nil]
  obtain ⟨hagrees', -, hlater, -⟩ := hagrees.run hrest'
  rw [run_append]
  refine ⟨by simpa [new] using hstatus, hlater.status_eq, hagrees.built_iff,
    hagrees.hasReached_iff, ?_, ?_⟩
  · exact fun t ht => hlater.hasReached hagrees hagrees' ht
  · intro hmem
    have hd := disposed_run (agrees_new id) hawaits hmem
    refine ⟨hd, ?_⟩
    have hid : (((new id).run os).run more).id = id := hlater.id_eq.trans hbefore.id_eq
    have hgiven := givenUp_of_disposed (hlater.disposed_of hd)
    rwa [hid] at hgiven

/-- The data is given up while the writer still works. -/
def lostEarly : List Operation :=
  [.call (.step (.add .root ["a"])), .call (.step (.write 10 (.int 1) ⟨1⟩)), .dispose]

/-- The writer that closes the system later only learns of the loss; who has waited for a recorded
time is let go all the same. -/
theorem life_lostEarly :
    InOrder (lostEarly ++ [.close 20]) ∧ ((new "s").run lostEarly).status = .building ∧
    ((new "s").run (lostEarly ++ [.close 20])).hasReached 10 = true ∧
    ((new "s").run (lostEarly ++ [.close 20])).GivenUp "s" := by
  have horder : InOrder (lostEarly ++ [.close 20]) := by
    simp [lostEarly, InOrder, Operation.Works, Operation.Ends]
  obtain ⟨hbuilding, -, -, -, hreached, hgiven⟩ := life "s" lostEarly [.close 20] horder
  refine ⟨horder, hbuilding.2 ?_, hreached 10 (by decide +kernel), (hgiven (by simp [lostEarly])).2⟩
  simp [lostEarly, Operation.Ends]

end StateSystem

end StateHistory
