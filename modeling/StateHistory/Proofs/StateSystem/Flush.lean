import StateHistory.Proofs.Deferred
import StateHistory.Proofs.StateSystem.Reached
import StateHistory.Proofs.TimeOrder

/-!
# Flushing deferred changes

Deferring a change and flushing is making its call at its own time. The queue is the stable sort, by
time, of the changes that wait in the order of their scheduling (`queue_run`); flushing makes the
calls of those that are due in that order, passes over the ones that fail, and ends at the first
fatal failure (`flush_eq`). What is due later is not touched, so flushing can stop on the way
(`flush_flush`).
-/

namespace StateHistory

/-- Changes in order of time, those of one time in the order of their scheduling. -/
def byTime (cs : List Change) : List Change := sortedBy Change.time cs

theorem pairwise_byTime (cs : List Change) : (byTime cs).Pairwise (·.time ≤ ·.time) :=
  pairwise_sortedBy _ cs

theorem filter_byTime (p : Change → Bool) (cs : List Change) :
    (byTime cs).filter p = byTime (cs.filter p) :=
  filter_sortedBy p

/-- The changes that are due by `t`, in the order in which they are made. -/
def due (t : Time) (cs : List Change) : List Change := byTime (cs.filter (·.time ≤ t))

namespace StateSystem

/-- The system with these changes waiting. -/
def withQueue (s : StateSystem) (changes : List Change) : StateSystem :=
  { s with deferred := ⟨changes⟩ }

/-- What comes of making the calls of some changes one after the other. -/
structure Worked where
  system : StateSystem
  /-- How many of the calls succeeded. -/
  succeeded : Nat
  /-- The changes whose calls were made, successful or not. -/
  tried : List Change
  /-- The fatal failure that ended the work. -/
  fatal : Option Failure

/-- Makes the calls of some changes one after the other, up to the first fatal failure. -/
def inTurn : List Change → StateSystem → Worked
  | [], s => ⟨s, 0, [], none⟩
  | c :: cs, s =>
    match edit c.call.edit s with
    | .ok _ s =>
      let w := inTurn cs s
      { w with succeeded := w.succeeded + 1, tried := c :: w.tried }
    | .error e s =>
      if e.isFatal then ⟨s, 0, [c], some e⟩
      else
        let w := inTurn cs s
        { w with tried := c :: w.tried }

/-- The result of an operation that has done some work after `applied` successes and has left some
changes. -/
def Worked.result (w : Worked) (applied : Nat) (left : List Change) :
    EStateM.Result Failure StateSystem Nat :=
  match w.fatal with
  | none => .ok (applied + w.succeeded) (w.system.withQueue left)
  | some e => .error e (w.system.withQueue left)

/-- The changes that wait after an operation, in the order of their scheduling. -/
def Operation.waiting (s : StateSystem) (cs : List Change) : Operation → List Change
  | .schedule c => cs ++ [c]
  | .flush t | .advanceTo t => cs.diff (inTurn (due t cs) s).tried
  | _ => cs

/-- The changes that wait after a run of operations, in the order of their scheduling. -/
def waiting : StateSystem → List Change → List Operation → List Change
  | _, cs, [] => cs
  | s, cs, o :: os => waiting (o.after s) (o.waiting s cs) os

section
variable {s s' : StateSystem} {c : Change} {cs cs' later : List Change} {t t' : Time}
  {applied fuel n : Nat} {e : Failure}

/-! ## Calls do not look at the queue -/

@[simp] theorem withQueue_withQueue (s : StateSystem) (cs cs' : List Change) :
    (s.withQueue cs).withQueue cs' = s.withQueue cs' := rfl

@[simp] theorem changes_withQueue (s : StateSystem) (cs : List Change) :
    (s.withQueue cs).deferred.changes = cs := rfl

theorem edit_withQueue {α : Type} (op : Store.Edit α) (s : StateSystem) (cs : List Change) :
    edit op (s.withQueue cs) = match edit op s with
      | .ok a s' => .ok a (s'.withQueue cs)
      | .error e s' => .error e (s'.withQueue cs) := by
  cases hd : s.disposed with
  | true =>
    have hd' : (s.withQueue cs).disposed = true := hd
    rw [edit_of_disposed _ hd, edit_of_disposed _ hd']
    rfl
  | false =>
    have hd' : (s.withQueue cs).disposed = false := hd
    have hstore : (s.withQueue cs).store = s.store := rfl
    rw [edit_of_live _ hd, edit_of_live _ hd', hstore]
    cases op s.store <;> rfl

/-! ## Calls in turn -/

theorem inTurn_ok {u : Unit} (cs : List Change) (h : edit c.call.edit s = .ok u s') :
    inTurn (c :: cs) s =
      { inTurn cs s' with succeeded := (inTurn cs s').succeeded + 1, tried :=
        c :: (inTurn cs s').tried } := by
  simp only [inTurn, h]

theorem inTurn_skipped (cs : List Change) (h : edit c.call.edit s = .error e s')
    (he : e.isFatal = false) :
    inTurn (c :: cs) s = { inTurn cs s' with tried := c :: (inTurn cs s').tried } := by
  simp [inTurn, h, he]

theorem inTurn_fatal (cs : List Change) (h : edit c.call.edit s = .error e s')
    (he : e.isFatal = true) :
    inTurn (c :: cs) s = ⟨s', 0, [c], some e⟩ := by
  simp [inTurn, h, he]

/-- A call succeeds, or is passed over, or ends the work. -/
theorem call_cases (c : Change) (s : StateSystem) :
    (∃ u s', edit c.call.edit s = .ok u s') ∨
      (∃ e s', edit c.call.edit s = .error e s' ∧ e.isFatal = false) ∨
        ∃ e s', edit c.call.edit s = .error e s' ∧ e.isFatal = true := by
  cases h : edit c.call.edit s with
  | ok u s' => exact Or.inl ⟨u, s', rfl⟩
  | error e s' =>
    cases he : e.isFatal with
    | false => exact Or.inr (Or.inl ⟨e, s', rfl, he⟩)
    | true => exact Or.inr (Or.inr ⟨e, s', rfl, he⟩)

theorem inTurn_withQueue (cs cs' : List Change) (s : StateSystem) :
    inTurn cs (s.withQueue cs') = { inTurn cs s with
      system := (inTurn cs s).system.withQueue cs' } := by
  induction cs generalizing s with
  | nil => rfl
  | cons c cs ih =>
    have hedit := edit_withQueue c.call.edit s cs'
    rcases call_cases c s with ⟨u, s', h⟩ | ⟨e, s', h, he⟩ | ⟨e, s', h, he⟩
    · rw [h] at hedit
      rw [inTurn_ok cs h, inTurn_ok cs hedit, ih]
    · rw [h] at hedit
      rw [inTurn_skipped cs h he, inTurn_skipped cs hedit he, ih]
    · rw [h] at hedit
      rw [inTurn_fatal cs h he, inTurn_fatal cs hedit he]

theorem inTurn_tried_prefix (cs : List Change) (s : StateSystem) : (inTurn cs s).tried <+: cs := by
  induction cs generalizing s with
  | nil => exact List.nil_prefix
  | cons c cs ih =>
    rcases call_cases c s with ⟨u, s', h⟩ | ⟨e, s', h, he⟩ | ⟨e, s', h, he⟩
    · rw [inTurn_ok cs h]
      exact (List.prefix_cons_inj c).2 (ih s')
    · rw [inTurn_skipped cs h he]
      exact (List.prefix_cons_inj c).2 (ih s')
    · rw [inTurn_fatal cs h he]
      exact (List.prefix_cons_inj c).2 List.nil_prefix

/-- Without a fatal failure all calls are made. -/
theorem inTurn_tried (hnone : (inTurn cs s).fatal = none) : (inTurn cs s).tried = cs := by
  induction cs generalizing s with
  | nil => rfl
  | cons c cs ih =>
    rcases call_cases c s with ⟨u, s', h⟩ | ⟨e, s', h, he⟩ | ⟨e, s', h, he⟩
    · rw [inTurn_ok cs h] at hnone ⊢
      exact congrArg (c :: ·) (ih hnone)
    · rw [inTurn_skipped cs h he] at hnone ⊢
      exact congrArg (c :: ·) (ih hnone)
    · rw [inTurn_fatal cs h he] at hnone
      cases hnone

/-- Work without a fatal failure goes on with more. -/
theorem inTurn_append (hnone : (inTurn cs s).fatal = none) :
    inTurn (cs ++ cs') s = { inTurn cs' (inTurn cs s).system with
      succeeded := (inTurn cs s).succeeded + (inTurn cs' (inTurn cs s).system).succeeded
      tried := cs ++ (inTurn cs' (inTurn cs s).system).tried } := by
  induction cs generalizing s with
  | nil => simp [inTurn]
  | cons c cs ih =>
    rcases call_cases c s with ⟨u, s', h⟩ | ⟨e, s', h, he⟩ | ⟨e, s', h, he⟩
    · rw [inTurn_ok cs h] at hnone ⊢
      simp only [List.cons_append, inTurn_ok _ h, ih hnone, Nat.add_right_comm]
    · rw [inTurn_skipped cs h he] at hnone ⊢
      simp only [List.cons_append, inTurn_skipped _ h he, ih hnone]
    · rw [inTurn_fatal cs h he] at hnone
      cases hnone

/-! ## One flush -/

/-- The first change is made if it is due. -/
theorem flushLoop_succ (hchanges : s.deferred.changes = c :: cs) (hdue : c.time ≤ t) :
    flushLoop t (fuel + 1) applied s = match edit c.call.edit s with
      | .ok _ s₁ => flushLoop t fuel (applied + 1) (s₁.withQueue cs)
      | .error e s₁ =>
        if e.isFatal then .error e (s₁.withQueue cs) else flushLoop t fuel applied
          (s₁.withQueue cs) := by
  have hnext := Deferred.nextDue_of_le hchanges hdue
  have hedit := edit_withQueue c.call.edit s cs
  rw [← apply_eq] at hedit ⊢
  simp only [withQueue] at hedit ⊢
  simp only [flushLoop, hnext, hedit]
  cases apply c s <;> rfl

/-- Flushing makes the calls of the changes that are due, in turn. -/
theorem flushLoop_eq (hchanges : s.deferred.changes = cs ++ later) (hdue : ∀ c ∈ cs, c.time ≤ t)
    (hlater : ∀ c ∈ later, t < c.time) (hfuel : cs.length ≤ fuel) :
    flushLoop t fuel applied s =
      (inTurn cs s).result applied ((cs ++ later).drop (inTurn cs s).tried.length) := by
  induction cs generalizing s fuel applied with
  | nil =>
    have hsame : s.withQueue later = s := by
      rw [← List.nil_append later, ← hchanges]
      rfl
    have hnone : s.deferred.nextDue t = none :=
      Deferred.nextDue_eq_none (by simpa [hchanges] using hlater)
    cases fuel <;> simp [flushLoop, hnone, inTurn, Worked.result, hsame, pure, EStateM.pure]
  | cons c cs ih =>
    obtain ⟨fuel, rfl⟩ : ∃ n, fuel = n + 1 := ⟨fuel - 1, by simp at hfuel; omega⟩
    have hrest : ∀ (s₁ : StateSystem) (applied : Nat),
      flushLoop t fuel applied (s₁.withQueue (cs ++ later)) =
        (inTurn cs (s₁.withQueue (cs ++ later))).result applied
          ((cs ++ later).drop (inTurn cs (s₁.withQueue (cs ++ later))).tried.length) :=
            fun s₁ applied =>
      ih (changes_withQueue s₁ (cs ++ later))
        (fun c hc => hdue c (by simp [hc])) (Nat.le_of_succ_le_succ hfuel)
    rw [List.cons_append] at hchanges
    simp only [flushLoop_succ hchanges (hdue c (by simp)), inTurn]
    cases hc : edit c.call.edit s with
    | ok a s₁ =>
      simp only [hrest, inTurn_withQueue, Worked.result, List.cons_append, List.length_cons,
        List.drop_succ_cons]
      cases (inTurn cs s₁).fatal with
      | none => simp only [withQueue_withQueue]; congr 1; omega
      | some e => rfl
    | error e s₁ =>
      cases he : e.isFatal with
      | true => simp [he, Worked.result]
      | false =>
        simp only [he, Bool.false_eq_true, ↓reduceIte, hrest, inTurn_withQueue, Worked.result,
          List.cons_append, List.length_cons, List.drop_succ_cons]
        rfl

/-- What a flush makes and what it leaves. -/
theorem flush_eq (h : s.deferred.changes.Pairwise (·.time ≤ ·.time)) (t : Time) :
    flush t s = (inTurn (s.deferred.changes.filter (·.time ≤ t)) s).result 0
        (s.deferred.changes.drop
          (inTurn (s.deferred.changes.filter (·.time ≤ t)) s).tried.length) := by
  have hsplit := eq_append_of_pairwise h t
  have hloop : flush t s = (inTurn (s.deferred.changes.filter (·.time ≤ t)) s).result 0 _ :=
    flushLoop_eq hsplit (fun c hc => by simpa using (List.mem_filter.1 hc).2)
      (fun c hc => by simpa using (List.mem_filter.1 hc).2)
      (List.length_filter_le _ s.deferred.changes)
  rwa [← hsplit] at hloop

/-- A successful flush makes all that is due, and leaves the rest. -/
theorem flush_ok_iff (h : s.deferred.changes.Pairwise (·.time ≤ ·.time)) :
    flush t s = .ok n s' ↔ (inTurn (s.deferred.changes.filter (·.time ≤ t)) s).fatal = none ∧
      n = (inTurn (s.deferred.changes.filter (·.time ≤ t)) s).succeeded ∧
      s' = (inTurn (s.deferred.changes.filter (·.time ≤ t)) s).system.withQueue
        (s.deferred.changes.filter (t < ·.time)) := by
  rw [flush_eq h, Worked.result]
  cases hfatal : (inTurn (s.deferred.changes.filter (·.time ≤ t)) s).fatal with
  | some e => simp
  | none =>
    rw [inTurn_tried hfatal, drop_length_filter_time h t]
    simp [eq_comm]

/-- **Flushing up to a time and then further is flushing that far**, and the successes add up. -/
theorem flush_flush (h : s.deferred.changes.Pairwise (·.time ≤ ·.time))
    (hflush : flush t s = .ok n s') (hle : t ≤ t') :
    flush t' s = match flush t' s' with
      | .ok m s₂ => .ok (n + m) s₂
      | .error e s₂ => .error e s₂ := by
  obtain ⟨hfatal, rfl, rfl⟩ := (flush_ok_iff h).1 hflush
  have hdue := filter_time_le_eq_append h hle
  have hrest := drop_length_filter_time h t
  rw [flush_eq h, flush_eq (by exact h.filter _), changes_withQueue, inTurn_withQueue, hdue,
    inTurn_append hfatal, ← hrest]
  simp only [Worked.result, List.length_append, List.drop_drop, Nat.zero_add]
  split <;> rfl

/-! ## The queue over a run -/

theorem filter_time_insert (h : cs.Pairwise (·.time ≤ ·.time)) (c : Change) (t : Time) :
    (Deferred.insert c cs).filter (·.time = t) = (cs ++ [c]).filter (·.time = t) := by
  induction cs with
  | nil => simp [Deferred.insert]
  | cons d cs ih =>
    unfold Deferred.insert
    by_cases hle : d.time ≤ c.time
    · rw [if_pos hle, List.filter_cons, ih (List.pairwise_cons.1 h).2, List.cons_append,
        List.filter_cons]
    · rw [if_neg hle, List.filter_cons]
      split
      · -- what waits comes after `c`, so it has another time
        rename_i hc
        have hc : c.time = t := by simpa using hc
        have hnone : (d :: cs).filter (·.time = t) = [] := by
          refine List.filter_eq_nil_iff.2 fun b hb => ?_
          have := Deferred.lt_of_lt_head h (Int.not_le.1 hle) b hb
          simpa using by lia
        rw [List.filter_append, hnone]
        simp [hc]
      · rename_i hc
        simp [List.filter_append, List.filter_cons, hc]

/-- Putting a change into the queue is scheduling it last. -/
theorem insert_byTime (c : Change) (cs : List Change) :
    Deferred.insert c (byTime cs) = byTime (cs ++ [c]) := by
  refine eq_sortedBy (Deferred.ascending_insert (pairwise_byTime cs)) fun t => ?_
  rw [filter_time_insert (pairwise_byTime cs), List.filter_append, List.filter_append]
  exact congrArg (· ++ _) (filter_time_sortedBy _ cs t)

/-- What a flush does not try stays in the queue. -/
theorem drop_byTime (cs : List Change) (t : Time) (s : StateSystem) :
    (byTime cs).drop (inTurn (due t cs) s).tried.length =
      byTime (cs.diff (inTurn (due t cs) s).tried) := by
  obtain ⟨rest, hrest⟩ := inTurn_tried_prefix (due t cs) s
  have hsplit : byTime cs = (inTurn (due t cs) s).tried ++
      (rest ++ byTime (cs.filter (t < ·.time))) := by
    rw [← List.append_assoc, hrest]
    exact sortedBy_eq_append cs t
  have hleft : byTime (cs.diff (inTurn (due t cs) s).tried) =
      rest ++ byTime (cs.filter (t < ·.time)) :=
    sortedBy_diff hsplit
  rw [hleft, hsplit, List.drop_left]

/-- A flush of a queue makes what is due in the order of time and of scheduling. -/
theorem flush_of_queue (h : s.deferred.changes = byTime cs) (t : Time) :
    flush t s = (inTurn (due t cs) s).result 0 (byTime (cs.diff (inTurn (due t cs) s).tried)) := by
  rw [flush_eq (h ▸ pairwise_byTime cs), h, filter_byTime, ← drop_byTime]
  rfl

theorem changes_result (w : Worked) (n : Nat) (cs : List Change) :
    (Write.after (fun _ => w.result n cs) s).deferred.changes = cs := by
  simp only [Write.after, Worked.result]
  cases w.fatal <;> rfl

theorem queue_flush (h : s.deferred.changes = byTime cs) (t : Time) :
    ((flush t).after s).deferred.changes = byTime (cs.diff (inTurn (due t cs) s).tried) := by
  unfold Write.after
  rw [flush_of_queue h]
  exact changes_result (s := s) _ 0 _

/-- An operation keeps the queue the stable sort of what waits. -/
theorem queue_operation (h : s.deferred.changes = byTime cs) (o : Operation) :
    (o.after s).deferred.changes = byTime (o.waiting s cs) := by
  cases o with
  | call c => exact (congrArg _ (deferred_edit c.edit s)).trans h
  | schedule c => exact (congrArg (Deferred.insert c) h).trans (insert_byTime c cs)
  | flush t => exact queue_flush h t
  | advanceTo t =>
    have hflush := queue_flush h t
    simp only [Operation.after, Operation.waiting, Write.after, advanceTo_eq] at hflush ⊢
    cases hf : flush t s with
    | error e s₁ => rwa [hf] at hflush
    | ok n s₁ =>
      rw [hf] at hflush
      exact (congrArg _ (deferred_edit (Store.advance t) s₁)).trans hflush
  | close t =>
    have hedit := deferred_edit (Store.close t) s
    simp only [Operation.after, Operation.waiting, Write.after, close] at hedit ⊢
    cases hc : edit (Store.close t) s <;> rw [hc] at hedit <;> exact (congrArg _ hedit).trans h
  | finish status => exact h
  | dispose =>
    simp only [Operation.after, Operation.waiting, dispose]
    split <;> exact h

theorem queue_run (h : s.deferred.changes = byTime cs) (os : List Operation) :
    (os.foldl Operation.after s).deferred.changes = byTime (waiting s cs os) := by
  induction os generalizing s cs with
  | nil => exact h
  | cons o os ih => exact ih (queue_operation h o)

/-- **Deferring changes and flushing is making their calls at their own times.** After any
operations, the changes that wait are queued in the stable sort by time of the order of their
scheduling. A flush up to `t` makes the calls of those that are due by then, in that order; it
passes over the calls that fail, counts those that succeed, and ends with the first fatal failure.
When it succeeds, exactly what is due later still waits; and flushing further afterwards comes to
the same as flushing that far at once, with the counts added. -/
theorem flush_run (s₀ : StateSystem) (hempty : s₀.deferred = {}) (os : List Operation) (t : Time) :
    let s := os.foldl Operation.after s₀
    let cs := waiting s₀ [] os
    let w := inTurn (due t cs) s
    s.deferred.changes = byTime cs ∧
    (flush t s = match w.fatal with
      | none => .ok w.succeeded (w.system.withQueue (byTime (cs.filter (t < ·.time))))
      | some e => .error e (w.system.withQueue (byTime (cs.diff w.tried)))) ∧
    ∀ n s₁ t', flush t s = .ok n s₁ → t ≤ t' →
      flush t' s = match flush t' s₁ with
        | .ok m s₂ => .ok (n + m) s₂
        | .error e s₂ => .error e s₂ := by
  intro s cs w
  have hqueue : s.deferred.changes = byTime cs :=
    queue_run (by rw [hempty]; exact (sortedBy_nil _).symm) os
  refine ⟨hqueue, ?_, fun n s₁ t' hflush hle =>
    flush_flush (hqueue ▸ pairwise_byTime cs) hflush hle⟩
  rw [flush_of_queue hqueue, Worked.result]
  cases hfatal : w.fatal with
  | some e => simp only [w, cs]
  | none =>
    have hleft : byTime (cs.diff w.tried) = byTime (cs.filter (t < ·.time)) := by
      rw [inTurn_tried hfatal]
      exact sortedBy_diff (sortedBy_eq_append cs t)
    simp only [← hleft, w, cs, Nat.zero_add]

/-- Changes scheduled out of order, two of them at one time, and one that pops an empty stack. -/
def outOfOrder : List Change :=
  [⟨20, ⟨1⟩, .string "late", .write⟩, ⟨10, ⟨1⟩, .string "first", .write⟩, ⟨5, ⟨1⟩, .null, .pop⟩,
    ⟨10, ⟨1⟩, .string "second", .write⟩]

theorem flush_outOfOrder :
    let s :=
      (.call (.step (.add .root ["a"])) :: outOfOrder.map .schedule).foldl Operation.after (new "s")
    s.deferred.changes = byTime outOfOrder ∧ ∃ s₁, flush 10 s = .ok 2 s₁ ∧
      s₁.store.valueOf ⟨1⟩ = .string "second" ∧
      flush 20 s = match flush 20 s₁ with
        | .ok m s₂ => .ok (2 + m) s₂
        | .error e s₂ => .error e s₂ := by
  obtain ⟨hqueue, -, hfurther⟩ :=
    flush_run (new "s") rfl (.call (.step (.add .root ["a"])) :: outOfOrder.map .schedule) 10
  exact ⟨hqueue, _, rfl, rfl, hfurther 2 _ 20 rfl (by decide)⟩

end

end StateSystem

end StateHistory
