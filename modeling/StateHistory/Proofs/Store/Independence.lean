import StateHistory.Proofs.Store.Composed

/-!
# Attributes are independent

The attributes of a store share its start, its end and whether it is closed. A write looks at the
start, which is fixed once it is set, at whether the store is closed, which no write changes, and at
the timeline of its own attribute; it never looks at the end, unless to report it for a closed
store. So once recording has started, writes to different attributes can change places
(`Put.after_swap`, `Put.outcome_swap`), and calls that write single attributes can be rearranged in
all ways that keep the order for each attribute: `rearranged_run`.
-/

namespace StateHistory.Store

open Edit

/-- How a call that writes one attribute finds the new value. -/
inductive PutKind where
  | set (v : Value)
  | addLong (delta : Int64)
  | addInt (delta : Int32)
  | addDouble (delta : UInt64)
deriving DecidableEq, Repr

/-- A change of one attribute at a time. -/
structure Put where
  quark : Quark
  time : Time
  change : PutKind
deriving DecidableEq, Repr

/-- Whether a call succeeds, and why not if it does not. -/
def Call.outcome (c : Call) (s : Store) : Except Failure Unit :=
  match c.edit s with
  | .ok _ _ => .ok ()
  | .error e _ => .error e

namespace Put

def call (p : Put) : Call :=
  match p.change with
  | .set v => .step (.write p.time v p.quark)
  | .addLong delta => .addLong p.time p.quark delta
  | .addInt delta => .addInt p.time p.quark delta
  | .addDouble delta => .addDouble p.time p.quark delta

/-- The value that a put writes to a store, once it is allowed to. -/
def value (p : Put) (s : Store) : Except Failure Value :=
  match p.change with
  | .set v => .ok v
  | .addLong delta => do
    let n ← base 0 "long" Value.asLong p.quark s
    let sum := n + delta.toInt
    if Value.fitsLong sum then .ok (.long (.ofInt sum))
      else .error (.integerOverflow p.quark n delta.toInt)
  | .addInt delta => do
    let n ← base 0 "int" viewInt p.quark s
    let sum := n + delta.toInt
    if Value.fitsInt sum then .ok (.int (.ofInt sum))
      else .error (.integerOverflow p.quark n delta.toInt)
  | .addDouble delta => do
    let n ← base 0 "double" Value.asDouble p.quark s
    .ok (.double (addBits n delta))

/-- The value that a put writes to a store, if it succeeds. -/
def written (p : Put) (s : Store) : Except Failure Value := do
  let v ← p.value s
  s.checkWritable p.quark p.time
  return v

end Put

/-- What comes of some puts, one after the other. -/
def outcomes (s : Store) : List Put → List (Put × Except Failure Unit)
  | [] => []
  | p :: ps => (p, p.call.outcome s) :: outcomes (p.call.after s) ps

section
variable {s : Store} {p r : Put} {q : Quark} {t : Time} {v : Value}

/-! ## What a put does -/

theorem ask_bind {α β : Type} (f : Store → Except Failure α) (k : α → Edit β) (s : Store) :
    (ask f >>= k) s =
    match f s with
    | .ok a => k a s
    | .error e => .error e s := by
  change EStateM.bind _ _ s = _
  unfold EStateM.bind ask
  cases f s <;> rfl

theorem write_eq (t : Time) (v : Value) (q : Quark) (s : Store) : write t v q s =
    match s.checkWritable q t with
    | .ok _ => .ok () (s.wrote t v q)
    | .error e => .error e s := by
  cases h : s.checkWritable q t with
  | ok u => exact write_ok_iff.2 ⟨checkWritable_ok_iff.1 h, rfl⟩
  | error e => rw [write, ask_bind, h]

/-- A put writes one value to its attribute, or fails and leaves the store alone. -/
theorem Put.edit_eq (p : Put) (s : Store) : p.call.edit s =
    match p.written s with
    | .ok v => .ok () (s.wrote p.time v p.quark)
    | .error e => .error e s := by
  obtain ⟨q, t, change⟩ := p
  cases change with
  | set v =>
    simp only [call, Call.edit, Step.edit, write_eq, written, value]
    cases s.checkWritable q t <;> rfl
  | addLong delta =>
    simp only [call, Call.edit, addLong, written, value, ask_bind]
    cases base 0 "long" Value.asLong q s with
    | error e => rfl
    | ok n =>
      simp only [bind, Except.bind]
      cases Value.fitsLong (n + delta.toInt) with
      | false => rfl
      | true =>
        simp only [↓reduceIte, write_eq]
        cases s.checkWritable q t <;> rfl
  | addInt delta =>
    simp only [call, Call.edit, addInt, written, value, ask_bind]
    cases base 0 "int" viewInt q s with
    | error e => rfl
    | ok n =>
      simp only [bind, Except.bind]
      cases Value.fitsInt (n + delta.toInt) with
      | false => rfl
      | true =>
        simp only [↓reduceIte, write_eq]
        cases s.checkWritable q t <;> rfl
  | addDouble delta =>
    simp only [call, Call.edit, addDouble, written, value, ask_bind]
    cases base 0 "double" Value.asDouble q s with
    | error e => rfl
    | ok n =>
      simp only [write_eq]
      cases s.checkWritable q t <;> rfl

theorem Put.after_eq (p : Put) (s : Store) : p.call.after s =
    match p.written s with
    | .ok v => s.wrote p.time v p.quark
    | .error _ => s := by
  rw [Call.after, Edit.after, p.edit_eq]
  cases p.written s <;> rfl

theorem Put.outcome_eq (p : Put) (s : Store) :
    p.call.outcome s = (p.written s).map fun _ => () := by
  rw [Call.outcome, p.edit_eq]
  cases p.written s <;> rfl

theorem Put.writable (h : p.written s = .ok v) : s.Writable p.quark p.time := by
  unfold written at h
  cases hv : p.value s with
  | error e => rw [hv] at h; cases h
  | ok v' =>
    rw [hv] at h
    cases hw : s.checkWritable p.quark p.time with
    | error e => simp only [hw, bind, Except.bind] at h; cases h
    | ok u => exact checkWritable_ok_iff.1 hw

/-! ## What a put sees of a write to another attribute -/

theorem timeline_wrote (hq : q ≠ p.quark) (hp : p.quark.index < s.timelines.size) (t : Time)
    (v : Value) :
    (s.wrote t v p.quark).timeline q = s.timeline q := by
  have hof : (s.wrote t v p.quark).timelineOf q = s.timelineOf q := by
    rw [timelineOf_wrote hp, if_neg hq]
  by_cases hlt : q.index < s.timelines.size
  · rw [timeline_eq_ok_iff.2 ⟨hlt, rfl⟩]
    exact timeline_eq_ok_iff.2 ⟨by simpa using hlt, hof⟩
  · unfold timeline
    rw [Array.getElem?_eq_none (by simpa using hlt), Array.getElem?_eq_none (Nat.le_of_not_lt hlt)]

/-- Once recording has started, writes look the same before and after a write to another
attribute. -/
theorem checkTime_wrote (hs : s.start ≠ none) (hc : s.closed = false) (q : Option Quark)
    (t t' : Time) (v : Value) :
    (s.wrote t v p.quark).checkTime q t' = s.checkTime q t' := by
  obtain ⟨start, hstart⟩ := Option.ne_none_iff_exists'.1 hs
  unfold checkTime
  rw [closed_wrote, start_wrote, hc, hstart, Option.getD_some]
  rfl

theorem Put.written_wrote (hs : s.start ≠ none) (hp : s.Writable p.quark p.time)
    (hne : r.quark ≠ p.quark) (v : Value) :
    r.written (s.wrote p.time v p.quark) = r.written s := by
  have hline := timeline_wrote (s := s) hne hp.covered p.time v
  have hwritable : (s.wrote p.time v p.quark).checkWritable r.quark r.time =
      s.checkWritable r.quark r.time := by
    unfold checkWritable
    rw [checkTime_wrote hs hp.building, hline]
  have hbase : ∀ {α : Type} (zero : α) (expected : String) (view : Value → Option α),
      base zero expected view r.quark (s.wrote p.time v p.quark) =
        base zero expected view r.quark s := by
    intro α zero expected view
    unfold base
    rw [hline]
  unfold written value
  simp only [hwritable, hbase]

/-- Writes to different attributes can change places. -/
theorem wrote_wrote (hs : s.start ≠ none) {q q' : Quark} (hne : q ≠ q') (t t' : Time) (v v' : Value)
    (hq : q.index < s.timelines.size) (hq' : q'.index < s.timelines.size) :
    (s.wrote t v q).wrote t' v' q' = (s.wrote t' v' q').wrote t v q := by
  obtain ⟨start, hstart⟩ := Option.ne_none_iff_exists'.1 hs
  have hindex : q.index ≠ q'.index := fun hi => hne (by cases q; cases q'; simp_all)
  have hmax : ∀ a b : Time, max (s.stop.elim a (max · a)) b = max (s.stop.elim b (max · b)) a := by
    intro a b
    cases s.stop with
    | none => exact Int.max_comm a b
    | some stop =>
      simp only [Option.elim_some]
      rw [Int.max_assoc, Int.max_comm a b, ← Int.max_assoc]
  have hline : (s.wrote t v q).timelineOf q' = s.timelineOf q' := by
    rw [timelineOf_wrote hq, if_neg hne.symm]
  have hline' : (s.wrote t' v' q').timelineOf q = s.timelineOf q := by
    rw [timelineOf_wrote hq', if_neg hne]
  have hleft : (s.wrote t v q).wrote t' v' q' =
      ((s.wrote t v q).setTimeline q' ((s.timelineOf q').opened q' t' v')).reach t' := by
        rw [← hline]; rfl
  have hright : (s.wrote t' v' q').wrote t v q =
      ((s.wrote t' v' q').setTimeline q ((s.timelineOf q).opened q t v)).reach t := by
        rw [← hline']; rfl
  rw [hleft, hright]
  simp [wrote, setTimeline, reach, hstart, hmax t t', Array.setIfInBounds_comm _ _ hindex]

/-! ## Puts to different attributes change places -/

theorem Put.start_after (hs : s.start ≠ none) (p : Put) : (p.call.after s).start ≠ none := by
  rw [p.after_eq]
  cases p.written s with
  | error e => exact hs
  | ok v => simp [start_wrote]

/-- A put has the same outcome before and after a put to another attribute. -/
theorem Put.outcome_swap (hs : s.start ≠ none) (hne : r.quark ≠ p.quark) :
    r.call.outcome (p.call.after s) = r.call.outcome s := by
  rw [p.after_eq]
  cases hp : p.written s with
  | error e => rfl
  | ok v =>
    rw [r.outcome_eq, r.outcome_eq]
    exact congrArg _ (written_wrote hs (writable hp) hne v)

theorem Put.after_swap (hs : s.start ≠ none) (hne : r.quark ≠ p.quark) :
    r.call.after (p.call.after s) = p.call.after (r.call.after s) := by
  have hsame : ∀ {a b : Put} {v : Value}, b.quark ≠ a.quark → a.written s = .ok v →
      b.written (s.wrote a.time v a.quark) = b.written s :=
    fun hne ha => written_wrote hs (writable ha) hne _
  cases hp : p.written s with
  | error e =>
    have hstay : p.call.after s = s := by rw [p.after_eq, hp]
    cases hr : r.written s with
    | error e' =>
      have hstay' : r.call.after s = s := by rw [r.after_eq, hr]
      rw [hstay, hstay', hstay]
    | ok v' =>
      have hmove : r.call.after s = s.wrote r.time v' r.quark := by rw [r.after_eq, hr]
      rw [hstay, hmove, p.after_eq, hsame hne.symm hr, hp]
  | ok v =>
    have hmove : p.call.after s = s.wrote p.time v p.quark := by rw [p.after_eq, hp]
    cases hr : r.written s with
    | error e' =>
      have hstay' : r.call.after s = s := by rw [r.after_eq, hr]
      rw [hstay', hmove, r.after_eq, hsame hne hp, hr]
    | ok v' =>
      have hmove' : r.call.after s = s.wrote r.time v' r.quark := by rw [r.after_eq, hr]
      rw [hmove, hmove', r.after_eq, hsame hne hp, hr, p.after_eq, hsame hne.symm hr, hp]
      exact wrote_wrote hs hne.symm _ _ _ _ (writable hp).covered (writable hr).covered

end

/-! ## Rearranging puts -/

/-- The puts to `q`, in order. -/
def putsTo (q : Quark) (ps : List Put) : List Put := ps.filter fun p => p.quark = q

/-- What comes of the puts to `q`, in order. -/
def outcomesOf (q : Quark) (os : List (Put × Except Failure Unit)) :
    List (Put × Except Failure Unit) :=
  os.filter fun o => o.1.quark = q

section
variable {s : Store} {p : Put} {ps : List Put}

/-- A put can be moved in front of puts to other attributes. -/
theorem run_front (rest : List Put) (hs : s.start ≠ none) (hne : ∀ r ∈ ps, r.quark ≠ p.quark) :
    s.run ((ps ++ p :: rest).map Put.call) = s.run ((p :: ps ++ rest).map Put.call) ∧
    ∀ q, outcomesOf q (s.outcomes (ps ++ p :: rest)) =
      outcomesOf q (s.outcomes (p :: ps ++ rest)) := by
  induction ps generalizing s with
  | nil => exact ⟨rfl, fun _ => rfl⟩
  | cons r ps ih =>
    have hr : r.quark ≠ p.quark := hne r (by simp)
    obtain ⟨hrun, hout⟩ := ih (Put.start_after hs r) fun r' hr' => hne r' (by simp [hr'])
    have hswap := Put.after_swap hs hr
    constructor
    · simp only [List.cons_append, List.map_cons, run] at hrun ⊢
      rw [hrun, hswap]
    · intro q
      have hq := hout q
      simp only [List.cons_append, outcomes] at hq ⊢
      rw [Put.outcome_swap hs hr.symm, ← hswap] at hq
      rw [Put.outcome_swap hs hr]
      unfold outcomesOf at hq ⊢
      -- at most one of the two is about the attribute
      rw [List.filter_cons, hq]
      by_cases hrq : r.quark = q
      · have hpq : p.quark ≠ q := fun hpq => hr (hrq.trans hpq.symm)
        simp [hrq, hpq]
      · simp [List.filter_cons, hrq]

end

/-- **Attributes are independent.** Once recording has started, calls that write single attributes
can be rearranged at will as long as the calls for each attribute keep their order: the store that
they lead to is the same, and so is the outcome of each call, be it a success or a failure. -/
theorem rearranged_run (s : Store) (hs : s.start ≠ none) (ps ps' : List Put)
    (hsame : ∀ q, putsTo q ps' = putsTo q ps) :
    s.run (ps'.map Put.call) = s.run (ps.map Put.call) ∧
    ∀ q, outcomesOf q (s.outcomes ps') = outcomesOf q (s.outcomes ps) := by
  induction ps generalizing s ps' with
  | nil =>
    have hnil : ps' = [] := by
      cases ps' with
      | nil => rfl
      | cons p rest => simpa [putsTo, List.filter_cons] using hsame p.quark
    subst hnil
    exact ⟨rfl, fun _ => rfl⟩
  | cons p ps ih =>
    have hhead : putsTo p.quark ps' = p :: putsTo p.quark ps := by
      rw [hsame p.quark]
      simp [putsTo]
    obtain ⟨before, rest, rfl, hbefore, -, -⟩ := List.filter_eq_cons_iff.1 hhead
    have hne : ∀ r ∈ before, r.quark ≠ p.quark := by simpa using hbefore
    obtain ⟨hrun, hout⟩ := run_front rest hs hne
    have hrest : ∀ q, putsTo q (before ++ rest) = putsTo q ps := by
      intro q
      have hq := hsame q
      unfold putsTo at hq ⊢
      rw [List.filter_append, List.filter_cons] at hq
      rw [List.filter_append]
      by_cases hpq : p.quark = q
      · have hnone : before.filter (fun r => r.quark = q) = [] := by simpa [hpq] using hne
        simpa [hnone, hpq] using hq
      · simpa [hpq] using hq
    obtain ⟨hrun', hout'⟩ := ih (p.call.after s) (Put.start_after hs p) (before ++ rest) hrest
    constructor
    · rw [hrun]
      exact hrun'
    · intro q
      rw [hout q]
      simp only [List.cons_append, outcomes, outcomesOf, List.filter_cons]
      have := hout' q
      unfold outcomesOf at this
      rw [this]

/-- Two attributes, and recording that has started. -/
def twoAttributes : Store :=
  new.run [.step (.add ⟨0⟩ ["a"]), .step (.add ⟨0⟩ ["b"]), .step (.advance 10)]

/-- Puts that take turns; the second put to `b` comes too early, the third put to `a` finds no
double. -/
def takingTurns : List Put :=
  [⟨⟨1⟩, 10, .set (.int 1)⟩, ⟨⟨2⟩, 50, .addLong 5⟩, ⟨⟨1⟩, 30, .addInt 2⟩, ⟨⟨2⟩, 20, .set .null⟩,
    ⟨⟨1⟩, 40, .addDouble 0⟩, ⟨⟨2⟩, 60, .addLong 6⟩]

/-- The same puts, those to `b` first. -/
def oneByOne : List Put :=
  [⟨⟨2⟩, 50, .addLong 5⟩, ⟨⟨2⟩, 20, .set .null⟩, ⟨⟨2⟩, 60, .addLong 6⟩, ⟨⟨1⟩, 10, .set (.int 1)⟩,
    ⟨⟨1⟩, 30, .addInt 2⟩, ⟨⟨1⟩, 40, .addDouble 0⟩]

theorem rearranged_run_takingTurns :
    twoAttributes.run (oneByOne.map Put.call) = twoAttributes.run (takingTurns.map Put.call) ∧
    (outcomesOf ⟨2⟩ (twoAttributes.outcomes oneByOne)).map Prod.snd =
      [.ok (), .error (.orderingViolation (some ⟨2⟩) 20 50), .ok ()] ∧
    (outcomesOf ⟨1⟩ (twoAttributes.outcomes oneByOne)).map Prod.snd =
      [.ok (), .ok (), .error (.typeMismatch ⟨1⟩ "double" "int")] := by
  have hs : twoAttributes.start ≠ none := by decide +kernel
  have hsame : ∀ q, putsTo q oneByOne = putsTo q takingTurns := by
    intro q
    by_cases h1 : (⟨1⟩ : Quark) = q
    · subst h1
      decide
    · by_cases h2 : (⟨2⟩ : Quark) = q
      · subst h2
        decide
      · simp [putsTo, oneByOne, takingTurns, h1, h2]
  obtain ⟨hrun, hout⟩ := rearranged_run twoAttributes hs takingTurns oneByOne hsame
  refine ⟨hrun, ?_, ?_⟩
  · rw [hout]
    rfl
  · rw [hout]
    rfl

end StateHistory.Store
