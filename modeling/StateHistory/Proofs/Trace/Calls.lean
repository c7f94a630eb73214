import StateHistory.Trace.Merge

/-!
# Calling a merge again and again

What a call of a merge can do is said once, by the three cases of `Refilled`. Each call uses up a
read or a turn, so calling comes to an end (`measure_next`), and the reads that `Source.merged`
lists ahead are those that calling would give, however often it is done (`take_merged`).
-/

namespace StateHistory

/-- The event of a read, if it gave one. -/
def Read.event? : Read → Option Event
  | .event e => some e
  | _ => none

/-- Is the read a failure? -/
def Read.failed : Read → Bool
  | .failure _ => true
  | _ => false

theorem length_flatMap_set {α β : Type} (f : α → List β) (x : α) {y : α} :
    ∀ {xs : List α} {i : Nat},
    xs[i]? = some y → ((xs.set i x).flatMap f).length + (f y).length =
      (xs.flatMap f).length + (f x).length
  | [], _, h => by simp at h
  | z :: xs, 0, h => by
    obtain rfl : z = y := by simpa using h
    simp only [List.set_cons_zero, List.flatMap_cons, List.length_append]
    omega
  | z :: xs, i + 1, h => by
    have hget : xs[i]? = some y := by simpa using h
    have ih := length_flatMap_set f x hget
    simp only [List.set_cons_succ, List.flatMap_cons, List.length_append]
    omega

namespace Source

/-- A read that gives something is used up. -/
theorem length_next {s s' : Source} {r : Read} (h : s.next = (r, s')) :
    s'.reads.length ≤ s.reads.length ∧
      (s'.reads.length < s.reads.length ∨ r.event? = none ∧ r.failed = false) := by
  obtain ⟨reads⟩ := s
  cases reads with
  | nil => cases h; simp [Read.event?, Read.failed]
  | cons r' rest => cases h; simp

end Source

namespace Merge

/-- The source at a place, one without reads where there is none. -/
def source (m : Merge) (i : Nat) : Source := m.sources.getD i ⟨[]⟩

/-- The merge after some calls. -/
def after : Merge → Nat → Merge
  | m, 0 => m
  | m, n + 1 => m.next.2.after n

/-- What some calls give. -/
def take : Merge → Nat → List Read
  | _, 0 => []
  | m, n + 1 => m.next.1 :: m.next.2.take n

/-! ## What a call does -/

/-- What asking source `i` leads to. -/
inductive Refilled (m : Merge) (i : Nat) : Option ReadFailure → Merge → Prop
  | event {e : Event} {s : Source} (h : (m.source i).next = (.event e, s)) :
    Refilled m i none { m with
      sources := m.sources.set i s
      heads := m.heads.set i (some e)
      turns := insertTurn (e.timestamp, i) m.turns }
  | nothing {s : Source} (h : (m.source i).next = (.nothing, s)) :
    Refilled m i none { m with sources := m.sources.set i s }
  | failure {f : ReadFailure} {s : Source} (h : (m.source i).next = (.failure f, s)) :
    Refilled m i (some f) { m with sources := m.sources.set i s }

theorem refilled {m m' : Merge} {i : Nat} {f : Option ReadFailure} (h : m.refill i = (f, m')) :
    m.Refilled i f m' := by
  rcases hs : (m.source i).next with ⟨r, s⟩
  have hnext : (m.sources.getD i ⟨[]⟩).next = (r, s) := hs
  unfold refill at h
  rw [hnext] at h
  cases r with
  | event e => cases h; exact .event hs
  | nothing => cases h; exact .nothing hs
  | failure f => cases h; exact .failure hs

section
variable {m m' : Merge} {i n fuel : Nat} {r : Read} {f : Option ReadFailure}

theorem Refilled.failed_eq (h : m.Refilled i f m') : (m.source i).next.1.failed = f.isSome := by
  cases h with
  | event h => rw [h]; rfl
  | nothing h => rw [h]; rfl
  | failure h => rw [h]; rfl

/-- Once all sources are asked, a call is a turn. -/
theorem next_of_primed (h : m.primed = true) : m.next = m.takeTurn := by
  rw [next, if_pos h]

/-! ## Calling comes to an end -/

/-- The reads and turns that are left, a read counting for the turn that it may add. -/
def bulk (m : Merge) : Nat := 2 * (m.sources.flatMap (·.reads)).length + m.turns.length

theorem measure_eq (m : Merge) : m.measure = m.bulk + if m.primed then 0 else 1 :=
  rfl

theorem length_insertTurn (turn : Time × Nat) (turns : List (Time × Nat)) :
    (insertTurn turn turns).length = turns.length + 1 := by
  induction turns with
  | nil => rfl
  | cons other rest ih =>
    simp only [insertTurn]
    split <;> simp [ih]

theorem length_set_next {s : Source} (h : (m.source i).next = (r, s)) :
    ((m.sources.set i s).flatMap (·.reads)).length ≤ (m.sources.flatMap (·.reads)).length ∧
    (((m.sources.set i s).flatMap (·.reads)).length < (m.sources.flatMap (·.reads)).length ∨
      r.event? = none ∧ r.failed = false) := by
  obtain ⟨hle, hlt⟩ := Source.length_next h
  by_cases hi : i < m.sources.length
  · have hsource : m.sources[i]? = some (m.source i) := by simp [source, hi]
    have hlength := length_flatMap_set (fun s : Source => s.reads) s hsource
    exact ⟨by omega, hlt.imp_left fun hlt => by omega⟩
  · have hsource : m.source i = ⟨[]⟩ := by simp [source, hi]
    rw [List.set_eq_of_length_le (Nat.le_of_not_lt hi)]
    rw [hsource] at h
    cases h
    exact ⟨Nat.le_refl _, Or.inr ⟨rfl, rfl⟩⟩

theorem Refilled.bulk_le (h : m.Refilled i f m') :
    m'.bulk ≤ m.bulk ∧ (f ≠ none → m'.bulk < m.bulk) := by
  cases h with
  | event h =>
    obtain ⟨-, hlt⟩ := length_set_next h
    simp only [bulk, length_insertTurn, Read.event?] at hlt ⊢
    simp at hlt ⊢
    omega
  | nothing h =>
    have hle := (length_set_next h).1
    simp only [bulk]
    exact ⟨by omega, by simp⟩
  | failure h =>
    obtain ⟨hle, hlt⟩ := length_set_next h
    simp only [bulk, Read.failed] at hlt ⊢
    simp at hlt ⊢
    omega

theorem Refilled.primed_eq (h : m.Refilled i f m') : m'.primed = m.primed := by
  cases h <;> rfl

/-- What each asking keeps holds after a whole round. -/
theorem refillAll_induct {P : Merge → Prop} (hstep : ∀ {m m' i f}, P m → m.Refilled i f m' → P m') :
    ∀ (is : List Nat) {m : Merge}, P m → P (m.refillAll is).2
  | [], _, hm => hm
  | i :: is, m, hm => by
    simp only [refillAll]
    rcases hr : m.refill i with ⟨f, m'⟩
    have hm' := hstep hm (refilled hr)
    cases f with
    | none => exact refillAll_induct hstep is hm'
    | some f => exact hm'

theorem bulk_refillAll : ∀ (is : List Nat) (m : Merge),
    (m.refillAll is).2.bulk ≤ m.bulk ∧
    ((m.refillAll is).1 ≠ none → (m.refillAll is).2.bulk < m.bulk)
  | [], m => ⟨Nat.le_refl _, fun h => absurd rfl h⟩
  | i :: is, m => by
    simp only [refillAll]
    rcases hr : m.refill i with ⟨f, m'⟩
    have hm' := (refilled hr).bulk_le
    cases f with
    | none =>
      have hrest := bulk_refillAll is m'
      exact ⟨Nat.le_trans hrest.1 hm'.1, fun h => Nat.lt_of_lt_of_le (hrest.2 h) hm'.1⟩
    | some f => exact ⟨hm'.1, fun _ => hm'.2 (by simp)⟩

theorem primed_refillAll (is : List Nat) (m : Merge) : (m.refillAll is).2.primed = m.primed :=
  refillAll_induct (P := fun m' => m'.primed = m.primed) (fun h hr => hr.primed_eq.trans h) is rfl

/-- Taking a turn uses it up. -/
theorem bulk_takeTurn (h : m.turns ≠ []) :
    m.takeTurn.2.bulk < m.bulk ∧ m.takeTurn.2.primed = m.primed := by
  obtain ⟨⟨t, i⟩, turns, hturns⟩ := List.exists_cons_of_ne_nil h
  unfold takeTurn
  simp only [hturns]
  rcases hr : ({ m with turns, heads := m.heads.set i none } : Merge).refill i with ⟨f, m'⟩
  have hbulk := (refilled hr).bulk_le.1
  have hprimed := (refilled hr).primed_eq
  have hlt : ({ m with turns, heads := m.heads.set i none } : Merge).bulk < m.bulk := by
    simp [bulk, hturns]
  cases f with
  | none => exact ⟨Nat.lt_of_le_of_lt hbulk hlt, hprimed⟩
  | some f => exact ⟨Nat.lt_of_le_of_lt hbulk hlt, hprimed⟩

theorem takeTurn_of_nil (h : m.turns = []) : m.takeTurn = (.nothing, m) := by
  unfold takeTurn
  rw [h]

/-- A call uses up something, unless there is nothing left. -/
theorem measure_next (h : m.isSpent = false) : m.next.2.measure < m.measure := by
  have turned : ∀ m₁ : Merge, m₁.primed = true → m₁.takeTurn.2.measure ≤ m₁.bulk ∧
      (m₁.turns ≠ [] → m₁.takeTurn.2.measure < m₁.bulk) := by
    intro m₁ hprimed
    by_cases hturns : m₁.turns = []
    · rw [takeTurn_of_nil hturns, measure_eq, hprimed]
      exact ⟨Nat.le_refl _, fun hne => absurd hturns hne⟩
    · obtain ⟨hlt, hsame⟩ := bulk_takeTurn hturns
      rw [measure_eq, hsame, hprimed]
      exact ⟨Nat.le_of_lt hlt, fun _ => hlt⟩
  unfold next
  by_cases hprimed : m.primed = true
  · rw [if_pos hprimed, measure_eq m, hprimed]
    refine (turned m hprimed).2 fun hturns => ?_
    simp [isSpent, hprimed, hturns] at h
  · have hround := bulk_refillAll (List.range m.sources.length) m
    have hsame := primed_refillAll (List.range m.sources.length) m
    rw [if_neg hprimed]
    generalize m.refillAll (List.range m.sources.length) = round at hround hsame
    obtain ⟨f, m'⟩ := round
    cases f with
    | some f =>
      have hlt : m'.bulk < m.bulk := hround.2 (by simp)
      have hsame : m'.primed = m.primed := hsame
      simp only [measure_eq, hsame]
      omega
    | none =>
      have hle := (turned { m' with primed := true } rfl).1
      have hbulk : ({ m' with primed := true } : Merge).bulk = m'.bulk := rfl
      have hm : m.measure = m.bulk + 1 := by simp [measure_eq, hprimed]
      rw [hm]
      exact Nat.lt_succ_of_le (Nat.le_trans (hbulk ▸ hle) hround.1)

theorem next_of_spent (h : m.isSpent = true) : m.next = (.nothing, m) := by
  obtain ⟨hprimed, hturns⟩ : m.primed = true ∧ m.turns = [] := by simpa [isSpent] using h
  rw [next_of_primed hprimed, takeTurn_of_nil hturns]

/-- Reading ahead far enough gives what calling gives. -/
theorem take_reads :
    ∀ (n fuel : Nat) (m : Merge), m.measure ≤ fuel → (Source.mk (m.reads fuel)).take n = m.take n
  | 0, _, _, _ => rfl
  | n + 1, fuel, m, h => by
    cases hspent : m.isSpent with
    | true =>
      have hreads : m.reads fuel = [] := by
        cases fuel with
        | zero => rfl
        | succ fuel => simp [reads, hspent]
      have ih := take_reads n fuel m h
      rw [hreads] at ih ⊢
      simp only [Source.take, Source.next, take, next_of_spent hspent, ih]
    | false =>
      have hlt := measure_next hspent
      cases fuel with
      | zero => omega
      | succ fuel =>
        have hreads : m.reads (fuel + 1) = m.next.1 :: m.next.2.reads fuel := by
          simp [reads, hspent]
        have ih := take_reads n fuel m.next.2 (by omega)
        rw [hreads]
        simp only [Source.take, Source.next, take, ih]

end

end Merge

/-- **What a merge reads ahead is what calling it gives**, however often it is called. -/
theorem Source.take_merged (sources : List Source) (n : Nat) :
    (Source.merged sources).take n = (Merge.ofSources sources).take n :=
  Merge.take_reads n _ _ (Nat.le_refl _)

end StateHistory
