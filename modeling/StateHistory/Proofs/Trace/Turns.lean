import StateHistory.Proofs.Trace.Calls

/-!
# Turns and the events at hand

While no event at hand is written over, there is one turn in line for each source with an event at
hand, for the time of that event (`Lined`). Asking a source with no event at hand keeps this, and
taking a turn is then as expected: out comes the event at hand that is first in time, of several the
one of the first source, or the failure of the source it came from (`Lined.takeTurn`).
-/

namespace StateHistory

/-- What handing out an event gives when its source then answers so: a failure comes in its
place. -/
def Read.over (r : Read) (e : Event) : Read :=
  match r with
  | .failure f => .failure f
  | _ => .event e

namespace Read

theorem over_ne_nothing (r : Read) (e : Event) : r.over e ≠ .nothing := by
  intro h
  cases r with
  | event _ => cases h
  | nothing => cases h
  | failure _ => cases h

theorem over_of_failed {r : Read} (h : r.failed = true) (e : Event) : (r.over e).event? = none := by
  cases r with
  | failure f => rfl
  | event _ => cases h
  | nothing => cases h

theorem over_of_not_failed {r : Read} (h : r.failed = false) (e : Event) : r.over e = .event e := by
  cases r with
  | failure f => cases h
  | event _ => rfl
  | nothing => rfl

end Read

namespace Merge

/-- The event at hand of a source. -/
def head (m : Merge) (i : Nat) : Option Event := m.heads.getD i none

/-- The order of turns. -/
def Before (a b : Time × Nat) : Prop := a.1 < b.1 ∨ a.1 = b.1 ∧ a.2 < b.2

/-- The turns are in order, one for each event at hand. -/
structure Lined (m : Merge) : Prop where
  heads : m.heads.length = m.sources.length
  ordered : m.turns.Pairwise Before
  mem_iff : ∀ t i, (t, i) ∈ m.turns ↔ ∃ e, m.head i = some e ∧ e.timestamp = t

section
variable {m m' : Merge} {i j : Nat} {t : Time} {e : Event} {s : Source} {r : Read}
  {f : Option ReadFailure}
variable {turn other : Time × Nat} {turns : List (Time × Nat)}

/-! ## The order of turns -/

theorem Before.trans {a b c : Time × Nat} (hab : Before a b) (hbc : Before b c) : Before a c := by
  rcases hab with hab | ⟨hab, hab'⟩ <;> rcases hbc with hbc | ⟨hbc, hbc'⟩
  · exact .inl (Int.lt_trans hab hbc)
  · exact .inl (hbc ▸ hab)
  · exact .inl (hab ▸ hbc)
  · exact .inr ⟨hab.trans hbc, Nat.lt_trans hab' hbc'⟩

theorem before_of_not (h : ¬(other.1 < turn.1 ∨ (other.1 = turn.1 ∧ other.2 ≤ turn.2))) :
    Before turn other := by
  obtain ⟨hlt, heq⟩ := not_or.1 h
  rcases Int.lt_or_eq_of_le (Int.not_lt.1 hlt) with hlt | htime
  · exact .inl hlt
  · exact .inr ⟨htime, Nat.lt_of_not_le fun hle => heq ⟨htime.symm, hle⟩⟩

theorem mem_insertTurn {x : Time × Nat} : x ∈ insertTurn turn turns ↔ x = turn ∨ x ∈ turns := by
  induction turns with
  | nil => simp [insertTurn]
  | cons other rest ih =>
    simp only [insertTurn]
    split
    · simp only [List.mem_cons, ih]
      exact or_left_comm
    · simp

theorem pairwise_insertTurn (h : turns.Pairwise Before) (hnew : ∀ x ∈ turns, x.2 ≠ turn.2) :
    (insertTurn turn turns).Pairwise Before := by
  induction turns with
  | nil => simp [insertTurn]
  | cons other rest ih =>
    obtain ⟨hother, hrest⟩ := List.pairwise_cons.1 h
    have hne : other.2 ≠ turn.2 := hnew other (by simp)
    simp only [insertTurn]
    split
    next hle =>
      have hbefore : Before other turn := hle.imp_right fun h => ⟨h.1, Nat.lt_of_le_of_ne h.2 hne⟩
      refine List.pairwise_cons.2 ⟨fun x hx => ?_, ih hrest fun x hx => hnew x (by simp [hx])⟩
      rcases mem_insertTurn.1 hx with rfl | hx
      · exact hbefore
      · exact hother x hx
    next hle =>
      have hbefore : Before turn other := before_of_not hle
      refine List.pairwise_cons.2 ⟨fun x hx => ?_, h⟩
      rcases List.mem_cons.1 hx with rfl | hx
      · exact hbefore
      · exact hbefore.trans (hother x hx)

/-! ## What asking one source leaves alone -/

theorem getD_set_self {α : Type} {xs : List α} (h : i < xs.length) (x d : α) :
    (xs.set i x).getD i d = x := by
  simp [h]

theorem getD_set_ne {α : Type} {xs : List α} (h : i ≠ j) (x d : α) :
    (xs.set i x).getD j d = xs.getD j d := by
  simp [h]

theorem getD_set_none {α : Type} (xs : List (Option α)) (i : Nat) :
    (xs.set i none).getD i none = none := by
  by_cases hi : i < xs.length
  · exact getD_set_self hi _ _
  · simp [Nat.le_of_not_lt hi]

theorem lt_of_next (h : (m.source i).next = (r, s)) (hr : r.event? ≠ none ∨ r.failed = true) :
    i < m.sources.length := by
  refine Nat.lt_of_not_le fun hle => ?_
  have hnone : m.source i = ⟨[]⟩ := by simp [source, hle]
  rw [hnone] at h
  cases h
  simp [Read.event?, Read.failed] at hr

theorem source_set (h : (m.source i).next = (r, s)) : (m.sources.set i s).getD i ⟨[]⟩ = s := by
  by_cases hi : i < m.sources.length
  · exact getD_set_self hi s _
  · have hnone : m.source i = ⟨[]⟩ := by simp [source, Nat.le_of_not_lt hi]
    rw [hnone] at h
    cases h
    simp [Nat.le_of_not_lt hi]

namespace Refilled

theorem source_self (h : m.Refilled i f m') : m'.source i = (m.source i).next.2 := by
  cases h with
  | event h => rw [h]; exact source_set h
  | nothing h => rw [h]; exact source_set h
  | failure h => rw [h]; exact source_set h

theorem source_ne (h : m.Refilled i f m') (hj : i ≠ j) : m'.source j = m.source j := by
  cases h <;> exact getD_set_ne hj _ _

theorem head_ne (h : m.Refilled i f m') (hj : i ≠ j) : m'.head j = m.head j := by
  cases h with
  | event h => exact getD_set_ne hj _ _
  | nothing h => rfl
  | failure h => rfl

theorem lengths (h : m.Refilled i f m') :
    m'.heads.length = m.heads.length ∧ m'.sources.length = m.sources.length := by
  cases h <;> simp

end Refilled

/-! ## Turns stay lined up -/

theorem lined_ofSources (sources : List Source) : (ofSources sources).Lined := by
  refine ⟨by simp [ofSources], .nil, fun t i => ?_⟩
  have hnone : (ofSources sources).head i = none := by
    simp only [ofSources, head, List.getD_eq_getElem?_getD, List.getElem?_map]
    cases sources[i]? <;> rfl
  simp only [hnone, reduceCtorEq, false_and, exists_false, iff_false]
  exact List.not_mem_nil

/-- Another source at some place changes nothing. -/
theorem Lined.set_source (hm : m.Lined) (i : Nat) (s : Source) :
    ({ m with sources := m.sources.set i s } : Merge).Lined :=
  ⟨by simpa using hm.heads, hm.ordered, hm.mem_iff⟩

/-- A new event at hand gets its turn. -/
theorem Lined.insert (hm : m.Lined) (hi : i < m.sources.length) (hnone : m.head i = none)
    (e : Event) (s : Source) :
    ({ m with sources := m.sources.set i s, heads := m.heads.set i (some e),
              turns := insertTurn (e.timestamp, i) m.turns } : Merge).Lined := by
  have hnew : ∀ x ∈ m.turns, x.2 ≠ i := by
    rintro ⟨t, j⟩ hx rfl
    obtain ⟨e', he', -⟩ := (hm.mem_iff t j).1 hx
    rw [hnone] at he'
    cases he'
  refine ⟨by simpa using hm.heads, pairwise_insertTurn hm.ordered hnew, fun t j => ?_⟩
  by_cases hj : i = j
  · subst hj
    have hself : (m.heads.set i (some e)).getD i none = some e := getD_set_self (hm.heads ▸ hi) _ _
    have hold : (t, i) ∉ m.turns := fun hx => hnew _ hx rfl
    simp only [mem_insertTurn, head, hself, hold, or_false, Prod.mk.injEq, and_true,
      Option.some.injEq, exists_eq_left']
    exact eq_comm
  · have hother : (m.heads.set i (some e)).getD j none = m.head j := getD_set_ne hj _ _
    have hne : (t, j) ≠ (e.timestamp, i) := fun h => hj (Prod.mk.inj h).2.symm
    simp only [mem_insertTurn, head, hother, hne, false_or]
    exact hm.mem_iff t j

theorem Refilled.lined (h : m.Refilled i f m') (hm : m.Lined) (hnone : m.head i = none) :
    m'.Lined := by
  cases h with
  | event h => exact hm.insert (lt_of_next h (.inl (by simp [Read.event?]))) hnone _ _
  | nothing h => exact hm.set_source i _
  | failure h => exact hm.set_source i _

/-- A source with no event at hand has its answer at hand after it is asked. -/
theorem Refilled.heads_eq (h : m.Refilled i f m') (hnone : m.head i = none) :
    m'.heads = m.heads.set i (m.source i).next.1.event? := by
  have hsame : m.heads.set i none = m.heads := by
    refine List.ext_getElem (by simp) fun j hj _ => ?_
    rw [List.getElem_set]
    split
    next hij =>
      subst hij
      have hi : i < m.heads.length := by simpa using hj
      simpa [head, hi] using hnone.symm
    next => rfl
  cases h with
  | event h => rw [h]; rfl
  | nothing h => rw [h]; exact hsame.symm
  | failure h => rw [h]; exact hsame.symm

theorem Refilled.sources_eq (h : m.Refilled i f m') :
    m'.sources = m.sources.set i (m.source i).next.2 := by
  cases h with
  | event h => rw [h]
  | nothing h => rw [h]
  | failure h => rw [h]

/-! ## Taking a turn -/

/-- The turn taken away, and the event with it. -/
theorem Lined.pop (hm : m.Lined) (hturns : m.turns = (t, i) :: turns) :
    ({ m with turns, heads := m.heads.set i none } : Merge).Lined := by
  obtain ⟨hfirst, hrest⟩ := List.pairwise_cons.1 (hturns ▸ hm.ordered)
  obtain ⟨e, he, htime⟩ := (hm.mem_iff t i).1 (by simp [hturns])
  refine ⟨by simpa using hm.heads, hrest, fun t' j => ?_⟩
  by_cases hj : i = j
  · subst hj
    -- another turn of this source would be at the same time
    have hgone : (t', i) ∉ turns := fun hx => by
      obtain ⟨e', he', htime'⟩ := (hm.mem_iff t' i).1 (by simp [hturns, hx])
      obtain rfl : e = e' := Option.some.inj (he.symm.trans he')
      rcases hfirst _ hx with hlt | ⟨-, hlt⟩
      · exact Int.lt_irrefl _ (htime ▸ htime' ▸ hlt)
      · exact Nat.lt_irrefl _ hlt
    simp only [head, getD_set_none, hgone, reduceCtorEq, false_and, exists_false]
  · have hother : (m.heads.set i none).getD j none = m.heads.getD j none := getD_set_ne hj _ _
    have hne : (t', j) ≠ (t, i) := fun h => hj (Prod.mk.inj h).2.symm
    have hold := hm.mem_iff t' j
    simp only [hturns, List.mem_cons, hne, false_or, head] at hold
    simpa only [head, hother] using hold

/-- The event whose turn it is comes before those at hand of other sources. -/
theorem Lined.first (hm : m.Lined) (hturns : m.turns = (t, i) :: turns) (hj : i ≠ j)
    (he : m.head j = some e) :
    Before (t, i) (e.timestamp, j) := by
  have hmem : (e.timestamp, j) ∈ m.turns := (hm.mem_iff _ j).2 ⟨e, he, rfl⟩
  rw [hturns] at hmem
  rcases List.mem_cons.1 hmem with heq | hmem
  · exact absurd (Prod.mk.inj heq).2.symm hj
  · exact (List.pairwise_cons.1 (hturns ▸ hm.ordered)).1 _ hmem

/-- Taking a turn hands out the event at hand, unless its source then fails, and puts in its place
what the source has next. -/
theorem Lined.takeTurn (hm : m.Lined) (hturns : m.turns = (t, i) :: turns) :
    ∃ e, m.head i = some e ∧ e.timestamp = t ∧ m.takeTurn.1 = (m.source i).next.1.over e ∧
      m.takeTurn.2.Lined ∧
      m.takeTurn.2.heads = m.heads.set i (m.source i).next.1.event? ∧
      m.takeTurn.2.sources = m.sources.set i (m.source i).next.2 ∧
      m.takeTurn.2.primed = m.primed := by
  obtain ⟨e, he, htime⟩ := (hm.mem_iff t i).1 (by simp [hturns])
  have hpop := hm.pop hturns
  have hnone : ({ m with turns, heads := m.heads.set i none } : Merge).head i = none :=
    getD_set_none _ i
  have hhead : m.heads.getD i none = some e := he
  refine ⟨e, he, htime, ?_⟩
  unfold Merge.takeTurn
  simp only [hturns, hhead]
  rcases hr : ({ m with turns, heads := m.heads.set i none } : Merge).refill i with ⟨f, m'⟩
  have href := refilled hr
  have hheads := href.heads_eq hnone
  have hsources := href.sources_eq
  have hlined := href.lined hpop hnone
  have hprimed := href.primed_eq
  have hsource : ({ m with turns, heads := m.heads.set i none } : Merge).source i = m.source i :=
    rfl
  rw [hsource] at hheads hsources
  rw [List.set_set] at hheads
  have hread : (match f with
      | some f => Read.failure f
      | none => .event e) = (m.source i).next.1.over e := by
    cases href with
    | event h => rw [hsource] at h; rw [h]; rfl
    | nothing h => rw [hsource] at h; rw [h]; rfl
    | failure h => rw [hsource] at h; rw [h]; rfl
  cases f with
  | some f => exact ⟨hread, hlined, hheads, hsources, hprimed⟩
  | none => exact ⟨hread, hlined, hheads, hsources, hprimed⟩

theorem lt_of_head (hheads : m.heads.length = m.sources.length) (he : m.head i = some e) :
    i < m.sources.length := by
  refine Nat.lt_of_not_le fun hle => ?_
  rw [← hheads] at hle
  simp [head, hle] at he

/-- A turn changes nothing but the source whose turn it is. -/
theorem Lined.takeTurn_at (hm : m.Lined) (hturns : m.turns = (t, i) :: turns) :
    m.takeTurn.2.head i = (m.source i).next.1.event? ∧ m.takeTurn.2.source i = (m.source i).next.2 ∧
      ∀ j, i ≠ j → m.takeTurn.2.head j = m.head j ∧ m.takeTurn.2.source j = m.source j := by
  obtain ⟨e, he, -, -, -, hheads, hsources, -⟩ := hm.takeTurn hturns
  have hi := lt_of_head hm.heads he
  unfold head source
  rw [hheads, hsources]
  exact ⟨getD_set_self (hm.heads ▸ hi) _ _, getD_set_self hi _ _,
    fun j hj => ⟨getD_set_ne hj _ _, getD_set_ne hj _ _⟩⟩

theorem Lined.head_of_nil (hm : m.Lined) (hturns : m.turns = []) (i : Nat) : m.head i = none := by
  cases h : m.head i with
  | none => rfl
  | some e => simpa [hturns] using (hm.mem_iff e.timestamp i).2 ⟨e, h, rfl⟩

end

end Merge

end StateHistory
