import StateHistory.Proofs.Trace.Priming

/-!
# What a merge loses

`RunsOut` follows a merge up to the first call that gives nothing. The calls before give no more
events than the merge holds (`RunsOut.length_le`), fewer if a source still fails while a turn is
taken (`RunsOut.length_lt`), and exactly those it holds if none does (`RunsOut.perm`). From the
first call on, the same is told about the merge that has asked all its sources, as failing rounds
give no events (`Kept.prime`).
-/

namespace StateHistory

theorem length_flatMap_range_le {α : Type} {g h : Nat → List α}
    (hle : ∀ i, (g i).length ≤ (h i).length) (n : Nat) :
    ((List.range n).flatMap g).length ≤ ((List.range n).flatMap h).length := by
  induction n with
  | zero => simp
  | succ n ih =>
    have := hle n
    simp only [List.range_succ, List.flatMap_append, List.flatMap_singleton, List.length_append]
    omega

theorem length_flatMap_range_lt {α : Type} {g h : Nat → List α} {i n : Nat}
    (hle : ∀ i, (g i).length ≤ (h i).length) (hi : i < n) (hlt : (g i).length < (h i).length) :
    ((List.range n).flatMap g).length < ((List.range n).flatMap h).length := by
  induction n with
  | zero => cases hi
  | succ n ih =>
    simp only [List.range_succ, List.flatMap_append, List.flatMap_singleton, List.length_append]
    rcases Nat.lt_succ_iff_lt_or_eq.1 hi with hi | rfl
    · have := hle n
      have := ih hi
      omega
    · have := length_flatMap_range_le hle i
      omega

theorem Source.NeverFails.of_next {s s' : Source} {r : Read} (h : s.next = (r, s'))
    (hr : r.failed = false) (hs : s'.NeverFails) : s.NeverFails := by
  obtain ⟨_ | ⟨r', rest⟩⟩ := s <;> cases h
  · exact hs
  · intro r hmem
    rcases List.mem_cons.1 hmem with rfl | hmem
    · exact hr
    · exact hs r hmem

theorem Source.neverFails_of_ended {s : Source} (h : s.reads = []) : s.NeverFails := by
  intro r hr
  rw [h] at hr
  cases hr

namespace Merge

/-- Calling a merge up to the first call that gives nothing: what the calls before it give, and the
merge after it. -/
inductive RunsOut : Merge → List Read → Merge → Prop
  | stop {m out : Merge} (h : m.next = (.nothing, out)) : RunsOut m [] out
  | call {m m' out : Merge} {r : Read} {rs : List Read} (h : m.next = (r, m')) (hr : r ≠ .nothing)
    (hrest : RunsOut m' rs out) : RunsOut m (r :: rs) out

/-- The number of events that a merge holds. -/
def total (m : Merge) : Nat := ((List.range m.sources.length).flatMap m.held).length

/-- All sources are asked, and each gives nothing only at its end. -/
structure Running (m : Merge) : Prop where
  primed : m.primed = true
  heads : m.heads.length = m.sources.length
  ends : ∀ i, (m.source i).Ends

/-- A source with no event at hand has come to its end. -/
def Drained (m : Merge) (i : Nat) : Prop := m.head i = none → (m.source i).reads = []

section
variable {m m' out : Merge} {i j : Nat} {t : Time} {f : ReadFailure} {r : Read} {rs : List Read}
variable {turns : List (Time × Nat)} {sources : List Source}

theorem exists_runsOut (m : Merge) : ∃ rs out, m.RunsOut rs out := by
  induction hsize : m.measure using Nat.strongRecOn generalizing m with
  | _ size ih =>
  rcases hnext : m.next with ⟨r, m'⟩
  by_cases hr : r = .nothing
  · subst hr
    exact ⟨[], m', .stop hnext⟩
  · have hspent : m.isSpent = false := by
      cases hspent : m.isSpent with
      | false => rfl
      | true =>
        rw [next_of_spent hspent] at hnext
        cases hnext
        exact absurd rfl hr
    have hlt : m'.measure < size := by
      have := measure_next hspent
      rw [hnext, hsize] at this
      exact this
    obtain ⟨rs, out, hrest⟩ := ih _ hlt m' rfl
    exact ⟨r :: rs, out, .call hnext hr hrest⟩

theorem RunsOut.of_next_eq (h : m.RunsOut rs out) (heq : m.next = m'.next) : m'.RunsOut rs out := by
  cases h with
  | stop h => exact .stop (heq ▸ h)
  | call h hr hrest => exact .call (heq ▸ h) hr hrest

/-! ## No event out of nothing -/

theorem Running.next_of_nil (hm : m.Running) (hturns : m.turns = []) : m.next = (.nothing, m) :=
  next_of_spent (by simp [isSpent, hm.primed, hturns])

/-- A call that gives something takes a turn. -/
theorem Running.exists_turn (hm : m.Running) (h : m.next = (r, m')) (hr : r ≠ .nothing) :
    ∃ t i turns, m.turns = (t, i) :: turns := by
  cases hturns : m.turns with
  | nil =>
    rw [hm.next_of_nil hturns] at h
    cases h
    exact absurd rfl hr
  | cons turn turns => exact ⟨turn.1, turn.2, turns, rfl⟩

/-- While turns are lined up, a call gives nothing only if no turn is left. -/
theorem Running.stopped (hm : m.Running) (hlined : m.Lined) (h : m.next = (.nothing, out)) :
    m.turns = [] ∧ out = m := by
  cases hturns : m.turns with
  | nil =>
    rw [hm.next_of_nil hturns] at h
    cases h
    exact ⟨rfl, rfl⟩
  | cons turn turns =>
    obtain ⟨e, -, -, hread, -⟩ := hlined.takeTurn hturns
    rw [← next_of_primed hm.primed, h] at hread
    exact absurd hread.symm (Read.over_ne_nothing _ e)

/-- Taking the event at hand away leaves the others. -/
theorem total_pop (hheads : m.heads.length = m.sources.length) (turns : List (Time × Nat)) :
    ({ m with turns, heads := m.heads.set i none } : Merge).total + (m.head i).toList.length ≤
      m.total := by
  have hself : m.held i = (m.head i).toList ++
      ({ m with turns, heads := m.heads.set i none } : Merge).held i := by
    simp only [held, head, getD_set_none]
    rfl
  have hle : ∀ j, (({ m with turns, heads := m.heads.set i none } : Merge).held j).length ≤
      (m.held j).length := by
    intro j
    by_cases hj : i = j
    · subst hj
      rw [hself, List.length_append]
      omega
    · simp only [held, head, getD_set_ne hj]
      exact Nat.le_refl _
  unfold total
  cases hhead : m.head i with
  | none => exact length_flatMap_range_le hle _
  | some e =>
    have hi : i < m.sources.length := lt_of_head hheads hhead
    have hlt : (({ m with turns, heads := m.heads.set i none } : Merge).held i).length <
        (m.held i).length := by
      simp [hself, hhead]
    exact length_flatMap_range_lt hle hi hlt

theorem Refilled.total_le {f : Option ReadFailure} (h : m.Refilled i f m')
    (hheads : m.heads.length = m.sources.length) (hends : (m.source i).Ends) :
    m'.total ≤ m.total := by
  rw [total, total, h.lengths.2]
  exact length_flatMap_range_le (fun j => (h.held_suffix hheads hends j).length_le) _

/-- A turn uses up the event at hand, if there is one, and hands out no other. -/
theorem Running.next (hm : m.Running) (hturns : m.turns = (t, i) :: turns) :
    m.next.2.Running ∧ m.next.2.total + (m.head i).toList.length ≤ m.total ∧
      (m.next.1.event?).toList.length ≤ (m.head i).toList.length := by
  have hpop := total_pop (i := i) hm.heads turns
  have hheads : ({ m with turns, heads := m.heads.set i none } : Merge).heads.length =
      m.sources.length := by
    simpa using hm.heads
  rw [next_of_primed hm.primed, Merge.takeTurn]
  simp only [hturns]
  rcases hr : ({ m with turns, heads := m.heads.set i none } : Merge).refill i with ⟨f, m'⟩
  have href := refilled hr
  have hrunning : m'.Running :=
    ⟨href.primed_eq.trans hm.primed, by rw [href.lengths.1, href.lengths.2, hheads],
      href.ends hm.ends⟩
  have htotal : m'.total + (m.head i).toList.length ≤ m.total :=
    Nat.le_trans (Nat.add_le_add_right (href.total_le hheads (hm.ends i)) _) hpop
  cases f with
  | some f => exact ⟨hrunning, htotal, by simp [Read.event?]⟩
  | none =>
    refine ⟨hrunning, htotal, ?_⟩
    change (((m.head i).elim Read.nothing Read.event).event?).toList.length ≤ _
    cases m.head i <;> simp [Read.event?]

/-- The calls give no more events than the merge holds. -/
theorem RunsOut.length_le (h : m.RunsOut rs out) (hm : m.Running) :
    (rs.filterMap Read.event?).length ≤ m.total := by
  induction h with
  | stop => simp
  | @call m m' out r rs h hr hrest ih =>
    obtain ⟨t, i, turns, hturns⟩ := hm.exists_turn h hr
    obtain ⟨hm', htotal, hread⟩ := hm.next hturns
    rw [h] at hm' htotal hread
    dsimp only at htotal hread
    have hle := ih hm'
    have hsplit : ((r :: rs).filterMap Read.event?).length = (r.event?).toList.length +
        (rs.filterMap Read.event?).length := by
      cases hevent : r.event? <;> simp [hevent, Nat.add_comm]
    omega

/-! ## What a failure between turns loses -/

/-- If a source still fails, the calls give fewer events than the merge holds, or leave some read
behind. -/
theorem RunsOut.length_lt (h : m.RunsOut rs out) (hm : m.Running) (hlined : m.Lined)
    (hfails : ¬(m.source j).NeverFails) (hout : ∀ s ∈ out.sources, s.reads = []) :
    (rs.filterMap Read.event?).length < m.total := by
  induction h with
  | @stop m out h =>
    obtain ⟨-, rfl⟩ := hm.stopped hlined h
    exact absurd (neverFails_source (fun s hs => Source.neverFails_of_ended (hout s hs)) j) hfails
  | @call m m' out r rs h hr hrest ih =>
    obtain ⟨t, i, turns, hturns⟩ := hm.exists_turn h hr
    obtain ⟨hm', htotal, -⟩ := hm.next hturns
    obtain ⟨e, he, -, hread, hlined', -⟩ := hlined.takeTurn hturns
    obtain ⟨-, hself, hother⟩ := hlined.takeTurn_at hturns
    rw [← next_of_primed hm.primed, h] at hread hlined' hself hother
    rw [h, he, Option.toList_some, List.length_singleton] at htotal
    rw [h] at hm'
    dsimp only at hread htotal
    rw [List.filterMap_cons, hread]
    cases hfailed : (m.source i).next.1.failed with
    | true =>
      -- the event at hand is lost with this failure
      have hle := hrest.length_le hm'
      rw [Read.over_of_failed hfailed]
      dsimp only
      omega
    | false =>
      have hfails' : ¬(m'.source j).NeverFails := by
        by_cases hj : i = j
        · subst hj
          rw [hself]
          exact fun hcalm => hfails (hcalm.of_next rfl hfailed)
        · rw [(hother j hj).2]
          exact hfails
      have hlt := ih hm' hlined' hfails' hout
      rw [Read.over_of_not_failed hfailed]
      simp only [Read.event?, List.length_cons]
      omega

/-! ## Nothing is lost without failures -/

theorem Ready.drained_next (hm : m.Ready) (hends : ∀ i, (m.source i).Ends)
    (hdrained : ∀ i, m.Drained i) (hturns : m.turns = (t, i) :: turns) (j : Nat) :
    m.next.2.Drained j := by
  obtain ⟨hhead, hsource, hother⟩ := hm.lined.takeTurn_at hturns
  intro hnone
  rw [next_of_primed hm.primed] at hnone ⊢
  by_cases hj : i = j
  · subst hj
    rw [hhead] at hnone
    rw [hsource]
    exact ((hends i).next rfl).2 hnone ((hm.calm i).next rfl).1
  · rw [(hother j hj).1] at hnone
    rw [(hother j hj).2]
    exact hdrained j hnone

/-- Without failures the calls give the events still to come, and all sources have ended. -/
theorem RunsOut.perm (h : m.RunsOut rs out) (hm : m.Ready) (hends : ∀ i, (m.source i).Ends)
    (hdrained : ∀ i, m.Drained i) :
    (∀ s ∈ out.sources, s.reads = []) ∧ (rs.filterMap Read.event?).Perm m.pending.flatten := by
  have hrunning : m.Running := ⟨hm.primed, hm.lined.heads, hends⟩
  induction h with
  | @stop m out h =>
    obtain ⟨hturns, rfl⟩ := hrunning.stopped hm.lined h
    refine ⟨fun s hs => ?_, ?_⟩
    · obtain ⟨i, hi, rfl⟩ := List.mem_iff_getElem.1 hs
      have hended := hdrained i (hm.lined.head_of_nil hturns i)
      simpa [source, hi] using hended
    · rw [List.flatten_eq_nil_iff.2 (hm.pending_of_nil hturns)]
      exact .refl _
  | @call m m' out r rs h hr hrest ih =>
    obtain ⟨t, i, turns, hturns⟩ := hrunning.exists_turn h hr
    obtain ⟨before, e, l, after, hsplit, -, -, hread, hready, hpending⟩ := hm.next hturns
    have hrunning' := (hrunning.next hturns).1
    have hdrained' := hm.drained_next hends hdrained hturns
    rw [h] at hread hready hpending hrunning' hdrained'
    have hread : r = .event e := hread
    obtain ⟨hout, hperm⟩ := ih hready hrunning'.ends hdrained' hrunning'
    refine ⟨hout, ?_⟩
    rw [hpending] at hperm
    rw [hsplit, hread]
    simp only [List.filterMap_cons, Read.event?, List.flatten_append, List.flatten_cons,
      List.cons_append] at hperm ⊢
    exact (hperm.cons e).trans List.perm_middle.symm

/-! ## Up to the first round that goes through -/

theorem Refilled.drained (h : m.Refilled i none m') (hheads : m.heads.length = m.sources.length)
    (hends : (m.source i).Ends) (hj : i = j ∨ m.Drained j) : m'.Drained j := by
  intro hnone
  by_cases hij : i = j
  · subst hij
    rw [h.head_self hheads, Option.or_eq_none_iff] at hnone
    rw [h.source_self]
    exact (hends.next rfl).2 hnone.1 h.failed_eq
  · rw [h.head_ne hij] at hnone
    rw [h.source_ne hij]
    exact hj.resolve_left hij hnone

theorem refillAll_drained :
    ∀ (is : List Nat) {m m' : Merge}, m.Kept sources → m.refillAll is = (none, m') →
    ∀ j, (j ∈ is ∨ m.Drained j) → m'.Drained j
  | [], _, _, _, h, j, hj => by
    cases h
    exact hj.resolve_left List.not_mem_nil
  | i :: is, m, m', hm, h, j, hj => by
    simp only [refillAll] at h
    rcases hr : m.refill i with ⟨f, m₁⟩
    have href := refilled hr
    rw [hr] at h
    cases f with
    | some f => cases h
    | none =>
      refine refillAll_drained is (hm.refilled href) h j ?_
      rcases hj with hj | hj
      · rcases List.mem_cons.1 hj with rfl | hj
        · exact .inr (href.drained hm.heads (hm.ends j) (.inl rfl))
        · exact .inl hj
      · exact .inr (href.drained hm.heads (hm.ends i) (.inr hj))

theorem Kept.asked (hm : m.Kept sources) : ({ m with primed := true } : Merge).Kept sources :=
  ⟨hm.heads, hm.size, hm.ends, hm.held, hm.fresh,
    hm.lined.imp_left fun h => ⟨h.heads, h.ordered, h.mem_iff⟩⟩

/-- Rounds that fail give no events; once a round goes through, each source has an event at hand or
has ended. -/
theorem Kept.prime (hm : m.Kept sources) (hprimed : m.primed = false) :
    ∃ m' : Merge, m'.Running ∧ m'.sources = settled m.sources ∧ m'.Kept sources ∧
      (∀ i, m'.Drained i) ∧
      ∀ rs out, m.RunsOut rs out → ∃ rs',
      m'.RunsOut rs' out ∧ rs.filterMap Read.event? = rs'.filterMap Read.event? := by
  induction hrounds : failedRounds m.sources using Nat.strongRecOn generalizing m with
  | _ k ih =>
  have hall : m.sources = [] ++ m.sources := rfl
  obtain ⟨hok, hfail⟩ := round_sources hall
  rcases hround : m.refillAll (List.range m.sources.length) with ⟨f, m₁⟩
  have hm₁ : m₁.Kept sources := by
    have := refillAll_induct (P := (·.Kept sources)) Kept.refilled (List.range m.sources.length) hm
    rwa [hround] at this
  have hround' := hround
  rw [List.range_eq_range'] at hround'
  cases f with
  | none =>
    obtain ⟨-, hsources⟩ := hok m₁ hround'
    have hdrained : ∀ i, m₁.Drained i := by
      intro i
      by_cases hi : i < m.sources.length
      · exact refillAll_drained _ hm hround i (.inl (List.mem_range.2 hi))
      · intro _
        have hge : m₁.sources.length ≤ i := by
          rw [hm₁.size, ← hm.size]
          omega
        simp [source, hge]
    exact ⟨{ m₁ with primed := true }, ⟨rfl, hm₁.heads, hm₁.ends⟩, hsources, hm₁.asked, hdrained,
      fun rs out h => ⟨rs, h.of_next_eq (next_of_round hprimed hround), rfl⟩⟩
  | some f =>
    obtain ⟨rest, hsources, hsucc, hsettled⟩ := hfail f m₁ hround'
    have hprimed₁ : m₁.primed = false := by
      have := primed_refillAll (List.range m.sources.length) m
      rwa [hround, hprimed] at this
    rw [List.nil_append] at hsources
    rw [← hsources] at hsucc hsettled
    obtain ⟨m', hrunning, hsources', hkept, hdrained, hruns⟩ := ih _ (by omega) hm₁ hprimed₁ rfl
    refine ⟨m', hrunning, hsources'.trans hsettled.symm, hkept, hdrained, fun rs out h => ?_⟩
    have hnext : m.next = (.failure f, m₁) := by
      unfold next
      rw [hprimed, hround]
      rfl
    cases h with
    | stop h =>
      rw [hnext] at h
      cases h
    | call h hr hrest =>
      rw [hnext] at h
      cases h
      obtain ⟨rs', hrun, hsame⟩ := hruns _ _ hrest
      exact ⟨rs', hrun, hsame⟩

end

end Merge

end StateHistory
