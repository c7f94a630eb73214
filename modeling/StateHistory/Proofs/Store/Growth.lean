import StateHistory.Proofs.Store.Attributes
import StateHistory.Proofs.Store.Bounds
import StateHistory.Proofs.Store.PointQuery

/-!
# Stores only grow

No step takes back what is recorded. Attributes and closed intervals are added at the end of those
that there are, the start of recording stays where it is and its end never moves back: `Extends`.
For this the bounds have to be in order and to hold what is closed (`Framed`), since closing sets
both bounds anew. So an answer that is a closed interval is final, `closed_final`.
-/

namespace StateHistory

namespace Timeline

section
variable {l : Timeline} {q : Quark} {t : Time} {iv : Interval}

theorem closed_amend (v : Value) (t : Time) : (l.amend v t).closed = l.closed := by
  unfold amend
  split <;> rfl

theorem mem_close : iv ∈ (l.close q t).2.closed ↔
    iv ∈ l.closed ∨ ∃ o, l.ongoing = some o ∧ iv = ⟨q, o.start, max t.before o.start, o.value⟩ := by
  unfold close
  cases ho : l.ongoing with
  | none => simp
  | some o => simp

theorem prefix_cut (l : Timeline) (q : Quark) (t : Time) :
    l.closed.toList <+: (l.cut q t).toList := by
  unfold cut
  cases l.ongoing with
  | none => exact List.prefix_rfl
  | some o =>
    by_cases hlt : o.start < t
    · simp [hlt]
    · simp [hlt]

theorem prefix_close (l : Timeline) (q : Quark) (t : Time) :
    l.closed.toList <+: (l.close q t).2.closed.toList := by
  unfold close
  cases l.ongoing with
  | none => exact List.prefix_rfl
  | some o => simp

end

end Timeline

namespace Store

section
variable {s s₁ s' : Store} {a : Step} {steps : List Step} {q : Quark} {t : Time}

/-! ## The bounds hold what is closed -/

/-- Both bounds are set or none is, they are in order, and nothing closed lies past the end. -/
structure Framed (s : Store) : Prop where
  started : s.start.isSome = s.stop.isSome
  start_le_stop : ∀ start stop, s.start = some start → s.stop = some stop → start ≤ stop
  closed_le : ∀ q, ∀ iv ∈ (s.timelineOf q).closed, ∃ stop, s.stop = some stop ∧ iv.stop ≤ stop

theorem Framed.stop_eq_none (h : s.Framed) (hs : s.start = none) : s.stop = none := by
  simpa [hs] using h.started

theorem Framed.exists_stop (h : s.Framed) {start : Time} (hs : s.start = some start) :
    ∃ stop, s.stop = some stop ∧ start ≤ stop := by
  obtain ⟨stop, hstop⟩ := Option.isSome_iff_exists.1 (h.started.symm.trans (by rw [hs]; rfl))
  exact ⟨stop, hstop, h.start_le_stop start stop hs hstop⟩

theorem ended_le_closeAll :
    ∀ (ls : List Timeline) (i : Nat) (stop : Time) (j : Nat) {l : Timeline} {o : Ongoing},
    ls[j]? = some l → l.ongoing = some o → max t.before o.start ≤ (closeAll t ls i stop).2
  | [], _, _, _, _, _, hl, _ => by simp at hl
  | l :: ls, i, stop, 0, _, o, hl, ho => by
    obtain rfl := Option.some.inj hl
    have hclose : (l.close ⟨i⟩ t).1 = some (max t.before o.start) := by simp [Timeline.close, ho]
    have hle := le_closeAll (t := t) ls (i + 1) (max stop (max t.before o.start))
    simp only [closeAll, hclose, Option.elim_some]
    lia
  | l :: ls, i, stop, j + 1, _, _, hl, ho => by
    simp only [closeAll]
    exact ended_le_closeAll ls (i + 1) _ j hl ho

/-- What closing ends does not reach past the end that it sets. -/
theorem ended_le_lastTime {o : Ongoing} (ho : (s.timelineOf q).ongoing = some o) :
    max t.before o.start ≤ s.lastTime t := by
  by_cases hq : q.index < s.timelines.size
  · rw [timelineOf_eq hq] at ho
    have hget : s.timelines.toList[q.index]? = some s.timelines[q.index] := by simp [hq]
    exact ended_le_closeAll _ _ _ _ hget ho
  · rw [timelineOf_outside (Nat.le_of_not_lt hq)] at ho
    cases ho

theorem stop_le_lastTime {stop : Time} (h : s.stop = some stop) (t : Time) :
    stop ≤ s.lastTime t := by
  have hle : s.stop.elim t (max t.before) ≤ s.lastTime t := le_closeAll ..
  rw [h, Option.elim_some] at hle
  exact Int.le_trans (Int.le_max_right _ _) hle

theorem framed_new : new.Framed := by
  refine ⟨rfl, ?_, ?_⟩
  · intro start stop hstart
    cases hstart
  · intro q iv hiv
    rw [timelineOf_new] at hiv
    simp at hiv

theorem Framed.reach (h : s.Framed) (ho : s.Open t) : (s.reach t).Framed := by
  obtain ⟨last, hlast, hle, hmono⟩ := stop_reach h.started t
  refine ⟨by rw [start_reach, hlast]; rfl, ?_, ?_⟩
  · intro start stop hstart hstop
    rw [start_reach, Option.some.injEq] at hstart
    obtain rfl : last = stop := by simpa [hlast] using hstop
    cases hs : s.start with
    | none =>
      rw [hs, Option.getD_none] at hstart
      exact hstart ▸ hle
    | some start' =>
      rw [hs, Option.getD_some] at hstart
      exact hstart ▸ Int.le_trans (ho.start_le start' hs) hle
  · intro p iv hiv
    rw [timelineOf_reach] at hiv
    obtain ⟨stop, hstop, hiv⟩ := h.closed_le p iv hiv
    exact ⟨last, hlast, Int.le_trans hiv (hmono stop hstop)⟩

theorem Framed.wrote (h : s.Framed) (hw : s.Writable q t) (v : Value) : (s.wrote t v q).Framed := by
  have hr := h.reach hw.toOpen
  have hstart : (s.wrote t v q).start = (s.reach t).start := by rw [start_wrote, start_reach]
  have hstop := stop_wrote s t v q
  refine ⟨by rw [hstart, hstop]; exact hr.started, by rw [hstart, hstop]; exact hr.start_le_stop,
    ?_⟩
  intro p iv hiv
  rw [timelineOf_wrote hw.covered] at hiv
  rw [hstop]
  by_cases hp : p = q
  · subst hp
    rw [if_pos rfl] at hiv
    rcases Timeline.mem_cut.1 hiv with hiv | ⟨o, -, -, rfl⟩
    · exact hr.closed_le p iv (by simpa using hiv)
    · -- what a write closes ends just before it
      obtain ⟨last, hlast, hle, -⟩ := stop_reach h.started t
      exact ⟨last, hlast, Int.le_trans (Int.sub_le_self t (by decide)) hle⟩
  · rw [if_neg hp] at hiv
    exact hr.closed_le p iv (by simpa using hiv)

theorem Framed.ended (h : s.Framed) (t : Time) : (s.ended t).Framed := by
  refine ⟨rfl, ?_, ?_⟩
  · rintro start stop ⟨⟩ ⟨⟩
    exact Int.min_le_right _ _
  · intro p iv hiv
    rw [timelineOf_ended] at hiv
    refine ⟨s.lastTime t, rfl, ?_⟩
    rcases Timeline.mem_close.1 hiv with hiv | ⟨o, ho, rfl⟩
    · obtain ⟨stop, hstop, hle⟩ := h.closed_le p iv hiv
      exact Int.le_trans hle (stop_le_lastTime hstop t)
    · exact ended_le_lastTime ho

theorem Framed.takes (h : s.Framed) (hcov : s.Covered) (ha : a.Takes s s') : s'.Framed := by
  cases ha with
  | add _ =>
    refine ⟨h.started, h.start_le_stop, ?_⟩
    intro p iv hiv
    rw [timelineOf_grown] at hiv
    exact h.closed_le p iv hiv
  | advance ho => exact h.reach ho
  | write hw => exact h.wrote hw _
  | @amend v q hq =>
    refine ⟨h.started, h.start_le_stop, ?_⟩
    intro p iv hiv
    rw [timelineOf_amended (hcov.contains_iff.1 hq)] at hiv
    by_cases hp : p = q
    · subst hp
      rw [if_pos rfl, Timeline.closed_amend] at hiv
      exact h.closed_le p iv hiv
    · rw [if_neg hp] at hiv
      exact h.closed_le p iv hiv
  | close _ => exact h.ended _

/-! ## What is true of every store -/

/-- What holds of every store that a writer can lead to. -/
structure Lawful (s : Store) : Prop extends s.Sound, s.Framed where
  grown : s.tree.Grown

theorem lawful_new : new.Lawful := ⟨sound_new, framed_new, Tree.grown_empty⟩

theorem Lawful.takes (h : s.Lawful) (ha : a.Takes s s') : s'.Lawful :=
  ⟨h.toSound.takes ha, h.toFramed.takes h.covered ha, ha.grown h.grown⟩

theorem lawful_run (calls : List Call) : (new.run calls).Lawful :=
  run_induct lawful_new Lawful.takes calls

/-! ## Nothing is taken back -/

/-- All that is recorded in `s` is recorded in `s'`, where attributes and intervals come behind
those of `s`; recording started at the same time and has not moved back. -/
structure Extends (s s' : Store) : Prop where
  entries : s.tree.entries <+: s'.tree.entries
  closed : ∀ q, (s.timelineOf q).closed.toList <+: (s'.timelineOf q).closed.toList
  start_eq : ∀ start, s.start = some start → s'.start = some start
  stop_le : ∀ stop, s.stop = some stop → ∃ stop', s'.stop = some stop' ∧ stop ≤ stop'

theorem Extends.refl (s : Store) : s.Extends s :=
  ⟨List.prefix_rfl, fun _ => List.prefix_rfl, fun _ h => h,
    fun stop h => ⟨stop, h, Int.le_refl stop⟩⟩

theorem Extends.trans (h : s.Extends s₁) (h' : s₁.Extends s') : s.Extends s' := by
  refine ⟨h.entries.trans h'.entries, fun q => (h.closed q).trans (h'.closed q),
    fun start hs => h'.start_eq start (h.start_eq start hs), ?_⟩
  intro stop hs
  obtain ⟨stop₁, hs₁, hle⟩ := h.stop_le stop hs
  obtain ⟨stop', hs', hle'⟩ := h'.stop_le stop₁ hs₁
  exact ⟨stop', hs', Int.le_trans hle hle'⟩

theorem Step.Takes.entries (ha : a.Takes s s') (h : s.tree.Linked) :
    s.tree.entries <+: s'.tree.entries :=
  ha.tree (P := fun tree => s.tree.entries <+: tree.entries) List.prefix_rfl fun _ path hb =>
    h.entries_grow hb path

/-- Closed intervals are only added, and behind those that there are. -/
theorem Covered.closed_isPrefix (h : s.Covered) (ha : a.Takes s s') (p : Quark) :
    (s.timelineOf p).closed.toList <+: (s'.timelineOf p).closed.toList := by
  have kept : ∀ {l l' : Timeline}, l'.closed = l.closed → l.closed.toList <+: l'.closed.toList :=
    fun hsame => hsame ▸ List.prefix_rfl
  cases ha with
  | add _ => exact kept (by rw [timelineOf_grown])
  | advance _ => exact kept (by rw [timelineOf_reach])
  | @write t v q hw =>
    rw [timelineOf_wrote hw.covered]
    by_cases hp : p = q
    · subst hp
      rw [if_pos rfl]
      exact Timeline.prefix_cut _ p t
    · exact kept (by rw [if_neg hp])
  | @amend v q hq =>
    rw [timelineOf_amended (h.contains_iff.1 hq)]
    by_cases hp : p = q
    · subst hp
      exact kept (by rw [if_pos rfl, Timeline.closed_amend])
    · exact kept (by rw [if_neg hp])
  | close _ =>
    rw [timelineOf_ended]
    exact Timeline.prefix_close _ p _

/-- Once recording has started, its start stays. -/
theorem Framed.start_eq (h : s.Framed) (ha : a.Takes s s') {start : Time}
    (hs : s.start = some start) :
    s'.start = some start := by
  cases ha with
  | add _ => exact hs
  | advance _ => rw [start_reach, hs, Option.getD_some]
  | write _ => rw [start_wrote, hs, Option.getD_some]
  | amend _ => exact hs
  | @close t _ =>
    -- the end that closing sets is not before the start
    obtain ⟨stop, hstop, hle⟩ := h.exists_stop hs
    have hle := Int.le_trans hle (stop_le_lastTime hstop t)
    change some (min (s.start.getD (s.lastTime t)) (s.lastTime t)) = some start
    rw [hs, Option.getD_some, Int.min_eq_left hle]

/-- The end of recording does not move back. -/
theorem Framed.stop_le (h : s.Framed) (ha : a.Takes s s') {stop : Time} (hs : s.stop = some stop) :
    ∃ stop', s'.stop = some stop' ∧ stop ≤ stop' := by
  cases ha with
  | add _ => exact ⟨stop, hs, Int.le_refl stop⟩
  | @advance t _ =>
    obtain ⟨last, hlast, -, hmono⟩ := stop_reach h.started t
    exact ⟨last, hlast, hmono stop hs⟩
  | @write t v q _ =>
    obtain ⟨last, hlast, -, hmono⟩ := stop_reach h.started t
    exact ⟨last, (stop_wrote s t v q).trans hlast, hmono stop hs⟩
  | amend _ => exact ⟨stop, hs, Int.le_refl stop⟩
  | @close t _ => exact ⟨s.lastTime t, rfl, stop_le_lastTime hs t⟩

/-- **A step adds to what is recorded and takes nothing back.** -/
theorem Lawful.extends (h : s.Lawful) (ha : a.Takes s s') : s.Extends s' where
  entries := ha.entries h.grown.toLinked
  closed := h.covered.closed_isPrefix ha
  start_eq _ hs := h.start_eq ha hs
  stop_le _ hs := h.stop_le ha hs

theorem Trail.extends (ht : Trail s steps s') (h : s.Lawful) : s'.Lawful ∧ s.Extends s' := by
  refine ht.induct (P := fun s₁ => s₁.Lawful ∧ s.Extends s₁) ?_ ⟨h, .refl s⟩
  rintro s₁ s₂ a ⟨h₁, he⟩ ha
  exact ⟨h₁.takes ha, he.trans (h₁.extends ha)⟩

theorem Lawful.after (h : s.Lawful) (c : Call) : (c.after s).Lawful ∧ s.Extends (c.after s) :=
  (Call.trail h.covered c).extends h

/-! ## Final answers -/

/-- A point query that answers with a closed interval was asked for a time of that interval. -/
theorem Sound.contains_of_closed (h : s.Sound) (hmem : s.intervalAt q t ∈ (s.timelineOf q).closed) :
    (s.intervalAt q t).start ≤ t ∧ t ≤ (s.intervalAt q t).stop := by
  have hs := h.seamless q
  have hnonempty := hs.start_le _ hmem
  have hp := hs.lookup_position t
  generalize (s.timelineOf q).lookup t = found at hp
  cases hp with
  | closed hiv hlo hhi =>
    rw [intervalAt_of_closed hs hiv hlo hhi]
    exact ⟨hlo, hhi⟩
  | @ongoing o ho hlo =>
    have hlt := hs.ordered.stop_lt_ongoing hmem ho
    rw [intervalAt_of_ongoing hs ho hlo] at hlt hnonempty
    exact absurd hnonempty (Int.not_le.2 hlt)
  | before hlt =>
    obtain ⟨first, hfirst⟩ := Timeline.start?_isSome_of_closed hmem
    have hle := hs.start?_le_closed hfirst hmem
    have ht := hlt first hfirst
    rw [intervalAt_of_before hs hlt] at hle
    have hgap : (s.gapAt q t none (s.timelineOf q).start?).start ≤ t := Int.min_le_right _ _
    exact absurd (Int.le_trans hle hgap) (Int.not_le.2 ht)
  | @after last ho hl hlt =>
    have hle := hs.ordered.stop_le_last hmem hl
    rw [intervalAt_of_after hs ho hl hlt] at hle hnonempty
    have hgap : (s.gapAt q t (some last.stop) none).start = last.stop + 1 := Int.min_eq_left hlt
    lia

/-- **An answer that is a closed interval stays the answer**, wherever the store goes on to. -/
theorem Extends.single (he : s.Extends s') (h : s.Lawful) (h' : s'.Lawful) {iv : Interval}
    (hiv : iv ∈ (s.timelineOf q).closed) (hs : single t q s = .ok iv) : single t q s' = .ok iv := by
  obtain ⟨hq, ⟨⟨start, hstart, hlo⟩, -⟩, rfl⟩ := single_ok_iff.1 hs
  obtain ⟨hstart_le, hle_stop⟩ := h.toSound.contains_of_closed hiv
  have hiv' : s.intervalAt q t ∈ (s'.timelineOf q).closed :=
    Array.mem_toList_iff.1 ((he.closed q).subset (Array.mem_toList_iff.2 hiv))
  refine single_ok_iff.2 ⟨Tree.contains_of_isPrefix he.entries hq,
    ⟨⟨start, he.start_eq start hstart, hlo⟩, ?_⟩, ?_⟩
  · intro _ stop hstop
    obtain ⟨last, hlast, hle⟩ := h'.closed_le q _ hiv'
    obtain rfl : stop = last := by simpa [hstop] using hlast
    exact Int.le_trans hle_stop hle
  · rw [intervalAt_of_closed (h'.seamless q) hiv' hstart_le hle_stop]

end

/-- **Closed intervals are final.** Whatever is called after some calls, the closed intervals of an
attribute stay the first of its closed intervals, and a point query that was answered by one of them
has the same answer. The attribute keeps its name, its parent and its path as well. -/
theorem closed_final (calls more : List Call) (q : Quark) :
    (∀ l, (new.run calls).timeline q = .ok l → ∃ l',
      ((new.run calls).run more).timeline q = .ok l' ∧
      l.closed.toList <+: l'.closed.toList ∧
      ∀ t, ∀ iv ∈ l.closed, single t q (new.run calls) = .ok iv →
      single t q ((new.run calls).run more) = .ok iv) ∧
    ∀ n, (new.run calls).tree.node q = .ok n → ∃ n',
      ((new.run calls).run more).tree.node q = .ok n' ∧
      n'.name = n.name ∧ n'.parent = n.parent ∧
      ((new.run calls).run more).tree.path q = (new.run calls).tree.path q := by
  have h := lawful_run calls
  obtain ⟨h', he⟩ := (trail_run h.covered more).extends h
  constructor
  · intro l hl
    obtain ⟨hq, rfl⟩ := timeline_eq_ok_iff.1 hl
    have hq' := Tree.contains_of_isPrefix he.entries (h.covered.contains_iff.2 hq)
    refine ⟨_, timeline_eq_ok_iff.2 ⟨h'.covered.contains_iff.1 hq', rfl⟩, he.closed q, ?_⟩
    intro t iv hiv hs
    exact he.single h h' hiv hs
  · intro n hn
    have hnode := Tree.node_eq_ok_iff.1 hn
    obtain ⟨n', hn', hname, hparent⟩ := Tree.node?_of_isPrefix he.entries hnode
    have hq := Tree.contains_iff.2 ⟨n, hnode⟩
    exact ⟨n', Tree.node_eq_ok_iff.2 hn', hname, hparent, h.grown.path_of_isPrefix he.entries hq⟩

end Store

end StateHistory
