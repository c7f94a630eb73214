import StateHistory.Proofs.Store.Bounds
import StateHistory.Proofs.Store.Sweep

/-!
# Queries over several times of a growing store

While a store grows, an interval that reaches the end of recording is taken to answer every later
time. That is right for ongoing states and for attributes without any. It is wrong for one kind of
gap: a state that was amended into being before anything was recorded starts at zero, and when
recording then begins before zero and ends before it too, the gap in front of the state reaches the
end of recording, so that the state behind it is passed over. `query2d_agrees_iff` shows that
nothing else goes wrong.
-/

namespace StateHistory.Store

/-! ## Answers of a growing store -/

/-- The store grows, each of its timelines does, and they lie before the end of recording. -/
structure Recording (s : Store) (start stop : Time) : Prop extends s.Spanned start stop where
  growing : ∀ q, (s.timelineOf q).Growing
  within : ∀ q, (s.timelineOf q).Within (some stop)
  closed_eq : s.closed = false

theorem recording_run (calls : List Call) (hc : (new.run calls).closed = false) {start : Time}
    (hs : (new.run calls).start = some start) : ∃ stop, (new.run calls).Recording start stop := by
  have hsound := sound_run calls
  have hbounded := bounded_run calls hc
  obtain ⟨stop, hstop⟩ := Option.isSome_iff_exists.1 (hbounded.started.symm.trans (by rw [hs]; rfl))
  have hwithin := hbounded.within
  rw [hstop] at hwithin
  exact ⟨stop, ⟨hsound.seamless, hs, hstop⟩, hsound.growing hc, hwithin, hc⟩

namespace Recording

section
variable {s : Store} {q : Quark} {start stop t t' : Time}

theorem stop_lt (h : s.Recording start stop) {iv : Interval} (hiv : iv ∈ (s.timelineOf q).closed) :
    iv.stop < stop := by
  obtain ⟨last, hlast, hlt⟩ := (h.within q).closed_lt iv hiv
  obtain rfl : stop = last := by simpa using hlast
  exact hlt

theorem start_eq_zero (h : s.Recording start stop) {o : Ongoing}
    (ho : (s.timelineOf q).ongoing = some o) (hlt : stop < o.start) : o.start = 0 := by
  rcases (h.within q).ongoing_le o ho with h0 | ⟨last, hlast, hle⟩
  · exact h0
  · obtain rfl : stop = last := by simpa using hlast
    exact absurd hlt (Int.not_lt.2 hle)

theorem last?_eq_none (h : s.Recording start stop) (ho : (s.timelineOf q).ongoing = none) :
    (s.timelineOf q).last? = none := by
  rw [Timeline.last?, h.growing q ho]
  rfl

/-- An ongoing state is shown up to where recording stands. -/
theorem intervalAt_ongoing (h : s.Recording start stop) {o : Ongoing}
    (ho : (s.timelineOf q).ongoing = some o) (hlo : o.start ≤ t) :
    s.intervalAt q t = ⟨q, o.start, max stop o.start, o.value⟩ := by
  rw [intervalAt_of_ongoing (h.seamless q) ho hlo, presented, h.stop_eq]
  rfl

/-- What passes over a time either reaches it or reaches the end of recording. -/
theorem passes_iff (h : s.Recording start stop) {iv : Interval} :
    s.passes iv t = true ↔ stop ≤ iv.stop ∨ t ≤ iv.stop := by
  simp [passes, isOpenEnded, h.closed_eq, h.stop_eq]

/-- From the first record on, answers start there or later. -/
theorem start?_le_intervalAt (h : s.Recording start stop) {a : Time}
    (ha : (s.timelineOf q).start? = some a) (hle : a ≤ t) : a ≤ (s.intervalAt q t).start := by
  have hp := (h.seamless q).lookup_position t
  generalize (s.timelineOf q).lookup t = found at hp
  cases hp with
  | closed hiv hl hr =>
    rw [intervalAt_of_closed (h.seamless q) hiv hl hr]
    exact (h.seamless q).start?_le_closed ha hiv
  | ongoing ho hl =>
    rw [h.intervalAt_ongoing ho hl]
    exact (h.seamless q).start?_le_ongoing ha ho
  | before hlt => exact absurd hle (Int.not_le.2 (hlt a ha))
  | after ho hl _ => rw [h.last?_eq_none ho] at hl; cases hl

/-- Behind a closed interval, answers start behind it. -/
theorem stop_lt_intervalAt (h : s.Recording start stop) {iv : Interval}
    (hiv : iv ∈ (s.timelineOf q).closed) (hlt : iv.stop < t) :
    iv.stop < (s.intervalAt q t).start := by
  have hp := (h.seamless q).lookup_position t
  generalize (s.timelineOf q).lookup t = found at hp
  cases hp with
  | closed hjv hl hr =>
    rw [intervalAt_of_closed (h.seamless q) hjv hl hr]
    refine Int.not_le.1 fun hle => ?_
    have := (h.seamless q).start_le _ hiv
    rw [(h.seamless q).ordered.eq_of_share hiv hjv (by lia) hle] at hlt
    lia
  | ongoing ho hl =>
    rw [h.intervalAt_ongoing ho hl]
    exact (h.seamless q).ordered.stop_lt_ongoing hiv ho
  | before hb =>
    obtain ⟨a, ha⟩ := Timeline.start?_isSome_of_closed hiv
    have := hb a ha
    have := (h.seamless q).start?_le_closed ha hiv
    have := (h.seamless q).start_le _ hiv
    lia
  | after ho hl _ => rw [h.last?_eq_none ho] at hl; cases hl

/-- The answer to a time that is not passed over starts later. -/
theorem start_lt_of_not_passes (h : s.Recording start stop) (hlo : start ≤ t)
    (hpass : s.passes (s.intervalAt q t) t' = false) :
    (s.intervalAt q t).start < (s.intervalAt q t').start := by
  have hnot : ¬ (stop ≤ (s.intervalAt q t).stop ∨ t' ≤ (s.intervalAt q t).stop) := by
    rw [← h.passes_iff, hpass]
    exact Bool.false_ne_true
  have hp := (h.seamless q).lookup_position t
  generalize (s.timelineOf q).lookup t = found at hp
  cases hp with
  | closed hiv hl hr =>
    rw [intervalAt_of_closed (h.seamless q) hiv hl hr] at hnot ⊢
    have := (h.seamless q).start_le _ hiv
    have := h.stop_lt_intervalAt hiv (t := t') (by lia)
    lia
  | ongoing ho hl =>
    rw [h.intervalAt_ongoing ho hl] at hnot
    exact absurd (Or.inl (Int.le_max_left _ _)) hnot
  | before hlt =>
    rw [h.intervalAt_before hlo hlt] at hnot ⊢
    cases ha : (s.timelineOf q).start? with
    | none =>
      rw [ha] at hnot
      exact absurd (Or.inl (Int.le_max_left _ _)) hnot
    | some a =>
      rw [ha, Option.elim_some] at hnot
      have := hlt a ha
      have := h.start?_le_intervalAt ha (t := t') (by lia)
      exact show start < _ by lia
  | after ho hl _ => rw [h.last?_eq_none ho] at hl; cases hl

/-- A time that is passed over has an answer with the same start and value, unless an ongoing state
starts between the two times and past the end of recording. -/
theorem alike_of_passes (h : s.Recording start stop) (hlo : start ≤ t) (hle : t ≤ t')
    (hpass : s.passes (s.intervalAt q t) t' = true)
    (hno : ∀ o, (s.timelineOf q).ongoing = some o → stop < o.start → t < o.start → t' < o.start) :
    (s.intervalAt q t).start = (s.intervalAt q t').start ∧
    (s.intervalAt q t).value = (s.intervalAt q t').value := by
  rw [h.passes_iff] at hpass
  have hp := (h.seamless q).lookup_position t
  generalize (s.timelineOf q).lookup t = found at hp
  cases hp with
  | closed hiv hl hr =>
    rw [intervalAt_of_closed (h.seamless q) hiv hl hr] at hpass ⊢
    have := h.stop_lt hiv
    rw [intervalAt_of_closed (h.seamless q) hiv (by lia) (by lia)]
    exact ⟨rfl, rfl⟩
  | ongoing ho hl =>
    rw [h.intervalAt_ongoing ho hl, h.intervalAt_ongoing ho (Int.le_trans hl hle)]
    exact ⟨rfl, rfl⟩
  | before hlt =>
    rw [h.intervalAt_before hlo hlt] at hpass ⊢
    have hlt' : ∀ a, (s.timelineOf q).start? = some a → t' < a := by
      intro a ha
      rw [ha, Option.elim_some] at hpass
      rcases Nat.eq_zero_or_pos (s.timelineOf q).closed.size with h0 | hpos
      · rw [Timeline.start?_of_empty h0] at ha
        obtain ⟨o, ho, rfl⟩ := Option.map_eq_some_iff.1 ha
        rcases hpass with hpass | hpass
        · exact hno o ho (by lia) (hlt _ (by rw [Timeline.start?_of_empty h0, ho]; rfl))
        · lia
      · -- a closed interval ends before recording does, so the gap before it cannot reach the end
        have hmem := Array.getElem_mem hpos
        have := h.stop_lt hmem
        have := (h.seamless q).start?_le_closed ha hmem
        have := (h.seamless q).start_le _ hmem
        lia
    rw [h.intervalAt_before (Int.le_trans hlo hle) hlt']
    exact ⟨rfl, rfl⟩
  | after ho hl _ => rw [h.last?_eq_none ho] at hl; cases hl

theorem single_ok_iff_le (h : s.Recording start stop) (hq : s.tree.contains q = true)
    {iv : Interval} :
    single t q s = .ok iv ↔ start ≤ t ∧ s.intervalAt q t = iv := by
  rw [h.single_ok_iff hq, h.closed_eq]
  simp

theorem mem_answerable_iff (h : s.Recording start stop) {ts : List Time}
    (hts : ∀ t ∈ ts, t.InRange) :
    t ∈ s.answerable start ts ↔ t ∈ ts ∧ start ≤ t := by
  rw [mem_answerable, h.closed_eq]
  constructor
  · exact fun ⟨ht, hlo, _⟩ => ⟨ht, hlo⟩
  · exact fun ⟨ht, hlo⟩ => ⟨ht, hlo, (hts t ht).2⟩

end

end Recording

/-! ## Agreement with point queries -/

/-- What is reported agrees with point queries. -/
structure Agrees (s : Store) (qs : List Quark) (ts : List Time) (ivs : List Interval) : Prop where
  /-- Each requested pair has an interval with the start and the value that a point query
  answers. -/
  complete : ∀ start, s.start = some start → ∀ q ∈ qs, ∀ t ∈ ts, start ≤ t →
    ∃ iv ∈ ivs, ∃ a, single t q s = .ok a ∧ iv.quark = q ∧ iv.start = a.start ∧ iv.value = a.value
  /-- Each interval is what a point query answers for some requested pair. -/
  sound : ∀ iv ∈ ivs, ∃ q ∈ qs, ∃ t ∈ ts, single t q s = .ok iv
  /-- Each state is reported once. -/
  once : ivs.Pairwise fun a b => a.quark = b.quark → a.start ≠ b.start

/-- The ongoing state of `q` was amended into being at zero, recording stands before zero, and the
times ask for what comes before zero and for what comes from zero on. -/
def Overruns (s : Store) (q : Quark) (ts : List Time) : Prop :=
  ∃ v start stop, (s.timelineOf q).ongoing = some ⟨0, v⟩ ∧ s.start = some start ∧
    s.stop = some stop ∧
    stop < 0 ∧ (∃ t ∈ ts, start ≤ t ∧ t < 0) ∧ ∃ t ∈ ts, 0 ≤ t

namespace Recording

section
variable {s : Store} {q : Quark} {qs : List Quark} {ts : List Time} {start stop t : Time}

/-- Every requested time has an answer of its start and value, as long as no state overruns. -/
theorem swept_complete (h : s.Recording start stop) (hts : ∀ t ∈ ts, t.InRange)
    (hno : ¬ s.Overruns q ts) (ht : t ∈ ts) (hlo : start ≤ t) :
    ∃ iv ∈ s.swept q (s.answerable start ts), iv.quark = q ∧
      iv.start = (s.intervalAt q t).start ∧ iv.value = (s.intervalAt q t).value := by
  have hmem := (h.mem_answerable_iff hts).2 ⟨ht, hlo⟩
  rcases (sweeps_swept ..).covers (answerable_ascending ..) t hmem with
    hiv | ⟨u, hu, hlt, hiv, hpass⟩
  · exact ⟨_, hiv, h.intervalAt_quark, rfl, rfl⟩
  · obtain ⟨hut, hulo⟩ := (h.mem_answerable_iff hts).1 hu
    refine ⟨_, hiv, h.intervalAt_quark, h.alike_of_passes hulo (Int.le_of_lt hlt) hpass ?_⟩
    rintro ⟨zero, v⟩ ho hstop huo
    obtain rfl : zero = 0 := h.start_eq_zero ho hstop
    refine Int.not_le.1 fun hle => hno ?_
    exact ⟨v, start, stop, ho, h.start_eq, h.stop_eq, hstop, ⟨u, hut, hulo, huo⟩, t, ht, hle⟩

/-- A state that starts past the end of recording is the first of its attribute. -/
theorem start?_of_past (h : s.Recording start stop) {o : Ongoing}
    (ho : (s.timelineOf q).ongoing = some o) (hlt : stop < o.start) :
    (s.timelineOf q).start? = some o.start := by
  have h0 : (s.timelineOf q).closed.size = 0 := by
    refine Nat.eq_zero_of_not_pos fun hpos => ?_
    have hlast := Timeline.last?_isSome hpos
    have := (h.seamless q).ongoing_start o _ ho hlast
    have := h.stop_lt (Array.getElem_mem (Nat.sub_lt hpos Nat.one_pos))
    lia
  rw [Timeline.start?_of_empty h0, ho]
  rfl

/-- Of an attribute whose state overruns only the gap in front of it is reported. -/
theorem start_of_overruns (h : s.Recording start stop) (hts : ∀ t ∈ ts, t.InRange) {o : Ongoing}
    (ho : (s.timelineOf q).ongoing = some o) (hlt : stop < o.start) (ht : t ∈ ts) (hlo : start ≤ t)
    (hto : t < o.start) {iv : Interval} (hiv : iv ∈ s.swept q (s.answerable start ts)) :
    iv.start = start := by
  have hmem := (h.mem_answerable_iff hts).2 ⟨ht, hlo⟩
  have hasc := answerable_ascending s start ts
  have hlow : ∀ u ∈ s.answerable start ts, start ≤ u := fun u hu =>
    ((h.mem_answerable_iff hts).1 hu).2
  have hsweeps := sweeps_swept s q (s.answerable start ts)
  generalize s.answerable start ts = us at hmem hasc hlow hsweeps hiv
  cases us with
  | nil => cases hmem
  | cons u us =>
    have hut : u ≤ t := by
      rcases List.mem_cons.1 hmem with rfl | hmem
      · exact Int.le_refl _
      · exact Int.le_of_lt (List.rel_of_pairwise_cons hasc hmem)
    have hfirst := h.start?_of_past ho hlt
    have hgap := h.intervalAt_before (hlow u (List.mem_cons_self ..)) (q := q) fun a ha => by
      obtain rfl : o.start = a := by simpa [hfirst] using ha
      exact Int.lt_of_le_of_lt hut hto
    have hpass : ∀ t' ∈ us, s.passes (s.intervalAt q u) t' = true := by
      intro t' _
      rw [h.passes_iff, hgap, hfirst]
      exact Or.inl (Int.le_sub_one_of_lt hlt)
    rw [hsweeps.eq_singleton hpass, List.mem_singleton] at hiv
    rw [hiv, hgap]

theorem complete_iff (h : s.Recording start stop) (hqs : ∀ q ∈ qs, s.tree.contains q = true)
    (hts : ∀ t ∈ ts, t.InRange) :
    (∀ q ∈ qs, ∀ t ∈ ts, start ≤ t → ∃ iv ∈ qs.flatMap fun q => s.swept q (s.answerable start ts),
      ∃ a, single t q s = .ok a ∧ iv.quark = q ∧ iv.start = a.start ∧ iv.value = a.value) ↔
    ∀ q ∈ qs, ¬ s.Overruns q ts := by
  constructor
  · rintro hcomplete q hq ⟨v, a, b, ho, hstart, hstop, hlt, ⟨t, ht, hlo, hto⟩, t', ht', hot'⟩
    obtain rfl : start = a := by simpa [h.start_eq] using hstart
    obtain rfl : stop = b := by simpa [h.stop_eq] using hstop
    obtain ⟨iv, hiv, a, ha, rfl, heq, -⟩ := hcomplete q hq t' ht' (by lia)
    obtain ⟨-, rfl⟩ := (h.single_ok_iff_le (hqs _ hq)).1 ha
    have hgap := h.start_of_overruns hts ho hlt ht hlo hto (h.mem_flatMap_swept.1 hiv).2
    rw [hgap, h.intervalAt_ongoing ho hot'] at heq
    exact absurd (show start = 0 from heq) (by lia)
  · intro hno q hq t ht hlo
    obtain ⟨iv, hiv, hquark, halike⟩ := h.swept_complete hts (hno q hq) ht hlo
    exact ⟨iv, List.mem_flatMap.2 ⟨q, hq, hiv⟩, _, (h.single_ok_iff_le (hqs q hq)).2 ⟨hlo, rfl⟩,
      hquark, halike⟩

theorem report_sound (h : s.Recording start stop) (hqs : ∀ q ∈ qs, s.tree.contains q = true)
    (hts : ∀ t ∈ ts, t.InRange) {iv : Interval}
    (hiv : iv ∈ qs.flatMap fun q => s.swept q (s.answerable start ts)) :
    ∃ q ∈ qs, ∃ t ∈ ts, single t q s = .ok iv := by
  obtain ⟨q, hq, hiv⟩ := List.mem_flatMap.1 hiv
  obtain ⟨t, ht, heq⟩ := (sweeps_swept ..).answers iv hiv
  obtain ⟨hmem, hlo⟩ := (h.mem_answerable_iff hts).1 ht
  exact ⟨q, hq, t, hmem, (h.single_ok_iff_le (hqs q hq)).2 ⟨hlo, heq⟩⟩

theorem report_once (h : s.Recording start stop) (hnodup : qs.Nodup) (hts : ∀ t ∈ ts, t.InRange) :
    (qs.flatMap fun q => s.swept q (s.answerable start ts)).Pairwise
      fun a b => a.quark = b.quark → a.start ≠ b.start := by
  refine h.pairwise_flatMap_swept hnodup (fun q _ => ?_) ?_
  · refine (sweeps_swept ..).pairwise (answerable_ascending ..) ?_
    intro t ht t' _ _ hpass _
    have hlo := ((h.mem_answerable_iff hts).1 ht).2
    exact Int.ne_of_lt (h.start_lt_of_not_passes hlo hpass)
  · intro a b hne heq
    exact absurd heq hne

theorem agrees_iff (h : s.Recording start stop) (hqs : ∀ q ∈ qs, s.tree.contains q = true)
    (hnodup : qs.Nodup) (hts : ∀ t ∈ ts, t.InRange) :
    s.Agrees qs ts (qs.flatMap fun q => s.swept q (s.answerable start ts)) ↔
      ∀ q ∈ qs, ¬ s.Overruns q ts := by
  rw [← h.complete_iff hqs hts]
  constructor
  · intro hagrees
    exact hagrees.complete start h.start_eq
  · intro hcomplete
    refine ⟨?_, fun iv hiv => h.report_sound hqs hts hiv, h.report_once hnodup hts⟩
    intro a ha
    obtain rfl : start = a := by simpa [h.start_eq] using ha
    exact hcomplete

end

end Recording

/-- **Only overrunning states are missed.** In a store that is growing, a query over several times
agrees with point queries, past the end of recording too, exactly if it does not ask on both sides
of zero while recording stands before zero, for an attribute that was amended before anything was
recorded. -/
theorem query2d_agrees_iff (calls : List Call) (hopen : (new.run calls).closed = false)
    (qs : List Quark) (hqs : ∀ q ∈ qs, (new.run calls).tree.contains q = true) (hnodup : qs.Nodup)
    (ts : List Time) (hts : ∀ t ∈ ts, t.InRange) :
    ∃ ivs, query2d qs ts (new.run calls) = .ok ivs ∧
      ((new.run calls).Agrees qs ts ivs ↔ ∀ q ∈ qs, ¬ (new.run calls).Overruns q ts) := by
  cases hs : (new.run calls).start with
  | none =>
    refine ⟨[], query2d_of_empty hqs hs ts, fun _ q _ => ?_,
      fun _ => ⟨fun _ h => ?_, by simp, .nil⟩⟩
    · rintro ⟨_, _, _, -, h, -⟩
      rw [hs] at h
      cases h
    · rw [hs] at h
      cases h
  | some start =>
    obtain ⟨stop, h⟩ := recording_run calls hopen hs
    exact ⟨_, query2d_of_start hqs hs ts, h.agrees_iff hqs hnodup hts⟩

/-- An attribute amended before anything is recorded, and recording that stands before zero. -/
def amendedFirst : List Call :=
  [.step (.add ⟨0⟩ ["a"]), .step (.amend (.int 7) ⟨1⟩), .step (.advance (-100))]

/-- Once recording has gone past zero, the state that was amended into being is reported. -/
theorem query2d_agrees_past_zero :
    ∃ ivs, query2d [⟨1⟩] [-100, 5] (new.run (amendedFirst ++ [.step (.advance 3)])) = .ok ivs ∧
      (new.run (amendedFirst ++ [.step (.advance 3)])).Agrees [⟨1⟩] [-100, 5] ivs := by
  have hopen : (new.run (amendedFirst ++ [.step (.advance 3)])).closed = false := by decide +kernel
  have hqs : ∀ q ∈ [⟨1⟩], (new.run (amendedFirst ++ [.step (.advance 3)])).tree.contains q =
      true := by
    decide +kernel
  obtain ⟨ivs, hok, hiff⟩ := query2d_agrees_iff _ hopen [⟨1⟩] hqs (by decide) [-100, 5] (by decide)
  refine ⟨ivs, hok, hiff.2 ?_⟩
  rintro q hq ⟨v, start, stop, -, -, hstop, hlt, -, -⟩
  have hend : (new.run (amendedFirst ++ [.step (.advance 3)])).stop = some 3 := by decide +kernel
  obtain rfl : 3 = stop := by simpa [hend] using hstop
  exact absurd hlt (by decide)

/-- **Bug.** As long as recording stands before zero, the state is missed: only the gap in front of
it is reported, although the state is what a point query answers. -/
theorem query2d_misses_amended :
    (new.run amendedFirst).closed = false ∧ (new.run amendedFirst).tree.contains ⟨1⟩ = true ∧
    query2d [⟨1⟩] [-100, 5] (new.run amendedFirst) = .ok [⟨⟨1⟩, -100, -1, .null⟩] ∧
    single 5 ⟨1⟩ (new.run amendedFirst) = .ok ⟨⟨1⟩, 0, 0, .int 7⟩ ∧
    ¬ (new.run amendedFirst).Agrees [⟨1⟩] [-100, 5] [⟨⟨1⟩, -100, -1, .null⟩] := by
  have hsingle : single 5 ⟨1⟩ (new.run amendedFirst) = .ok ⟨⟨1⟩, 0, 0, .int 7⟩ := by decide +kernel
  have hstart : (new.run amendedFirst).start = some (-100) := by decide +kernel
  have htimes : (new.run amendedFirst).answerable (-100) [-100, 5] = [-100, 5] := by
    refine ascending_unique (answerable_ascending ..) (by decide) fun t => ?_
    have hlatest : Time.latest = 9223372036854775807 := rfl
    have hopen : (new.run amendedFirst).closed = false := by decide +kernel
    rw [mem_answerable, hopen, if_neg Bool.false_ne_true, hlatest]
    simp only [List.mem_cons, List.not_mem_nil, or_false]
    lia
  have hquery : query2d [⟨1⟩] [-100, 5] (new.run amendedFirst) = .ok [⟨⟨1⟩, -100, -1, .null⟩] := by
    rw [query2d_of_start (by decide +kernel) hstart, htimes]
    decide +kernel
  refine ⟨by decide +kernel, by decide +kernel, hquery, hsingle, fun h => ?_⟩
  obtain ⟨iv, hiv, a, ha, -, heq, -⟩ :=
    h.complete _ hstart ⟨1⟩ (by decide) 5 (by decide) (by decide)
  rw [hsingle, Except.ok.injEq] at ha
  rw [List.mem_singleton] at hiv
  subst ha hiv
  exact absurd heq (by decide)

end StateHistory.Store
