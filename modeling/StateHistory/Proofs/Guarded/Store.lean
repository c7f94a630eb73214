import StateHistory.Proofs.Guarded.Tree
import StateHistory.Proofs.Store.Attributes
import StateHistory.Proofs.Store.Dated

/-!
# Guarded queries

Nothing is known of the intervals in a store that was restored from an image: they may stand in any
order, overlap, or end before they begin. But a search still ends at a boundary, and that is enough
for a lookup. The interval there does not end before the time that is looked up; and if it begins
after it, the gap before it ends no earlier. A state that is ongoing passes every later time, as
long as the store grows. So what a lookup comes to passes the time that is looked up
(`intervalAt_runs`), and a sweep over several times gets past at least one of them in each round
(`sweep_runs`).
-/

namespace StateHistory

/-- All times have 64 bits. -/
structure Image.Ranged (i : Image) : Prop where
  intervals : ∀ ivs ∈ i.intervals, ∀ iv ∈ ivs, iv.start.InRange ∧ iv.stop.InRange
  start_inRange : ∀ t, i.start = some t → t.InRange
  stop_inRange : ∀ t, i.stop = some t → t.InRange

instance (i : Image) : Decidable i.Ranged :=
  decidable_of_iff ((∀ ivs ∈ i.intervals, ∀ iv ∈ ivs, iv.start.InRange ∧ iv.stop.InRange) ∧
      (∀ t ∈ i.start, t.InRange) ∧ ∀ t ∈ i.stop, t.InRange)
    ⟨fun ⟨hi, hs, ht⟩ => ⟨hi, hs, ht⟩, fun ⟨hi, hs, ht⟩ => ⟨hi, hs, ht⟩⟩

/-- What a store must have for all its queries to be answered: its times have 64 bits, each
attribute has a timeline, and none has an ongoing state once the store is closed. -/
structure Store.Readable (s : Store) : Prop extends s.Ranged where
  grown : s.tree.Grown
  covered : s.Covered
  settled : s.closed = true → ∀ q, (s.timelineOf q).ongoing = none

/-- What is known of a store that was restored, whatever it was restored from. -/
structure Store.Unpacked (s : Store) : Prop extends s.Ranged where
  grown : s.tree.Grown
  covered : s.Covered
  closed : s.closed = true
  settled : ∀ q, (s.timelineOf q).ongoing = none

theorem Store.Unpacked.readable {s : Store} (h : s.Unpacked) : s.Readable :=
  ⟨h.toRanged, h.grown, h.covered, fun _ => h.settled⟩

theorem Store.unpacked_ofImage {i : Image} {s : Store} (hi : i.Ranged) (h : ofImage i = .ok s) :
    s.Unpacked := by
  have hcovered := (ofImage_ok h).2
  obtain ⟨tree, ht, -, hs⟩ := eq_of_ofImage h
  have htimeline : ∀ q, (∃ ivs ∈ i.intervals, s.timelineOf q = ⟨ivs.toArray, none⟩) ∨
      s.timelineOf q = {} := by
    intro q
    have hget : s.timelineOf q =
        (i.intervals[q.index]?.map fun ivs => ⟨ivs.toArray, none⟩).getD {} := by
      simp [timelineOf, hs, Array.getD_eq_getD_getElem?]
    cases hq : i.intervals[q.index]? with
    | some ivs => exact .inl ⟨ivs, List.mem_of_getElem? hq, by rw [hget, hq]; rfl⟩
    | none => exact .inr (by rw [hget, hq]; rfl)
  refine ⟨⟨?_, ?_, fun q => ?_⟩, ?_, hcovered, by rw [hs], fun q => ?_⟩
  · rw [hs]
    exact hi.start_inRange
  · rw [hs]
    exact hi.stop_inRange
  · rcases htimeline q with ⟨ivs, hivs, heq⟩ | heq <;> rw [heq]
    · exact ⟨fun iv hiv => hi.intervals ivs hivs iv (by simpa using hiv), by simp⟩
    · exact Timeline.ranged_empty
  · rw [hs]
    exact Tree.grown_empty.extend ht
  · rcases htimeline q with ⟨ivs, -, heq⟩ | heq <;> rw [heq]

namespace Guarded

/-! ## Operations -/

/-- What the timeline holds at `t`, as a search tells it. -/
def lookup (search : Search) (l : Timeline) (t : Time) : Lookup :=
  let i := search (l.closedAt fun iv => iv.stop < t) l.closed.size
  let next := l.closed[i]?
  match next.filter fun iv => iv.start ≤ t with
  | some iv => .closed iv
  | none =>
    match l.ongoingBy t with
    | some o => .ongoing o
    | none =>
      let previous := if i = 0 then none else l.closed[i - 1]?
      .gap (previous.map (·.stop)) ((next.map (·.start)).or (l.ongoing.map (·.start)))

/-- The closed intervals that share a time with `[start, stop]`, as a search tells them. -/
def closedWithin (search : Search) (l : Timeline) (start stop : Time) : Guarded (List Interval) :=
  let first := search (l.closedAt fun iv => iv.stop < start) l.closed.size
  let last := search (l.closedAt fun iv => iv.start ≤ stop) l.closed.size
  if last ≤ first then return [] else slice l.closed first last

/-- The stretch around `t` in which nothing is recorded for `q`. -/
def gapAt (s : Store) (q : Quark) (t : Time) (stop start : Option Time) : Guarded Interval := do
  let first ← stop.elim (return s.start.getD t) fun stop => calculated (stop + 1)
  let last ← start.elim (return max (s.stop.getD t) t) fun start => calculated (start - 1)
  return ⟨q, min first t, last, .null⟩

/-- What was looked up for `q` and `t` as an interval. -/
def found (s : Store) (q : Quark) (t : Time) : Lookup → Guarded Interval
  | .closed iv => return iv
  | .ongoing o => return s.presented q o t
  | .gap stop start => gapAt s q t stop start

/-- The interval of `q` that covers `t`. -/
def intervalAt (search : Search) (s : Store) (q : Quark) (t : Time) : Guarded Interval := do
  let l ← fetch s.timelines q.index
  found s q t (lookup search l t)

/-- The interval of one attribute that covers `t`. -/
def single (search : Search) (t : Time) (q : Quark) (s : Store) : Checked Interval := do
  plain (s.checkQuark q)
  plain (s.checkAsked t)
  intervalAt search s q t

/-- The intervals of all attributes that cover `t`. -/
def full (search : Search) (t : Time) (s : Store) : Checked (List Interval) := do
  plain (s.checkAsked t)
  ((List.range s.tree.size).mapM fun i => intervalAt search s ⟨i⟩ t : Guarded (List Interval))

/-- The place of the first time from `i` on that does not satisfy `p`. -/
def skip (ts : Array Time) (p : Time → Bool) (i : Nat) : Guarded Nat :=
  if i < ts.size then do
    if p (← fetch ts i) then skip ts p (i + 1) else return i
  else return i
termination_by ts.size - i

/-- The intervals of `q` that cover the times from place `i` on. A round that does not get past a
time would be the same for ever. -/
def sweep (search : Search) (s : Store) (q : Quark) (ts : Array Time) :
    Nat → Nat → Guarded (List Interval)
  | 0, i => if i < ts.size then .error .endless else return []
  | fuel + 1, i =>
    if i < ts.size then do
      let iv ← intervalAt search s q (← fetch ts i)
      let next ← skip ts (s.passes iv) i
      if next ≤ i then .error .stuck else return iv :: (← sweep search s q ts fuel next)
    else return []

/-- The intervals of several attributes that cover some times, for each attribute. -/
def sweepAll (search : Search) (s : Store) (qs : List Quark) (ts : Array Time) :
    Guarded (List (List Interval)) :=
  qs.mapM fun q => sweep search s q ts ts.size 0

/-- The intervals that cover some requested pair of a quark and a time. -/
def query2d (search : Search) (qs : List Quark) (ts : List Time) (s : Store) :
    Checked (List Interval) := do
  qs.forM fun q => plain (s.checkQuark q)
  match s.start with
  | none => return []
  | some start =>
    let ts := (s.answerable start ts).toArray
    return (← sweepAll search s qs ts).flatten

/-- The recorded intervals of `q` that share a time with `[start, stop]`. -/
def range (search : Search) (q : Quark) (start stop : Time) (s : Store) : Checked (List Interval) :=
  do
  let l ← plain (s.timeline q)
  let closed ← closedWithin search l start stop
  let ongoing := (l.ongoing.map fun o => s.presented q o o.start).toList
  return closed ++ ongoing.filter (·.intersects start stop)

/-- The recorded intervals of several attributes. -/
def rangeOfAll (search : Search) (qs : List Quark) (start stop : Time) (s : Store) :
    Checked (List Interval) := do
  return (← qs.mapM fun q => range search q start stop s).flatten

/-- The interval of the value at the top of the stack of `q` at `t`. -/
def top (search : Search) (t : Time) (q : Quark) (s : Store) : Checked (Option Interval) := do
  let depth := (← single search t q s).value.asLong.getD 0
  if depth ≤ 0 then return none
  match ← find s.tree q (Store.slotName depth) with
  | none => return none
  | some child => return some (← intervalAt search s child t)

/-- The head of the queue of `q`. -/
def peek (q : Quark) (s : Store) : Checked Value := do
  plain (s.checkQuark q)
  match ← find s.tree q (Store.slotName 1) with
  | none => return .null
  | some slot =>
    let l ← (fetch s.timelines slot.index : Guarded Timeline)
    return l.value

section
variable {s : Store} {l : Timeline} {q : Quark} {qs : List Quark} {t start stop : Time}
  {ts : List Time} {search : Search}

/-! ## Lookups -/

/-- There is a timeline for each attribute. -/
theorem fetch_timeline (h : s.Readable) (hq : s.tree.contains q = true) :
    fetch s.timelines q.index = .ok (s.timelineOf q) := by
  have hlt : q.index < s.timelines.size := h.covered.contains_iff.1 hq
  exact fetch_of_getElem? (by rw [Store.timelineOf_eq hlt, Array.getElem?_eq_getElem hlt])

/-- A lookup finds a closed interval that covers the time, or an ongoing state that has begun by
then, or the gap between an interval that ends before the time and one, or a state, that begins
after it. -/
theorem lookup_cases (hsearch : ∀ p size, Boundary p size (search p size)) (l : Timeline)
    (t : Time) :
    (∃ iv ∈ l.closed, lookup search l t = .closed iv ∧ iv.start ≤ t ∧ t ≤ iv.stop) ∨
      (∃ o, l.ongoing = some o ∧ lookup search l t = .ongoing o ∧ o.start ≤ t) ∨
      ∃ stop start, lookup search l t = .gap stop start ∧
      (∀ u, stop = some u → u < t ∧ ∃ iv ∈ l.closed, iv.stop = u) ∧
        ∀ u, start = some u → t < u ∧
        ((∃ iv ∈ l.closed, iv.start = u) ∨ ∃ o, l.ongoing = some o ∧ o.start = u) := by
  obtain ⟨hle, hbefore, hhere⟩ := hsearch (l.closedAt fun iv => iv.stop < t) l.closed.size
  unfold lookup
  generalize search (l.closedAt fun iv => iv.stop < t) l.closed.size = i at hle hbefore hhere
  have hstop : ∀ u, (if i = 0 then none else l.closed[i - 1]?).map (·.stop) = some u →
      u < t ∧ ∃ iv ∈ l.closed, iv.stop = u := by
    intro u hu
    obtain ⟨iv, hiv, rfl⟩ := Option.map_eq_some_iff.1 hu
    split at hiv
    · cases hiv
    · rcases hbefore with h0 | hbefore
      · exact absurd h0 ‹_›
      · simp only [Timeline.closedAt, hiv, decide_eq_true_eq] at hbefore
        exact ⟨hbefore, iv, Array.mem_of_getElem? hiv, rfl⟩
  cases hnext : (l.closed[i]?).filter fun iv => iv.start ≤ t with
  | some iv =>
    obtain ⟨hi, hstarts⟩ := Option.filter_eq_some_iff.1 hnext
    have hends : t ≤ iv.stop := by
      rcases hhere with hend | hhere
      · rw [hend, Array.getElem?_eq_none (Nat.le_refl _)] at hi
        cases hi
      · simpa [Timeline.closedAt, hi] using hhere
    exact .inl ⟨iv, Array.mem_of_getElem? hi, by simp only [hnext],
      of_decide_eq_true hstarts, hends⟩
  | none =>
    cases hongoing : l.ongoingBy t with
    | some o =>
      obtain ⟨ho, hstarts⟩ := Option.filter_eq_some_iff.1 hongoing
      exact .inr (.inl ⟨o, ho, by simp only [hnext], of_decide_eq_true hstarts⟩)
    | none =>
      refine .inr (.inr ⟨_, _, by simp only [hnext]; rfl, hstop, fun u hu => ?_⟩)
      rcases Option.or_eq_some_iff.1 hu with hu | ⟨-, hu⟩
      · obtain ⟨iv, hiv, rfl⟩ := Option.map_eq_some_iff.1 hu
        have hlate := Option.filter_eq_none_iff.1 hnext iv hiv
        exact ⟨by simpa using hlate, .inl ⟨iv, Array.mem_of_getElem? hiv, rfl⟩⟩
      · obtain ⟨o, ho, rfl⟩ := Option.map_eq_some_iff.1 hu
        have hlate := Option.filter_eq_none_iff.1 hongoing o ho
        exact ⟨by simpa using hlate, .inr ⟨o, ho, rfl⟩⟩

/-- A gap before `t` begins no later, and one after it ends no earlier. -/
theorem gapAt_eq (ht : t.InRange) {stop start : Option Time}
    (hstop : ∀ u, stop = some u → u < t ∧ u.InRange)
    (hstart : ∀ u, start = some u → t < u ∧ u.InRange) :
    gapAt s q t stop start = .ok (s.gapAt q t stop start) ∧ t ≤ (s.gapAt q t stop start).stop := by
  have hfirst : (stop.elim (pure (s.start.getD t)) fun stop => calculated (stop + 1)) =
      .ok (stop.elim (s.start.getD t) (· + 1)) := by
    cases stop with
    | none => rfl
    | some u =>
      obtain ⟨hlt, hrange⟩ := hstop u rfl
      refine calculated_of_inRange ?_
      unfold Time.InRange at *
      lia
  have hlast : (start.elim (pure (max (s.stop.getD t) t)) fun start => calculated (start - 1)) =
      .ok (start.elim (max (s.stop.getD t) t) (· - 1)) := by
    cases start with
    | none => rfl
    | some u =>
      obtain ⟨hlt, hrange⟩ := hstart u rfl
      refine calculated_of_inRange ?_
      unfold Time.InRange at *
      lia
  constructor
  · unfold gapAt
    rw [hfirst, hlast]
    rfl
  · unfold Store.gapAt
    cases start with
    | none => exact Int.le_max_right ..
    | some u =>
      obtain ⟨hlt, -⟩ := hstart u rfl
      simp only [Option.elim_some]
      lia

/-- While the store grows, its ongoing states are taken to go on. -/
theorem passes_presented (h : s.closed = false) (q : Quark) (o : Ongoing) (t u : Time) :
    s.passes (s.presented q o t) u = true := by
  unfold Store.passes Store.isOpenEnded Store.presented
  cases s.stop with
  | none => simp [h]
  | some stop => simp [h]

/-- **Looking up a time comes to an interval that passes it**, whatever the timeline has. -/
theorem intervalAt_runs (h : s.Readable) (hsearch : ∀ p size, Boundary p size (search p size))
    (hq : s.tree.contains q = true) (ht : t.InRange) :
    ∃ iv, intervalAt search s q t = .ok iv ∧ s.passes iv t = true ∧
      (search = partitionPoint → iv = s.intervalAt q t) := by
  have hinterval : intervalAt search s q t = found s q t (lookup search (s.timelineOf q) t) := by
    rw [intervalAt, fetch_timeline h hq]
    rfl
  have hplain : search = partitionPoint →
      (s.timelineOf q).lookup t = lookup search (s.timelineOf q) t := by
    rintro rfl
    rfl
  have hpasses : ∀ {iv : Interval}, t ≤ iv.stop → s.passes iv t = true := fun hends => by
    simp [Store.passes, hends]
  rw [hinterval]
  rcases lookup_cases hsearch (s.timelineOf q) t with
    ⟨iv, -, hlookup, -, hends⟩ | ⟨o, ho, hlookup, -⟩ | ⟨stop, start, hlookup, hstop, hstart⟩
  · rw [hlookup] at hplain ⊢
    refine ⟨iv, rfl, hpasses hends, fun hexact => ?_⟩
    rw [Store.intervalAt, hplain hexact]
  · have hgrows : s.closed = false := by
      rw [← Bool.not_eq_true]
      intro hc
      rw [h.settled hc q] at ho
      cases ho
    rw [hlookup] at hplain ⊢
    refine ⟨_, rfl, passes_presented hgrows q o t t, fun hexact => ?_⟩
    rw [Store.intervalAt, hplain hexact]
  · have hranged := h.timelines q
    have hbefore : ∀ u, stop = some u → u < t ∧ u.InRange := by
      intro u hu
      obtain ⟨hlt, iv, hiv, rfl⟩ := hstop u hu
      exact ⟨hlt, (hranged.closed_inRange iv hiv).2⟩
    have hafter : ∀ u, start = some u → t < u ∧ u.InRange := by
      intro u hu
      obtain ⟨hlt, ⟨iv, hiv, rfl⟩ | ⟨o, ho, rfl⟩⟩ := hstart u hu
      · exact ⟨hlt, (hranged.closed_inRange iv hiv).1⟩
      · exact ⟨hlt, hranged.ongoing_inRange o ho⟩
    obtain ⟨hgap, hends⟩ := gapAt_eq (s := s) (q := q) ht hbefore hafter
    rw [hlookup] at hplain ⊢
    refine ⟨_, hgap, hpasses hends, fun hexact => ?_⟩
    rw [Store.intervalAt, hplain hexact]

theorem Runs.intervalAt (h : s.Readable) (hsearch : ∀ p size, Boundary p size (search p size))
    (hq : s.tree.contains q = true) (ht : t.InRange) :
    Runs (search = partitionPoint) (Guarded.intervalAt search s q t) (s.intervalAt q t) := by
  obtain ⟨iv, hiv, -, hexact⟩ := intervalAt_runs h hsearch hq ht
  exact ⟨iv, hiv, hexact⟩

/-- Only what lies between two boundaries in order is cut out. -/
theorem closedWithin_runs (hsearch : ∀ p size, Boundary p size (search p size)) (l : Timeline)
    (start stop : Time) :
    Runs (search = partitionPoint) (closedWithin search l start stop)
      (l.closedWithin start stop) := by
  have hplain : search = partitionPoint → l.closedWithin start stop =
      (l.closed.extract (search (l.closedAt fun iv => iv.stop < start) l.closed.size)
        (search (l.closedAt fun iv => iv.start ≤ stop) l.closed.size)).toList := by
    rintro rfl
    rfl
  unfold closedWithin
  have hle := (hsearch (l.closedAt fun iv => iv.start ≤ stop) l.closed.size).le
  generalize search (l.closedAt fun iv => iv.stop < start) l.closed.size = first at hplain
  generalize search (l.closedAt fun iv => iv.start ≤ stop) l.closed.size = last at hplain hle
  simp only
  split
  · rename_i hempty
    refine ⟨[], rfl, fun hexact => ?_⟩
    rw [hplain hexact, Array.extract_empty_of_stop_le_start hempty]
  · exact ⟨_, slice_of_le (by omega) hle, fun hexact => (hplain hexact).symm⟩

/-! ## Sweeps -/

/-- Skipping gets past the times that it is to skip, and no further. -/
theorem skip_eq (ts : Array Time) (p : Time → Bool) (i : Nat) :
    ∃ j, skip ts p i = .ok j ∧ ts.toList.drop j = (ts.toList.drop i).dropWhile p ∧ i ≤ j ∧
      ∀ h : i < ts.size, p ts[i] = true → i < j := by
  induction hleft : ts.size - i generalizing i with
  | zero =>
    have hend : ¬ i < ts.size := by omega
    refine ⟨i, ?_, by simp [drop_eq_nil hend], Nat.le_refl i, fun h => absurd h hend⟩
    rw [skip, if_neg hend]
    rfl
  | succ n ih =>
    have hlt : i < ts.size := by omega
    have hskip : skip ts p i = if p ts[i] then skip ts p (i + 1) else .ok i := by
      rw [skip, if_pos hlt, fetch_of_lt hlt]
      rfl
    rw [hskip, drop_eq_cons hlt]
    by_cases hp : p ts[i] = true
    · obtain ⟨j, hj, hrest, hle, -⟩ := ih (i + 1) (by omega)
      refine ⟨j, by rw [if_pos hp, hj], ?_, by omega, fun _ _ => by omega⟩
      rw [hrest, List.dropWhile_cons_of_pos hp]
    · refine ⟨i, by rw [if_neg hp], ?_, Nat.le_refl i, fun _ h => absurd h hp⟩
      rw [drop_eq_cons hlt, List.dropWhile_cons_of_neg hp]

/-- **A sweep gets past a time in each round**, so it ends after as many rounds as there are
times. -/
theorem sweep_runs (h : s.Readable) (hsearch : ∀ p size, Boundary p size (search p size))
    (hq : s.tree.contains q = true) {ts : Array Time} (hts : ∀ t ∈ ts, t.InRange) :
    ∀ {fuel i : Nat}, ts.size ≤ i + fuel →
      Runs (search = partitionPoint) (sweep search s q ts fuel i)
        (s.sweep q fuel (ts.toList.drop i))
  | 0, i, hfuel => by
    have hend : ¬ i < ts.size := by omega
    rw [sweep, if_neg hend]
    exact runs_ok _
  | fuel + 1, i, hfuel => by
    by_cases hlt : i < ts.size
    · obtain ⟨iv, hiv, hpass, hexact⟩ :=
        intervalAt_runs h hsearch hq (hts _ (Array.getElem_mem hlt))
      obtain ⟨j, hj, hrest, -, hprogress⟩ := skip_eq ts (s.passes iv) i
      have hij := hprogress hlt hpass
      have hsweep : sweep search s q ts (fuel + 1) i = sweep search s q ts fuel j >>= fun ivs =>
          .ok (iv :: ivs) := by
        rw [sweep, if_pos hlt, fetch_of_lt hlt]
        change (intervalAt search s q ts[i] >>= fun iv => skip ts (s.passes iv) i >>= fun next =>
          if next ≤ i then .error .stuck else sweep search s q ts fuel next >>= fun ivs =>
            .ok (iv :: ivs)) = _
        rw [hiv]
        change (skip ts (s.passes iv) i >>= fun next =>
          if next ≤ i then .error .stuck else sweep search s q ts fuel next >>= fun ivs =>
            .ok (iv :: ivs)) = _
        rw [hj]
        exact if_neg (Nat.not_le.2 hij)
      rw [drop_eq_cons hlt, List.dropWhile_cons_of_pos hpass] at hrest
      have hleft : ts.size ≤ j + fuel := by omega
      obtain ⟨ivs, hivs, hsame⟩ := sweep_runs h hsearch hq hts hleft
      refine ⟨iv :: ivs, by rw [hsweep, hivs]; rfl, fun he => ?_⟩
      rw [drop_eq_cons hlt, Store.sweep, hsame he, hrest, hexact he]
      rfl
    · rw [sweep, if_neg hlt, drop_eq_nil hlt]
      exact runs_ok _

/-! ## Queries -/

theorem contains_of_check (h : (plain (s.checkQuark q)).run = .ok (.ok ())) :
    s.tree.contains q = true :=
  Store.checkQuark_ok_iff.1 (Except.ok.inj h)

theorem contains_of_checks :
    ∀ {qs : List Quark}, (qs.forM fun q => plain (s.checkQuark q)).run = .ok (.ok ()) →
    ∀ q ∈ qs, s.tree.contains q = true
  | [], _, _, hq => by cases hq
  | p :: qs, h, q, hq => by
    change (plain (s.checkQuark p) >>= fun _ => qs.forM fun q =>
      plain (s.checkQuark q)).run = _ at h
    cases hp : s.checkQuark p with
    | error e =>
      rw [hp] at h
      cases Except.ok.inj h
    | ok u =>
      rw [hp] at h
      rcases List.mem_cons.1 hq with rfl | hq
      · exact Store.checkQuark_ok_iff.1 hp
      · exact contains_of_checks h q hq

theorem single_runs (h : s.Readable) (hsearch : ∀ p size, Boundary p size (search p size))
    (ht : t.InRange) (q : Quark) :
    Runs (search = partitionPoint) (single search t q s).run (Store.single t q s) := by
  refine (runs_plain _).andThen fun _ hq => (runs_plain _).andThen fun _ _ => ?_
  exact (Runs.intervalAt h hsearch (contains_of_check hq) ht).lift

theorem full_runs (h : s.Readable) (hsearch : ∀ p size, Boundary p size (search p size))
    (ht : t.InRange) :
    Runs (search = partitionPoint) (full search t s).run (Store.full t s) := by
  refine (runs_plain _).andThen fun _ _ => ?_
  have hall : Runs (search = partitionPoint)
    ((List.range s.tree.size).mapM fun i => intervalAt search s ⟨i⟩ t)
      ((List.range s.tree.size).map fun i => s.intervalAt ⟨i⟩ t) := by
    refine Runs.mapM fun i hi => ?_
    have hcontains : s.tree.contains ⟨i⟩ = true := decide_eq_true (List.mem_range.1 hi)
    exact Runs.intervalAt h hsearch hcontains ht
  exact hall.lift

theorem query2d_runs (h : s.Readable) (hsearch : ∀ p size, Boundary p size (search p size))
    (qs : List Quark) (hts : ∀ t ∈ ts, t.InRange) :
    Runs (search = partitionPoint) (query2d search qs ts s).run (Store.query2d qs ts s) := by
  have hcheck : Runs (search = partitionPoint)
      (qs.forM fun q => plain (s.checkQuark q)).run (qs.forM s.checkQuark) :=
    Runs.forM fun q _ => runs_plain _
  refine hcheck.andThen fun _ hchecked => ?_
  cases hstart : s.start with
  | none => exact runs_ok _
  | some start =>
    have hasked : ∀ t ∈ (s.answerable start ts).toArray, t.InRange := fun t ht =>
      hts t (Store.mem_answerable.1 (by simpa using ht)).1
    have hall : Runs (search = partitionPoint)
      (sweepAll search s qs (s.answerable start ts).toArray)
        (qs.map fun q => s.swept q (s.answerable start ts)) :=
      Runs.mapM fun q hq =>
        sweep_runs h hsearch (contains_of_checks hchecked q hq) hasked
        (Nat.le_of_eq (Nat.zero_add _).symm)
    change Runs _ (liftM (sweepAll search s qs (s.answerable start ts).toArray) >>= fun ivs =>
      pure ivs.flatten : Checked _).run
      (.ok (qs.flatMap fun q => s.swept q (s.answerable start ts)))
    rw [List.flatMap_def]
    exact hall.lift.andThen fun ivs _ => runs_ok _

theorem range_runs (hsearch : ∀ p size, Boundary p size (search p size)) (q : Quark)
    (start stop : Time) :
    Runs (search = partitionPoint) (range search q start stop s).run (Store.range q start stop s) :=
  (runs_plain _).andThen fun l _ => (closedWithin_runs hsearch l start stop).lift.andThen fun _ _ =>
    runs_ok _

theorem rangeOfAll_runs (hsearch : ∀ p size, Boundary p size (search p size)) (qs : List Quark)
    (start stop : Time) :
    Runs (search = partitionPoint) (rangeOfAll search qs start stop s).run
      (Store.rangeOfAll qs start stop s) :=
  (Runs.mapChecked fun q _ => range_runs hsearch q start stop).andThen fun _ _ => runs_ok _

/-- What is found by its name is an attribute of the tree. -/
theorem contains_of_find? (h : s.tree.Linked) {base : Quark} {names : List String}
    (hfind : s.tree.find? base names = some q) : s.tree.contains q = true := by
  unfold Tree.find? at hfind
  split at hfind
  · exact h.contains_descend names ‹_› hfind
  · cases hfind

theorem top_runs (h : s.Readable) (hsearch : ∀ p size, Boundary p size (search p size))
    (ht : t.InRange) (q : Quark) :
    Runs (search = partitionPoint) (top search t q s).run (Store.top t q s) := by
  refine (single_runs h hsearch ht q).andThen fun iv _ => ?_
  by_cases hdepth : iv.value.asLong.getD 0 ≤ 0
  · simp only [hdepth, ↓reduceIte]
    exact runs_ok _
  · simp only [hdepth, ↓reduceIte, find_eq h.grown.toLinked]
    cases hfind : s.tree.find? q (Store.slotName (iv.value.asLong.getD 0)) with
    | none => exact runs_ok _
    | some child =>
      have hchild := Runs.intervalAt h hsearch (contains_of_find? h.grown.toLinked hfind) ht
      exact hchild.lift.andThen
        (f := fun iv => pure (some iv)) (g := fun iv => .ok (some iv)) fun _ _ => runs_ok _

theorem peek_runs {exact : Prop} (h : s.Readable) (q : Quark) :
    Runs exact (peek q s).run (Store.peek q s) := by
  refine (runs_plain _).andThen fun _ hq => ?_
  rw [find_eq h.grown.toLinked]
  cases hfind : s.tree.find? q (Store.slotName 1) with
  | none => exact runs_ok _
  | some slot =>
    have hfetch := fetch_timeline h (contains_of_find? h.grown.toLinked hfind)
    exact (runs_of_eq hfetch).lift.andThen
      (f := fun l => pure l.value) (g := fun l => .ok l.value) fun _ _ => runs_ok _

end

end Guarded

end StateHistory
