import StateHistory.Proofs.Trace.Loss

/-!
# When a merge loses no event

A merge should hand out each event of its sources once before it first gives nothing, and give
nothing only when all sources have ended (`Lossless`). It does if and only if no source gives a
second event while rounds of asking all sources fail, and no source fails once a round has gone
through (`lossless_iff_settles`). In terms of what the sources hand out (`Tolerable`): the last
source that fails does so only before its first event, and the sources before it have at most one
event each.
-/

namespace StateHistory

namespace Feed

def events (feed : Feed) : List Event := feed.filterMap Except.toOption

/-- Does the feed fail only before its first event? -/
def failsFirst (feed : Feed) : Bool := !fails (feed.dropWhile isFailure)

end Feed

/-- Feeds that can be merged without loss: a source with a failing one behind it has at most one
event, any other fails only before its first event. -/
def Tolerable : List Feed → Bool
  | [] => true
  | feed :: later =>
    (if later.any Feed.fails then feed.events.length ≤ 1 else feed.failsFirst) && Tolerable later

/-- Each event is handed out once before the merge first gives nothing, and it does so only when all
sources have ended. -/
def Lossless (sources : List Source) : Prop :=
  ∀ rs out, (Merge.ofSources sources).RunsOut rs out →
    (∀ s ∈ out.sources, s.reads = []) ∧
    (rs.filterMap Read.event?).Perm (sources.flatMap Source.events)

/-- When a round first goes through, no source has given more than one event, and none will fail any
more. -/
def Settles (sources : List Source) : Prop :=
  ∀ i, ((settled sources).getD i ⟨[]⟩).NeverFails ∧
    (sources.getD i ⟨[]⟩).events.length ≤ ((settled sources).getD i ⟨[]⟩).events.length + 1

section
variable {m : Merge} {sources later : List Source} {s : Source} {feed : Feed} {feeds : List Feed}
  {k : Nat}

/-! ## Settling without loss -/

theorem flatMap_events (sources : List Source) :
    sources.flatMap Source.events = (List.range sources.length).flatMap fun i =>
      (sources.getD i ⟨[]⟩).events := by
  rw [List.flatMap_def, List.flatMap_def]
  refine congrArg _ (List.ext_getElem (by simp) fun i hi _ => ?_)
  have hi : i < sources.length := by simpa using hi
  simp [hi]

/-- The merge of some sources when a round has first gone through. -/
structure Primed (sources : List Source) (m : Merge) : Prop where
  running : m.Running
  source_eq : ∀ i, m.source i = (settled sources).getD i ⟨[]⟩
  kept : m.Kept sources
  drained : ∀ i, m.Drained i
  runs : ∀ rs out, (Merge.ofSources sources).RunsOut rs out →
    ∃ rs', m.RunsOut rs' out ∧ rs.filterMap Read.event? = rs'.filterMap Read.event?

theorem exists_primed (hends : ∀ s ∈ sources, s.Ends) : ∃ m, Primed sources m := by
  obtain ⟨m, hrunning, hsources, hkept, hdrained, hruns⟩ := (Merge.kept_ofSources hends).prime rfl
  refine ⟨m, hrunning, fun i => ?_, hkept, hdrained, hruns⟩
  rw [Merge.source, hsources]
  rfl

theorem Merge.length_held (m : Merge) (i : Nat) :
    (m.held i).length = (m.head i).toList.length + (m.source i).events.length := by
  simp [Merge.held]

theorem Primed.length_held_le (hm : Primed sources m) (i : Nat) :
    (m.held i).length ≤ (sources.getD i ⟨[]⟩).events.length :=
  (hm.kept.held i).length_le

theorem Primed.total_le (hm : Primed sources m) :
    m.total ≤ (sources.flatMap Source.events).length := by
  rw [flatMap_events, Merge.total, hm.kept.size]
  exact length_flatMap_range_le hm.length_held_le _

/-- If as many events come out as went in, no event was lost while rounds failed. -/
theorem Primed.le_length_held (hm : Primed sources m)
    (htotal : (sources.flatMap Source.events).length ≤ m.total) (i : Nat) :
    (sources.getD i ⟨[]⟩).events.length ≤ (m.held i).length := by
  by_cases hi : i < sources.length
  · refine Nat.le_of_not_lt fun hlt => ?_
    have hless := length_flatMap_range_lt hm.length_held_le hi hlt
    rw [flatMap_events, Merge.total, hm.kept.size] at htotal
    omega
  · simp [Source.events, eventsIn, Nat.le_of_not_lt hi]

theorem Primed.settles (hm : Primed sources m) (hlossless : Lossless sources) :
    Settles sources := by
  obtain ⟨rs, out, hrun⟩ := (Merge.ofSources sources).exists_runsOut
  obtain ⟨hout, hperm⟩ := hlossless rs out hrun
  obtain ⟨rs', hrun', hsame⟩ := hm.runs rs out hrun
  have hcount : (rs'.filterMap Read.event?).length = (sources.flatMap Source.events).length :=
    hsame ▸ hperm.length_eq
  have hall := hm.le_length_held (hcount ▸ hrun'.length_le hm.running)
  have hlined : m.Lined := by
    refine hm.kept.lined.resolve_right ?_
    rintro ⟨i, hlt⟩
    exact absurd (hall i) (Nat.not_le_of_lt hlt)
  intro i
  rw [← hm.source_eq]
  constructor
  · refine Classical.byContradiction fun hfails => ?_
    have hlt := hrun'.length_lt hm.running hlined hfails hout
    have hge := hm.total_le
    omega
  · have hone : (m.head i).toList.length ≤ 1 := by cases m.head i <;> simp
    have hgiven := hall i
    rw [m.length_held] at hgiven
    omega

/-- If no source has given two events, all events are at hand or still to come. -/
theorem Primed.held_eq (hm : Primed sources m) (hsettles : Settles sources) (i : Nat) :
    m.held i = (sources.getD i ⟨[]⟩).events := by
  have hfew := (hsettles i).2
  rw [← hm.source_eq] at hfew
  cases hhead : m.head i with
  | none =>
    simp only [Merge.held, hhead]
    exact hm.kept.fresh i hhead
  | some e =>
    have hlength := m.length_held i
    rw [hhead, Option.toList_some, List.length_singleton] at hlength
    exact (hm.kept.held i).eq_of_length_le (by omega)

theorem Primed.lossless (hm : Primed sources m) (hsettles : Settles sources) :
    Lossless sources := by
  have hheld := hm.held_eq hsettles
  have hlined : m.Lined := by
    refine hm.kept.lined.resolve_right ?_
    rintro ⟨i, hlt⟩
    exact absurd (congrArg List.length (hheld i)) (Nat.ne_of_lt hlt)
  have hready : m.Ready := ⟨hlined, hm.running.primed, fun i => hm.source_eq i ▸ (hsettles i).1⟩
  have hbehind : ∀ i, (m.source i).behind (m.head i) = m.held i := by
    intro i
    cases hhead : m.head i with
    | none => simp [Merge.held, hhead, Source.behind, Source.events_of_ended (hm.drained i hhead)]
    | some e => simp [Merge.held, hhead, Source.behind]
  have hpending : m.pending = sources.map Source.events := by
    refine List.ext_getElem? fun i => ?_
    rw [hlined.getElem?_pending, hm.kept.size, List.getElem?_map, hbehind, hheld]
    split
    next hi => simp [hi]
    next hi => simp [Nat.le_of_not_lt hi]
  intro rs out hrun
  obtain ⟨rs', hrun', hsame⟩ := hm.runs rs out hrun
  obtain ⟨hout, hperm⟩ := hrun'.perm hready hm.running.ends hm.drained
  rw [hpending, ← List.flatMap_def, ← hsame] at hperm
  exact ⟨hout, hperm⟩

theorem lossless_iff_settles (hends : ∀ s ∈ sources, s.Ends) :
    Lossless sources ↔ Settles sources := by
  obtain ⟨m, hm⟩ := exists_primed hends
  exact ⟨hm.settles, hm.lossless⟩

/-! ## What feeds leave behind -/

namespace Source

theorem past_ended (k : Nat) : (⟨[]⟩ : Source).past k = ⟨[]⟩ := by
  cases k <;> rfl

theorem failures_ended (k : Nat) : (⟨[]⟩ : Source).failures k = 0 := by
  cases k <;> rfl

theorem next_ofFeed_nil : (ofFeed []).next = (.nothing, ⟨[]⟩) := rfl

theorem next_ofFeed_cons (item : Except ReadFailure Event) (feed : Feed) :
    (ofFeed (item :: feed)).next = (Feed.read item, ofFeed feed) := rfl

theorem events_ofFeed (feed : Feed) : (ofFeed feed).events = feed.events := by
  induction feed with
  | nil => rfl
  | cons item feed ih =>
    cases item with
    | ok e => rw [events_of_event (next_ofFeed_cons _ _), ih]; rfl
    | error f => rw [events_of_failure (next_ofFeed_cons _ _), ih]; rfl

theorem length_events_past (feed : Feed) (k : Nat) :
    ((ofFeed feed).past k).events.length = feed.events.length - k := by
  induction feed generalizing k with
  | nil =>
    cases k with
    | zero => rfl
    | succ k =>
      rw [(past_of_next next_ofFeed_nil rfl).1, past_ended]
      simp [Feed.events, events, eventsIn]
  | cons item feed ih =>
    cases k with
    | zero => rw [past_zero, events_ofFeed, Nat.sub_zero]
    | succ k =>
      cases item with
      | ok e =>
        rw [(past_of_next (next_ofFeed_cons _ _) rfl).1, ih]
        simp [Feed.events, Except.toOption]
      | error f =>
        rw [(past_of_failed (next_ofFeed_cons _ _) rfl).1, ih]
        rfl

theorem ended_past (h : feed.events.length < k) : ((ofFeed feed).past k).reads = [] := by
  induction feed generalizing k with
  | nil =>
    cases k with
    | zero => cases h
    | succ k => rw [(past_of_next next_ofFeed_nil rfl).1, past_ended]
  | cons item feed ih =>
    cases k with
    | zero => cases h
    | succ k =>
      cases item with
      | ok e =>
        rw [(past_of_next (next_ofFeed_cons _ _) rfl).1]
        exact ih (by simpa [Feed.events, Except.toOption] using h)
      | error f =>
        rw [(past_of_failed (next_ofFeed_cons _ _) rfl).1]
        exact ih h

theorem neverFails_ofFeed : (ofFeed feed).NeverFails ↔ feed.fails = false := by
  have hread : ∀ item, (Feed.read item).failed = Feed.isFailure item := by
    intro item
    cases item <;> rfl
  have hend : Read.nothing.failed = false := rfl
  simp [NeverFails, ofFeed, Feed.fails, hread, hend, or_imp, forall_and]

/-- After one read that does not fail a feed fails no more if it fails only before its first
event. -/
theorem neverFails_past_one : ((ofFeed feed).past 1).NeverFails ↔ feed.failsFirst = true := by
  induction feed with
  | nil =>
    rw [(past_of_next next_ofFeed_nil rfl).1, past_ended]
    exact iff_of_true (neverFails_of_ended rfl) rfl
  | cons item feed ih =>
    cases item with
    | ok e =>
      rw [(past_of_next (next_ofFeed_cons _ _) rfl).1, past_zero, neverFails_ofFeed]
      simp [Feed.failsFirst, Feed.fails, Feed.isFailure]
    | error f =>
      rw [(past_of_failed (next_ofFeed_cons _ _) rfl).1, ih]
      rfl

theorem failures_of_calm (h : feed.fails = false) (k : Nat) : (ofFeed feed).failures k = 0 := by
  induction feed generalizing k with
  | nil =>
    cases k with
    | zero => rfl
    | succ k => rw [(past_of_next next_ofFeed_nil rfl).2, failures_ended]
  | cons item feed ih =>
    cases k with
    | zero => rfl
    | succ k =>
      cases item with
      | ok e =>
        rw [(past_of_next (next_ofFeed_cons _ _) rfl).2]
        exact ih (by simpa [Feed.fails, Feed.isFailure] using h) k
      | error f => simp [Feed.fails, Feed.isFailure] at h

/-- A feed that fails neither before its first event nor after it does not fail. -/
theorem calm_of_failures (hbefore : (ofFeed feed).failures 1 = 0)
    (hafter : ((ofFeed feed).past 1).NeverFails) :
    feed.fails = false := by
  cases feed with
  | nil => rfl
  | cons item feed =>
    cases item with
    | ok e =>
      rw [(past_of_next (next_ofFeed_cons _ _) rfl).1, past_zero, neverFails_ofFeed] at hafter
      simpa [Feed.fails, Feed.isFailure] using hafter
    | error f =>
      rw [(past_of_failed (next_ofFeed_cons _ _) rfl).2] at hbefore
      cases hbefore

end Source

/-! ## Which feeds settle -/

theorem settles_cons : Settles (s :: later) ↔
    ((s.past (failedRounds later + 1)).NeverFails ∧
      s.events.length ≤ (s.past (failedRounds later + 1)).events.length + 1) ∧ Settles later := by
  constructor
  · exact fun h => ⟨h 0, fun i => h (i + 1)⟩
  · rintro ⟨hfirst, hlater⟩ (_ | i)
    · exact hfirst
    · exact hlater i

theorem failedRounds_eq_zero (h : feeds.any Feed.fails = false) :
    failedRounds (feeds.map Source.ofFeed) = 0 := by
  induction feeds with
  | nil => rfl
  | cons feed feeds ih =>
    obtain ⟨hfeed, hrest⟩ : feed.fails = false ∧ feeds.any Feed.fails = false := by simpa using h
    rw [List.map_cons, failedRounds, ih hrest, Source.failures_of_calm hfeed]

theorem calm_of_failedRounds (hsettles : Settles (feeds.map Source.ofFeed))
    (h : failedRounds (feeds.map Source.ofFeed) = 0) : feeds.any Feed.fails = false := by
  induction feeds with
  | nil => rfl
  | cons feed feeds ih =>
    rw [List.map_cons] at hsettles h
    obtain ⟨hfirst, hlater⟩ := settles_cons.1 hsettles
    obtain ⟨hzero, hnone⟩ := Nat.add_eq_zero_iff.1 h
    rw [hzero] at hfirst hnone
    have hfeed := Source.calm_of_failures hnone hfirst.1
    simp [hfeed, ih hlater hzero]

theorem settles_iff_tolerable (feeds : List Feed) :
    Settles (feeds.map Source.ofFeed) ↔ Tolerable feeds = true := by
  induction feeds with
  | nil => exact iff_of_true (fun i => by simp [settled, Source.neverFails_of_ended]) rfl
  | cons feed feeds ih =>
    rw [List.map_cons, settles_cons, Tolerable, Bool.and_eq_true, ← ih]
    refine and_congr_left fun hsettles => ?_
    rw [Source.length_events_past, Source.events_ofFeed]
    cases hfails : feeds.any Feed.fails with
    | false =>
      rw [failedRounds_eq_zero hfails, Nat.zero_add, Source.neverFails_past_one]
      simp only [Bool.false_eq_true, ↓reduceIte]
      exact and_iff_left (by omega)
    | true =>
      have hrounds : failedRounds (feeds.map Source.ofFeed) ≠ 0 := by
        intro hzero
        rw [calm_of_failedRounds hsettles hzero] at hfails
        cases hfails
      simp only [↓reduceIte, decide_eq_true_eq]
      constructor
      · rintro ⟨-, hfew⟩
        omega
      · intro hone
        exact ⟨Source.neverFails_of_ended (Source.ended_past (by omega)), by omega⟩

end

/-- **When a merge of failing sources loses no event.** However often its sources fail, a merge that
is called again and again comes to give nothing. By then it has handed out each event once, and all
sources have ended, if and only if the last source that fails does so only before its first event,
and the sources before it have at most one event each. -/
theorem lossless_iff (feeds : List Feed) :
    (∃ rs out, (Merge.ofSources (feeds.map Source.ofFeed)).RunsOut rs out) ∧
    (Lossless (feeds.map Source.ofFeed) ↔ Tolerable feeds = true) := by
  refine ⟨Merge.exists_runsOut _, ?_⟩
  rw [← settles_iff_tolerable]
  refine lossless_iff_settles fun s hs => ?_
  obtain ⟨feed, -, rfl⟩ := List.mem_map.1 hs
  exact Source.ends_ofFeed feed

/-- A source that fails before its first event, behind one with a single event. -/
example :
    Tolerable [[.ok ⟨5, "a", []⟩], [.error default, .ok ⟨1, "b", []⟩, .ok ⟨2, "c", []⟩], []] =
      true := rfl

/-- A trace whose second line is broken. -/
def brokenLine : Source :=
  .ofFeed [.ok ⟨1, "a", []⟩, .error (.invalidEvent "trace" 2), .ok ⟨2, "b", []⟩]

/-- Neither event comes out, and nothing is given before the source has ended. -/
theorem brokenLine_lost :
    (Source.merged [brokenLine]).take 4 =
      [.failure (.invalidEvent "trace" 2), .nothing, .nothing, .nothing] ∧
    ¬Lossless [brokenLine] := by
  refine ⟨rfl, fun h => ?_⟩
  obtain ⟨hended, -⟩ := h _ _ (.call rfl (fun h => nomatch h) (.stop rfl))
  have := hended _ (List.mem_cons_self ..)
  cases this

end StateHistory
