import StateHistory.Proofs.Trace.Interleaving
import StateHistory.Proofs.Trace.Turns

/-!
# Merging sources that do not fail

A merge whose turns are lined up and whose sources no longer fail hands out the earliest event at
hand and puts the next one of that source in its place (`Ready.next`). So it merges the events that
are still to come (`Ready.run`), and a merge of sources that never fail is an interleaving of their
events, in order of time if each source is: `merged_of_neverFails`.
-/

namespace StateHistory

/-! ## The events of a source -/

/-- The events of some reads, up to the first read that gives nothing. -/
def eventsIn : List Read → List Event
  | .event e :: rest => e :: eventsIn rest
  | .failure _ :: rest => eventsIn rest
  | _ => []

namespace Source

/-- The events that a source hands out before it first gives nothing. -/
def events (s : Source) : List Event := eventsIn s.reads

/-- No read of the source fails. -/
def NeverFails (s : Source) : Prop := ∀ r ∈ s.reads, r.failed = false

/-- What comes of a source with an event at hand; with none at hand it has come to its end. -/
def behind (s : Source) : Option Event → List Event
  | some e => e :: s.events
  | none => []

section
variable {s s' : Source} {r : Read} {e : Event} {f : ReadFailure}

theorem events_of_event (h : s.next = (.event e, s')) : s.events = e :: s'.events := by
  obtain ⟨_ | ⟨r, rest⟩⟩ := s <;> cases h
  rfl

theorem events_of_failure (h : s.next = (.failure f, s')) : s.events = s'.events := by
  obtain ⟨_ | ⟨r, rest⟩⟩ := s <;> cases h
  rfl

theorem events_of_nothing (h : s.next = (.nothing, s')) : s.events = [] := by
  obtain ⟨_ | ⟨r, rest⟩⟩ := s <;> cases h <;> rfl

/-- Asking a source puts its first event at hand. -/
theorem behind_next (h : s.next = (r, s')) (hr : r.failed = false) :
    s'.behind r.event? = s.events := by
  cases r with
  | event e => exact (events_of_event h).symm
  | nothing => exact (events_of_nothing h).symm
  | failure f => cases hr

theorem NeverFails.next (hs : s.NeverFails) (h : s.next = (r, s')) :
    r.failed = false ∧ s'.NeverFails := by
  obtain ⟨_ | ⟨_, rest⟩⟩ := s <;> cases h
  · exact ⟨rfl, hs⟩
  · exact ⟨hs r (by simp), fun r' hr => hs r' (by simp [hr])⟩

theorem take_ofEvents_nil (n : Nat) : (ofEvents []).take n = List.replicate n .nothing := by
  induction n with
  | zero => rfl
  | succ n ih => exact congrArg _ ih

end

end Source

namespace Merge

/-- The events still to come, source by source, for a merge that has asked all its sources. -/
def pending (m : Merge) : List (List Event) :=
  List.zipWith (fun h s => s.behind h) m.heads m.sources

/-- All sources are asked, the turns are lined up, and nothing will fail. -/
structure Ready (m : Merge) : Prop where
  lined : m.Lined
  primed : m.primed = true
  calm : ∀ i, (m.source i).NeverFails

theorem zipWith_set {α β γ : Type} (g : α → β → γ) (a : α) (b : β) :
    ∀ (as : List α) (bs : List β) (i : Nat),
    List.zipWith g (as.set i a) (bs.set i b) = (List.zipWith g as bs).set i (g a b)
  | [], _, _ => by simp
  | _ :: _, [], _ => by simp
  | _ :: _, _ :: _, 0 => rfl
  | _ :: as, _ :: bs, i + 1 => congrArg _ (zipWith_set g a b as bs i)

section
variable {m m' : Merge} {i j n : Nat} {t : Time} {e : Event} {l : List Event}
  {turns : List (Time × Nat)}
variable {sources rest : List Source}

/-! ## One turn -/

theorem source_eq_or (m : Merge) (i : Nat) : m.source i ∈ m.sources ∨ m.source i = ⟨[]⟩ := by
  by_cases hi : i < m.sources.length
  · exact .inl (by simp [source, hi])
  · exact .inr (by simp [source, Nat.le_of_not_lt hi])

theorem neverFails_source (h : ∀ s ∈ m.sources, s.NeverFails) (i : Nat) :
    (m.source i).NeverFails := by
  rcases m.source_eq_or i with hmem | hnone
  · exact h _ hmem
  · rw [hnone]
    exact fun _ hr => nomatch hr

theorem Lined.getElem?_pending (hm : m.Lined) (i : Nat) :
    m.pending[i]? = if i < m.sources.length then some ((m.source i).behind (m.head i))
      else none := by
  rw [pending, List.getElem?_zipWith]
  by_cases hi : i < m.sources.length
  · have hi' : i < m.heads.length := hm.heads ▸ hi
    simp [head, source, hi, hi']
  · have hi' : m.heads.length ≤ i := hm.heads ▸ Nat.le_of_not_lt hi
    simp [hi, hi']

/-- The first events to come are those at hand. -/
theorem Lined.head_of_pending (hm : m.Lined) (h : m.pending[j]? = some l) (he : e ∈ l.head?) :
    m.head j = some e := by
  rw [hm.getElem?_pending] at h
  split at h
  next hj =>
    obtain rfl := Option.some.inj h
    cases hhead : m.head j with
    | none => simp [hhead, Source.behind] at he
    | some e' =>
      rw [hhead] at he
      exact congrArg some (Option.some.inj he)
  next => cases h

/-- The event whose turn it is comes first of all events to come, of several the one of the first
source. -/
theorem Lined.pending_split (hm : m.Lined) (hturns : m.turns = (t, i) :: turns)
    (he : m.head i = some e) (htime : e.timestamp = t) :
    ∃ before after, m.pending = before ++ (e :: (m.source i).events) :: after ∧ before.length = i ∧
      (∀ l ∈ before, ∀ e' ∈ l.head?, e.timestamp < e'.timestamp) ∧
      (∀ l ∈ after, ∀ e' ∈ l.head?, e.timestamp ≤ e'.timestamp) := by
  have hrow : m.pending[i]? = some (e :: (m.source i).events) := by
    rw [hm.getElem?_pending, if_pos (lt_of_head hm.heads he), he]
    rfl
  obtain ⟨hlt, hrow⟩ := List.getElem?_eq_some_iff.1 hrow
  have hfirst : ∀ j l e', i ≠ j → m.pending[j]? = some l → e' ∈ l.head? →
      Before (e.timestamp, i) (e'.timestamp, j) :=
    fun j l e' hj hl he' => htime ▸ hm.first hturns hj (hm.head_of_pending hl he')
  obtain ⟨before, after, hsplit, hlength⟩ :
      ∃ before after, m.pending = before ++ (e :: (m.source i).events) :: after ∧
        before.length = i :=
    ⟨m.pending.take i, m.pending.drop (i + 1), by rw [← hrow]; simp, by simp; omega⟩
  refine ⟨before, after, hsplit, hlength, fun l hl e' he' => ?_, fun l hl e' he' => ?_⟩
  · obtain ⟨j, hj, hget⟩ := List.mem_iff_getElem.1 hl
    have hrow : m.pending[j]? = some l := by
      rw [hsplit, List.getElem?_append_left hj, List.getElem?_eq_getElem hj, hget]
    rcases hfirst j l e' (by omega) hrow he' with hlt | ⟨-, hlt⟩
    · exact hlt
    · omega
  · obtain ⟨j, hj, hget⟩ := List.mem_iff_getElem.1 hl
    have hrow : m.pending[before.length + (j + 1)]? = some l := by
      simp [hsplit, hj, hget]
    rcases hfirst _ l e' (by omega) hrow he' with hlt | ⟨heq, -⟩
    · exact Int.le_of_lt hlt
    · exact Int.le_of_eq heq

/-- A turn hands out the earliest event to come, of several the one of the first source. -/
theorem Ready.next (hm : m.Ready) (hturns : m.turns = (t, i) :: turns) :
    ∃ before e l after, m.pending = before ++ (e :: l) :: after ∧
      (∀ l ∈ before, ∀ e' ∈ l.head?, e.timestamp < e'.timestamp) ∧
      (∀ l ∈ after, ∀ e' ∈ l.head?, e.timestamp ≤ e'.timestamp) ∧
      m.next.1 = .event e ∧ m.next.2.Ready ∧ m.next.2.pending = before ++ l :: after := by
  obtain ⟨e, he, htime, hread, hlined, hheads, hsources, hprimed⟩ := hm.lined.takeTurn hturns
  obtain ⟨-, hself, hother⟩ := hm.lined.takeTurn_at hturns
  obtain ⟨before, after, hsplit, hlength, hbefore, hafter⟩ := hm.lined.pending_split hturns he htime
  rcases hs : (m.source i).next with ⟨r, s⟩
  obtain ⟨hr, hcalm⟩ := (hm.calm i).next hs
  rw [hs] at hread hheads hsources hself
  rw [next_of_primed hm.primed]
  refine ⟨before, e, (m.source i).events, after, hsplit, hbefore, hafter, ?_,
    ⟨hlined, hprimed.trans hm.primed, ?_⟩, ?_⟩
  · rw [hread, Read.over_of_not_failed hr]
  · intro j
    by_cases hj : i = j
    · subst hj
      rw [hself]
      exact hcalm
    · rw [(hother j hj).2]
      exact hm.calm j
  · have hpending : m.takeTurn.2.pending = m.pending.set i (m.source i).events := by
      rw [pending, hheads, hsources, zipWith_set, Source.behind_next hs hr]
      rfl
    rw [hpending, hsplit, ← hlength]
    simp

theorem Ready.pending_of_nil (hm : m.Ready) (hturns : m.turns = []) : ∀ l ∈ m.pending, l = [] := by
  intro l hl
  obtain ⟨i, hi⟩ := List.mem_iff_getElem?.1 hl
  rw [hm.lined.getElem?_pending, hm.lined.head_of_nil hturns] at hi
  split at hi
  · exact (Option.some.inj hi).symm
  · cases hi

/-! ## A whole run -/

theorem take_of_spent (h : m.isSpent = true) (n : Nat) : m.take n = List.replicate n .nothing := by
  induction n with
  | zero => rfl
  | succ n ih => simp [take, next_of_spent h, ih, List.replicate_succ]

/-- A merge that is ready merges the events to come. -/
theorem Ready.run (hm : m.Ready) :
    ∃ es, Merges m.pending es ∧ ∀ n, m.take n = (Source.ofEvents es).take n := by
  induction hsize : m.measure using Nat.strongRecOn generalizing m with
  | _ size ih =>
  cases hturns : m.turns with
  | nil =>
    refine ⟨[], .nil (hm.pending_of_nil hturns), fun n => ?_⟩
    rw [take_of_spent (by simp [isSpent, hm.primed, hturns]), Source.take_ofEvents_nil]
  | cons turn turns =>
    obtain ⟨before, e, l, after, hsplit, hbefore, hafter, hread, hready, hpending⟩ := hm.next hturns
    have hlt : m.next.2.measure < size := hsize ▸ measure_next (by simp [isSpent, hturns])
    obtain ⟨es, hmerges, htake⟩ := ih _ hlt hready rfl
    rw [hpending] at hmerges
    refine ⟨e :: es, hsplit ▸ .cons hbefore hafter hmerges, fun n => ?_⟩
    cases n with
    | zero => rfl
    | succ n =>
      rw [take, hread, htake]
      rfl

/-! ## Asking all sources -/

/-- A round in which no source fails puts the first event of each at hand. -/
theorem Lined.round (hm : m.Lined) (done : List Source) (hs : List (Option Event))
    (hrest : ∀ s ∈ rest, s.NeverFails) (hsources : m.sources = done ++ rest)
    (hheads : m.heads = hs ++ rest.map fun _ => none) (hlen : hs.length = done.length) :
    ∃ m', m.refillAll (List.range' done.length rest.length) = (none, m') ∧ m'.Lined ∧
      m'.sources = done ++ rest.map (·.next.2) ∧ m'.heads = hs ++ rest.map (·.next.1.event?) := by
  induction rest generalizing m done hs with
  | nil => exact ⟨m, rfl, hm, hsources, hheads⟩
  | cons s rest ih =>
    have hsource : m.source done.length = s := by simp [source, hsources]
    have hnone : m.head done.length = none := by simp [head, hheads, ← hlen]
    rcases hr : m.refill done.length with ⟨f, m₁⟩
    have href := refilled hr
    have hok : f = none := by
      have hcalm : s.next.1.failed = false := ((hrest s (by simp)).next rfl).1
      have hfailed := href.failed_eq
      rw [hsource, hcalm] at hfailed
      simpa using hfailed.symm
    subst hok
    have hsources₁ : m₁.sources = (done ++ [s.next.2]) ++ rest := by
      rw [href.sources_eq, hsources, hsource]
      simp
    have hheads₁ : m₁.heads = (hs ++ [s.next.1.event?]) ++ rest.map fun _ => none := by
      rw [href.heads_eq hnone, hheads, hsource, ← hlen]
      simp
    obtain ⟨m', hround, hlined, hsources', hheads'⟩ := ih (href.lined hm hnone) _ _
      (fun s hs => hrest s (by simp [hs])) hsources₁ hheads₁ (by simp [hlen])
    refine ⟨m', ?_, hlined, by simp [hsources'], by simp [hheads']⟩
    simp only [List.length_cons, List.range'_succ, refillAll, hr]
    simpa using hround

/-- After a round without failures a call goes on as if all sources had been asked before. -/
theorem next_of_round (hprimed : m.primed = false)
    (h : m.refillAll (List.range m.sources.length) = (none, m')) :
    m.next = ({ m' with primed := true } : Merge).next := by
  unfold next
  rw [hprimed, h]
  rfl

theorem take_of_next_eq (h : m.next = m'.next) (n : Nat) : m.take n = m'.take n := by
  cases n with
  | zero => rfl
  | succ n => rw [take, take, h]

/-- The first call makes a merge ready, if no source ever fails. -/
theorem ready_ofSources (h : ∀ s ∈ sources, s.NeverFails) :
    ∃ m : Merge, (ofSources sources).next = m.next ∧ m.Ready ∧
      m.pending = sources.map Source.events := by
  obtain ⟨m, hround, hlined, hsources, hheads⟩ :=
    (lined_ofSources sources).round [] [] h rfl rfl rfl
  have hnext : (ofSources sources).next = ({ m with primed := true } : Merge).next :=
    next_of_round rfl (List.range_eq_range' ▸ hround)
  have hready : ({ m with primed := true } : Merge).Ready := by
    refine ⟨⟨hlined.heads, hlined.ordered, hlined.mem_iff⟩, rfl, neverFails_source fun s hs => ?_⟩
    have hs : s ∈ sources.map (·.next.2) := by simpa [hsources] using hs
    obtain ⟨s, hmem, rfl⟩ := List.mem_map.1 hs
    exact ((h s hmem).next rfl).2
  refine ⟨_, hnext, hready, ?_⟩
  have hpending : ({ m with primed := true } : Merge).pending =
      List.zipWith (fun h s => s.behind h) m.heads m.sources := rfl
  rw [hpending, hheads, hsources, List.nil_append, List.nil_append, List.zipWith_map,
    List.zipWith_self]
  exact List.map_congr_left fun s hs => Source.behind_next rfl ((h s hs).next rfl).1

end

end Merge

/-- **A merge of sources that never fail interleaves their events**, then gives nothing, forever. If
each source is in order of time, it is the stable sort by time of the events of all sources, one
source after the other. -/
theorem Source.merged_of_neverFails (sources : List Source) (h : ∀ s ∈ sources, s.NeverFails) :
    ∃ es, Interleaving (sources.map events) es ∧
      (∀ n, (merged sources).take n = (ofEvents es).take n) ∧
      ((∀ s ∈ sources, InOrder s.events) → es = sortByTime (sources.flatMap events)) := by
  obtain ⟨m, hnext, hready, hpending⟩ := Merge.ready_ofSources h
  obtain ⟨es, hmerges, htake⟩ := hready.run
  rw [hpending] at hmerges
  refine ⟨es, hmerges.interleaving, fun n => ?_, fun hordered => ?_⟩
  · rw [take_merged, Merge.take_of_next_eq hnext, htake]
  · have hls : ∀ l ∈ sources.map events, InOrder l := by
      intro l hl
      obtain ⟨s, hs, rfl⟩ := List.mem_map.1 hl
      exact hordered s hs
    rw [hmerges.eq_sortByTime hls, List.flatMap_def]

/-- Sources with events of the same time, across sources and inside one; the second has none. -/
def Source.tied : List Source :=
  [.ofEvents [⟨1, "a1", []⟩, ⟨5, "a5", []⟩], .ofEvents [],
    .ofEvents [⟨1, "b1", []⟩, ⟨1, "b1 again", []⟩, ⟨5, "b5", []⟩]]

theorem Source.merged_of_neverFails_tied :
    (∃ es, Interleaving (tied.map events) es ∧ (∀ n, (merged tied).take n = (ofEvents es).take n) ∧
      es = sortByTime (tied.flatMap events)) ∧
    (merged tied).take 6 = [.event ⟨1, "a1", []⟩, .event ⟨1, "b1", []⟩, .event ⟨1, "b1 again", []⟩,
      .event ⟨5, "a5", []⟩, .event ⟨5, "b5", []⟩, .nothing] := by
  have hcalm : ∀ s ∈ tied, s.NeverFails := by
    simp [tied, NeverFails, ofEvents, Read.failed]
  have hordered : ∀ s ∈ tied, InOrder s.events := by
    simp [tied, InOrder, events, eventsIn, ofEvents]
  obtain ⟨es, hinterleaving, htake, hsorted⟩ := merged_of_neverFails tied hcalm
  exact ⟨⟨es, hinterleaving, htake, hsorted hordered⟩, rfl⟩

end StateHistory
