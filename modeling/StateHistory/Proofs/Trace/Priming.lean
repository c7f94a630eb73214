import StateHistory.Proofs.Trace.Merged

/-!
# Asking all sources when some fail

A failure ends a round of asking all sources, and the next call starts the round anew. A source
takes part in a round only if those before it do not fail, so how many rounds fail, and what each
source has left when a round first goes through, can be told source by source from the last one on:
`failedRounds` and `settled`.

A source that is asked again while it has an event at hand hands out the next one over it, and the
one at hand is lost. `Kept` tells what is left of the events a merge started with.
-/

namespace StateHistory

/-- What a source hands out before its end: events, and failures between them. -/
abbrev Feed := List (Except ReadFailure Event)

namespace Feed

def read : Except ReadFailure Event → Read
  | .ok e => .event e
  | .error f => .failure f

def isFailure : Except ReadFailure Event → Bool
  | .ok _ => false
  | .error _ => true

def fails (feed : Feed) : Bool := feed.any isFailure

end Feed

/-- What is left of some reads after the first `k` that do not fail. -/
def readsPast : Nat → List Read → List Read
  | 0, rs => rs
  | _ + 1, [] => []
  | k + 1, .failure _ :: rs => readsPast (k + 1) rs
  | k + 1, _ :: rs => readsPast k rs

/-- The number of failures before the `k`-th read that does not fail. -/
def failuresBefore : Nat → List Read → Nat
  | 0, _ => 0
  | _ + 1, [] => 0
  | k + 1, .failure _ :: rs => failuresBefore (k + 1) rs + 1
  | k + 1, _ :: rs => failuresBefore k rs

namespace Source

/-- The source of a feed; it gives nothing at its end. -/
def ofFeed (feed : Feed) : Source := ⟨feed.map Feed.read ++ [.nothing]⟩

/-- The source gives nothing only at its end. -/
def Ends (s : Source) : Prop := s.reads = [] ∨ ∃ feed, s = ofFeed feed

/-- The source after `k` reads that do not fail. -/
def past (s : Source) (k : Nat) : Source := ⟨readsPast k s.reads⟩

def failures (s : Source) (k : Nat) : Nat := failuresBefore k s.reads

end Source

/-- How many rounds of asking all sources fail before one goes through. A source must answer in each
round in which a later source fails, and once more. -/
def failedRounds : List Source → Nat
  | [] => 0
  | s :: later => failedRounds later + s.failures (failedRounds later + 1)

/-- The sources once a round has gone through. -/
def settled : List Source → List Source
  | [] => []
  | s :: later => s.past (failedRounds later + 1) :: settled later

namespace Source

section
variable {s s' : Source} {r : Read} {k : Nat}

theorem past_zero (s : Source) : s.past 0 = s := by
  cases s
  simp [past, readsPast]

theorem failures_zero (s : Source) : s.failures 0 = 0 := by
  simp [failures, failuresBefore]

theorem past_of_failed (h : s.next = (r, s')) (hr : r.failed = true) :
    s.past (k + 1) = s'.past (k + 1) ∧ s.failures (k + 1) = s'.failures (k + 1) + 1 := by
  obtain ⟨_ | ⟨r', rest⟩⟩ := s <;> cases h
  · cases hr
  · cases r with
    | failure f => exact ⟨rfl, rfl⟩
    | event e => cases hr
    | nothing => cases hr

theorem past_of_next (h : s.next = (r, s')) (hr : r.failed = false) :
    s.past (k + 1) = s'.past k ∧ s.failures (k + 1) = s'.failures k := by
  obtain ⟨_ | ⟨r', rest⟩⟩ := s <;> cases h
  · cases k <;> exact ⟨rfl, rfl⟩
  · cases r with
    | event e => exact ⟨rfl, rfl⟩
    | nothing => exact ⟨rfl, rfl⟩
    | failure f => cases hr

theorem ends_ofFeed (feed : Feed) : (ofFeed feed).Ends := .inr ⟨feed, rfl⟩

/-- Asking a source leaves it as it should end, and when it gives nothing it has ended. -/
theorem Ends.next (hs : s.Ends) (h : s.next = (r, s')) :
    s'.Ends ∧ (r.event? = none → r.failed = false → s'.reads = []) := by
  rcases hs with hnil | ⟨feed, rfl⟩
  · obtain ⟨reads⟩ := s
    obtain rfl : reads = [] := hnil
    cases h
    exact ⟨.inl rfl, fun _ _ => rfl⟩
  · cases feed with
    | nil =>
      cases h
      exact ⟨.inl rfl, fun _ _ => rfl⟩
    | cons item feed =>
      cases h
      refine ⟨ends_ofFeed feed, fun hevent hfailed => ?_⟩
      cases item with
      | ok e => cases hevent
      | error f => cases hfailed

theorem events_of_ended (h : s.reads = []) : s.events = [] := by
  unfold events
  rw [h]
  rfl

end

end Source

namespace Merge

/-- The events of a source that are not lost: the one at hand and those still to come. -/
def held (m : Merge) (i : Nat) : List Event := (m.head i).toList ++ (m.source i).events

/-- What a merge has kept of the sources it started with. An event was lost if it is not held any
more; as long as none was, the turns are lined up. -/
structure Kept (sources : List Source) (m : Merge) : Prop where
  heads : m.heads.length = m.sources.length
  size : m.sources.length = sources.length
  ends : ∀ i, (m.source i).Ends
  held : ∀ i, m.held i <:+ (sources.getD i ⟨[]⟩).events
  fresh : ∀ i, m.head i = none → (m.source i).events = (sources.getD i ⟨[]⟩).events
  lined : m.Lined ∨ ∃ i, (m.held i).length < (sources.getD i ⟨[]⟩).events.length

section
variable {m m' : Merge} {i j : Nat} {r : Option ReadFailure} {sources done rest : List Source}

/-! ## Rounds -/

/-- What a round makes of the sources it is still to ask. -/
theorem round_sources (hm : m.sources = done ++ rest) :
    (∀ m', m.refillAll (List.range' done.length rest.length) = (none, m') →
      failedRounds rest = 0 ∧ m'.sources = done ++ settled rest) ∧
    ∀ f m', m.refillAll (List.range' done.length rest.length) = (some f, m') →
      ∃ rest', m'.sources = done ++ rest' ∧ failedRounds rest = failedRounds rest' + 1 ∧
      settled rest = settled rest' := by
  induction rest generalizing m done with
  | nil =>
    refine ⟨fun m' h => ?_, fun f m' h => ?_⟩
    · cases h
      exact ⟨rfl, hm⟩
    · cases h
  | cons s rest ih =>
    have hsource : m.source done.length = s := by simp [source, hm]
    rcases hs : s.next with ⟨read, s'⟩
    simp only [List.length_cons, List.range'_succ, refillAll]
    rcases hr : m.refill done.length with ⟨r, m₁⟩
    have href := refilled hr
    have hsources₁ : m₁.sources = (done ++ [s']) ++ rest := by
      rw [href.sources_eq, hm, hsource, hs]
      simp
    have hread : read.failed = r.isSome := by
      have := href.failed_eq
      rwa [hsource, hs] at this
    cases r with
    | some f =>
      -- the round ends here, and this source has one failure less
      refine ⟨fun m' h => ?_, fun f' m' h => ?_⟩
      · cases h
      · cases h
        obtain ⟨hpast, hfailures⟩ := Source.past_of_failed (k := failedRounds rest) hs hread
        refine ⟨s' :: rest, by simpa using hsources₁, ?_, ?_⟩
        · simp only [failedRounds, hfailures]
          omega
        · simp only [settled, hpast]
    | none =>
      have hlen : (done ++ [s']).length = done.length + 1 := by simp
      obtain ⟨hok, hfail⟩ := ih hsources₁
      rw [hlen] at hok hfail
      refine ⟨fun m' h => ?_, fun f m' h => ?_⟩
      · obtain ⟨hzero, hsources⟩ := hok m' h
        obtain ⟨hpast, hfailures⟩ := Source.past_of_next (k := 0) hs hread
        rw [Source.past_zero] at hpast
        refine ⟨?_, ?_⟩
        · simp only [failedRounds, hzero, hfailures, Source.failures_zero]
        · simp [settled, hzero, hsources, hpast]
      · obtain ⟨rest', hsources, hrounds, hsettled⟩ := hfail f m' h
        obtain ⟨hpast, hfailures⟩ := Source.past_of_next (k := failedRounds rest' + 1) hs hread
        refine ⟨s' :: rest', by simpa using hsources, ?_, ?_⟩
        · simp only [failedRounds, hrounds, hfailures]
          omega
        · simp only [settled, hrounds, hpast, hsettled]

/-! ## What is kept -/

theorem Refilled.head_self (h : m.Refilled i r m') (hheads : m.heads.length = m.sources.length) :
    m'.head i = ((m.source i).next.1.event?).or (m.head i) := by
  cases h with
  | event h =>
    have hi := lt_of_next h (.inl (by simp [Read.event?]))
    rw [h]
    exact getD_set_self (hheads ▸ hi) _ _
  | nothing h => rw [h]; rfl
  | failure h => rw [h]; rfl

theorem Refilled.held_ne (h : m.Refilled i r m') (hj : i ≠ j) : m'.held j = m.held j := by
  rw [held, held, h.head_ne hj, h.source_ne hj]

/-- Asking a source loses the event at hand if the source has another one. -/
theorem Refilled.held_self (h : m.Refilled i r m') (hheads : m.heads.length = m.sources.length)
    (hends : (m.source i).Ends) :
    m'.held i = if ((m.source i).next.1.event?).isSome then (m.source i).events else m.held i := by
  rw [held, h.head_self hheads, h.source_self, held]
  rcases hs : (m.source i).next with ⟨read, s'⟩
  cases read with
  | event e => simp [Read.event?, Source.events_of_event hs]
  | nothing =>
    have hended : s'.reads = [] := (hends.next hs).2 rfl rfl
    simp [Read.event?, Source.events_of_nothing hs, Source.events_of_ended hended]
  | failure f => simp [Read.event?, Source.events_of_failure hs]

theorem Refilled.held_suffix (h : m.Refilled i r m') (hheads : m.heads.length = m.sources.length)
    (hends : (m.source i).Ends) (j : Nat) : m'.held j <:+ m.held j := by
  by_cases hj : i = j
  · subst hj
    rw [h.held_self hheads hends]
    split
    · exact List.suffix_append ..
    · exact List.suffix_rfl
  · exact h.held_ne hj ▸ List.suffix_rfl

theorem Refilled.ends (h : m.Refilled i r m') (hends : ∀ j, (m.source j).Ends) (j : Nat) :
    (m'.source j).Ends := by
  by_cases hj : i = j
  · subst hj
    rw [h.source_self]
    exact ((hends i).next rfl).1
  · rw [h.source_ne hj]
    exact hends j

theorem kept_ofSources (h : ∀ s ∈ sources, s.Ends) : (ofSources sources).Kept sources := by
  have hhead : ∀ i, (ofSources sources).head i = none := (lined_ofSources sources).head_of_nil rfl
  refine ⟨by simp [ofSources], rfl, fun i => ?_, fun i => ?_, fun i _ => rfl,
    .inl (lined_ofSources sources)⟩
  · rcases (ofSources sources).source_eq_or i with hmem | hnone
    · exact h _ hmem
    · rw [hnone]
      exact .inl rfl
  · simp only [Merge.held, hhead]
    exact List.suffix_rfl

theorem Kept.refilled (hm : m.Kept sources) (h : m.Refilled i r m') : m'.Kept sources := by
  have hsuffix := fun j => h.held_suffix hm.heads (hm.ends i) j
  refine ⟨?_, h.lengths.2.trans hm.size, h.ends hm.ends, fun j => (hsuffix j).trans (hm.held j),
    fun j hj => ?_, ?_⟩
  · rw [h.lengths.1, h.lengths.2, hm.heads]
  · by_cases hij : i = j
    · subst hij
      rw [h.head_self hm.heads, Option.or_eq_none_iff] at hj
      have hheld := h.held_self hm.heads (hm.ends i)
      have hhead : m'.head i = none := by rw [h.head_self hm.heads, hj.1, hj.2]; rfl
      simp only [Merge.held, hhead, hj.1, hj.2] at hheld
      exact hheld.trans (hm.fresh i hj.2)
    · rw [h.head_ne hij] at hj
      rw [h.source_ne hij]
      exact hm.fresh j hj
  · rcases hm.lined with hlined | ⟨j, hlt⟩
    · cases hhead : m.head i with
      | none => exact .inl (h.lined hlined hhead)
      | some e =>
        cases h with
        | nothing _ => exact .inl (hlined.set_source i _)
        | failure _ => exact .inl (hlined.set_source i _)
        | event hs =>
          -- the event at hand is written over
          refine .inr ⟨i, ?_⟩
          have hlost := (Refilled.event hs).held_self hm.heads (hm.ends i)
          have hle := (hm.held i).length_le
          simp only [hs, Read.event?, Option.isSome_some, ↓reduceIte] at hlost
          rw [hlost]
          simp only [Merge.held, hhead, Option.toList_some, List.length_append,
            List.length_singleton] at hle
          omega
    · exact .inr ⟨j, Nat.lt_of_le_of_lt (hsuffix j).length_le hlt⟩

end

end Merge

end StateHistory
