import StateHistory.Proofs.Attribute.Linked
import StateHistory.Proofs.Timeline.Seamless
import StateHistory.Store.Edit

/-!
# What the edits of a store do

Each elementary edit either fails, with the store as it was, or leads to one store that is given
here without a monad: `grown` after adding attributes, `reach` after an advance, `wrote` after a
write, `amended` and `ended`. What these do to the timelines is all that later proofs need
(`timelineOf_wrote` and its like).
-/

namespace StateHistory.Store

/-! ## Edits as functions -/

namespace Edit

variable {s s' : Store} {α β : Type} {e : Failure} {b : β}

theorem bind_ok {x : Edit α} {f : α → Edit β} :
    (x >>= f) s = .ok b s' ↔ ∃ a s₁, x s = .ok a s₁ ∧ f a s₁ = .ok b s' := by
  change EStateM.bind x f s = _ ↔ _
  unfold EStateM.bind
  cases x s with
  | error e s₁ => simp
  | ok a s₁ => exact ⟨fun h => ⟨a, s₁, rfl, h⟩, by rintro ⟨_, _, ⟨⟩, h⟩; exact h⟩

theorem bind_error {x : Edit α} {f : α → Edit β} :
    (x >>= f) s = .error e s' ↔
      x s = .error e s' ∨ ∃ a s₁, x s = .ok a s₁ ∧ f a s₁ = .error e s' := by
  change EStateM.bind x f s = _ ↔ _
  unfold EStateM.bind
  cases x s with
  | error e₁ s₁ => simp
  | ok a s₁ =>
    constructor
    · exact fun h => Or.inr ⟨a, s₁, rfl, h⟩
    · rintro (⟨⟨⟩⟩ | ⟨_, _, ⟨⟩, h⟩)
      exact h

theorem ask_ok {f : Store → Except Failure β} : ask f s = .ok b s' ↔ f s = .ok b ∧ s' = s := by
  unfold ask
  cases f s <;> simp [eq_comm]

theorem ask_error {f : Store → Except Failure β} :
    ask f s = .error e s' ↔ f s = .error e ∧ s' = s := by
  unfold ask
  cases f s <;> simp [eq_comm]

theorem pure_ok {a : β} : (pure a : Edit β) s = .ok b s' ↔ a = b ∧ s = s' := by
  change EStateM.Result.ok a s = _ ↔ _
  simp

theorem get_ok {s₁ : Store} : (get : Edit Store) s = .ok s₁ s' ↔ s = s₁ ∧ s = s' := by
  change EStateM.Result.ok s s = _ ↔ _
  simp

theorem modify_ok {f : Store → Store} {u : Unit} :
    (modify f : Edit Unit) s = .ok u s' ↔ s' = f s := by
  change EStateM.Result.ok () (f s) = _ ↔ _
  simp [eq_comm]

end Edit

open Edit

/-! ## Timelines of changed stores -/

section
variable {s : Store} {p q : Quark} {t : Time}

theorem timelineOf_eq (h : q.index < s.timelines.size) : s.timelineOf q = s.timelines[q.index] := by
  simp [timelineOf, Array.getD, h]

theorem timelineOf_outside (h : s.timelines.size ≤ q.index) : s.timelineOf q = {} := by
  simp [timelineOf, Array.getD, Nat.not_lt.2 h]

theorem timeline_eq_ok_iff {l : Timeline} :
    s.timeline q = .ok l ↔ q.index < s.timelines.size ∧ s.timelineOf q = l := by
  unfold timeline
  by_cases h : q.index < s.timelines.size
  · simp [h, timelineOf_eq h]
  · simp [h]

theorem timeline_congr {s' : Store} (hsize : s'.timelines.size = s.timelines.size)
    (h : s'.timelineOf q = s.timelineOf q) :
    s'.timeline q = s.timeline q := by
  by_cases hq : q.index < s.timelines.size
  · rw [timeline_eq_ok_iff.2 ⟨hq, rfl⟩, timeline_eq_ok_iff.2 ⟨hsize ▸ hq, h⟩]
  · unfold timeline
    rw [Array.getElem?_eq_none (by omega), Array.getElem?_eq_none (by omega)]

theorem timelineOf_setTimeline (l : Timeline) (h : q.index < s.timelines.size) :
    (s.setTimeline q l).timelineOf p = if p = q then l else s.timelineOf p := by
  unfold timelineOf setTimeline
  simp only [Array.getD_eq_getD_getElem?, Array.getElem?_setIfInBounds]
  by_cases hpq : p = q
  · subst hpq
    simp [h]
  · have : q.index ≠ p.index := fun hi => hpq (by cases p; cases q; simp_all)
    simp [hpq, this]

theorem timelineOf_cover : s.cover.timelineOf p = s.timelineOf p := by
  unfold timelineOf cover
  simp only [Array.getD_eq_getD_getElem?, Array.getElem?_append, Array.getElem?_replicate]
  split
  · rfl
  · rw [Array.getElem?_eq_none (by omega)]
    split <;> rfl

theorem size_timelines_cover :
    s.cover.timelines.size = s.timelines.size + (s.tree.size - s.timelines.size) := by
  simp [cover]

@[simp] theorem timelineOf_reach : (s.reach t).timelineOf p = s.timelineOf p := by
  unfold reach
  split <;> rfl

@[simp] theorem timelines_reach : (s.reach t).timelines = s.timelines := by
  unfold reach
  split <;> rfl

@[simp] theorem tree_reach : (s.reach t).tree = s.tree := by
  unfold reach
  split <;> rfl

@[simp] theorem closed_reach : (s.reach t).closed = s.closed := by
  unfold reach
  split <;> rfl

theorem start_reach : (s.reach t).start = some (s.start.getD t) := by
  unfold reach
  split <;> simp [*]

end

/-! ## Moving forward -/

/-- Recording can go on at `t`. -/
structure Open (s : Store) (t : Time) : Prop where
  building : s.closed = false
  start_le : ∀ start, s.start = some start → start ≤ t

/-- `q` can be written at `t`. -/
structure Writable (s : Store) (q : Quark) (t : Time) : Prop extends s.Open t where
  covered : q.index < s.timelines.size
  onTime : (s.timelineOf q).tooEarly t = none

section
variable {s s' : Store} {p q : Quark} {t : Time} {v : Value} {e : Failure}

theorem open_iff : s.Open t ↔ s.closed = false ∧ s.start.getD t ≤ t := by
  cases hs : s.start with
  | none => exact ⟨fun h => ⟨h.building, Int.le_refl t⟩, fun h => ⟨h.1, by simp [hs]⟩⟩
  | some start => exact ⟨fun h => ⟨h.building, h.start_le start hs⟩,
      fun h => ⟨h.1, by simpa [hs] using h.2⟩⟩

theorem checkTime_ok_iff {q : Option Quark} {u : Unit} : s.checkTime q t = .ok u ↔ s.Open t := by
  unfold checkTime
  cases hc : s.closed
  · cases hs : s.start with
    | none => simpa using ⟨hc, by simp [hs]⟩
    | some start =>
      by_cases hlt : t < start
      · have : ¬ s.Open t := fun ho => Int.not_le.2 hlt (ho.start_le _ hs)
        simp [Option.filter_some, hlt, this]
      · have : s.Open t := ⟨hc, fun start' h => by rw [hs] at h; cases h; exact Int.not_lt.1 hlt⟩
        simp [Option.filter_some, hlt, this]
  · have : ¬ s.Open t := fun ho => by rw [ho.building] at hc; cases hc
    simp [this]

theorem checkWritable_ok_iff {u : Unit} : s.checkWritable q t = .ok u ↔ s.Writable q t := by
  unfold checkWritable
  cases ht : s.checkTime (some q) t with
  | error e =>
    have : ¬ s.Writable q t :=
      fun h => by rw [checkTime_ok_iff (u := ()) |>.2 h.toOpen] at ht; cases ht
    simp [bind, Except.bind, this]
  | ok u =>
    have ho : s.Open t := checkTime_ok_iff.1 ht
    cases hl : s.timeline q with
    | error e =>
      have : ¬ s.Writable q t := fun h => by
        rw [timeline_eq_ok_iff.2 ⟨h.covered, rfl⟩] at hl; cases hl
      simp [bind, Except.bind, this]
    | ok l =>
      obtain ⟨hcov, rfl⟩ := timeline_eq_ok_iff.1 hl
      simp only [bind, Except.bind]
      cases hf : (s.timelineOf q).tooEarly t with
      | none => simpa using ⟨ho, hcov, hf⟩
      | some f =>
        have : ¬ s.Writable q t := fun h => by rw [h.onTime] at hf; cases hf
        simp [this]

/-- A refusal to write an attribute of a growing store is about its order. -/
theorem checkWritable_error (hc : s.closed = false) (hq : q.index < s.timelines.size)
    (hn : ¬ s.Writable q t) :
    ∃ last, t < last ∧ s.checkWritable q t = .error (.orderingViolation (some q) t last) := by
  unfold checkWritable checkTime
  rw [hc, timeline_eq_ok_iff.2 ⟨hq, rfl⟩]
  cases hstart : s.start.filter fun start => t < start with
  | some start =>
    have hlt := (Option.filter_eq_some_iff.1 hstart).2
    exact ⟨start, by simpa using hlt, rfl⟩
  | none =>
    cases hearly : (s.timelineOf q).tooEarly t with
    | some floor =>
      have hlt := (Option.filter_eq_some_iff.1 hearly).2
      refine ⟨floor, by simpa using hlt, ?_⟩
      simp [bind, Except.bind, hearly]
    | none =>
      have hopen : s.Open t := by
        refine ⟨hc, fun start hs => ?_⟩
        rw [hs] at hstart
        simpa [Option.filter_some] using hstart
      exact absurd ⟨hopen, hq, hearly⟩ hn

theorem advance_ok_iff : advance t s = .ok () s' ↔ s.Open t ∧ s' = s.reach t := by
  unfold advance
  simp only [bind_ok, ask_ok, modify_ok, checkTime_ok_iff]
  constructor
  · rintro ⟨-, s₁, ⟨ho, rfl⟩, rfl⟩
    exact ⟨ho, rfl⟩
  · rintro ⟨ho, rfl⟩
    exact ⟨(), s, ⟨ho, rfl⟩, rfl⟩

theorem advance_error (h : advance t s = .error e s') : s' = s := by
  unfold advance at h
  rcases bind_error.1 h with h | ⟨_, _, _, h⟩
  · exact (ask_error.1 h).2
  · cases h

/-! ## Writing -/

/-- The store after `q` was written at `t`. -/
def wrote (s : Store) (t : Time) (v : Value) (q : Quark) : Store :=
  (s.setTimeline q ((s.timelineOf q).opened q t v)).reach t

theorem timelineOf_wrote (h : q.index < s.timelines.size) :
    (s.wrote t v q).timelineOf p =
      if p = q then (s.timelineOf q).opened q t v else s.timelineOf p := by
  rw [wrote, timelineOf_reach, timelineOf_setTimeline _ h]

@[simp] theorem size_timelines_wrote : (s.wrote t v q).timelines.size = s.timelines.size := by
  simp [wrote, setTimeline]

@[simp] theorem tree_wrote : (s.wrote t v q).tree = s.tree := by simp [wrote, setTimeline]

@[simp] theorem closed_wrote : (s.wrote t v q).closed = s.closed := by simp [wrote, setTimeline]

theorem start_wrote : (s.wrote t v q).start = some (s.start.getD t) := by
  simp [wrote, start_reach, setTimeline]

theorem open_wrote (h : s.Open t) : (s.wrote t v q).Open t := by
  refine ⟨by simp [h.building], fun start hs => ?_⟩
  rw [start_wrote, Option.some.injEq] at hs
  subst hs
  cases hst : s.start with
  | none => exact Int.le_refl _
  | some start => exact h.start_le _ hst

/-- A write leaves everything writable that could be written at its time. -/
theorem Writable.wrote (hp : s.Writable p t) (hq : q.index < s.timelines.size) :
    (s.wrote t v q).Writable p t := by
  refine ⟨open_wrote hp.toOpen, by simpa using hp.covered, ?_⟩
  rw [timelineOf_wrote hq]
  split
  · simp [Timeline.tooEarly, Timeline.floor, Timeline.opened, Option.filter_some]
  · exact hp.onTime

theorem write_ok_iff : write t v q s = .ok () s' ↔ s.Writable q t ∧ s' = s.wrote t v q := by
  unfold write
  simp only [bind_ok, ask_ok, modify_ok, checkWritable_ok_iff, advance_ok_iff]
  constructor
  · rintro ⟨-, _, ⟨hw, rfl⟩, l, _, ⟨hl, rfl⟩, -, _, rfl, -, rfl⟩
    rw [Timeline.write_eq_opened v hw.onTime, Except.ok.injEq] at hl
    subst hl
    exact ⟨hw, rfl⟩
  · rintro ⟨hw, rfl⟩
    exact ⟨(), s, ⟨hw, rfl⟩, _, s, ⟨Timeline.write_eq_opened v hw.onTime, rfl⟩, (), _, rfl,
      ⟨hw.building, hw.start_le⟩, rfl⟩

theorem write_error (h : write t v q s = .error e s') : ¬ s.Writable q t ∧ s' = s := by
  have hn : ¬ s.Writable q t := fun hw => by rw [write_ok_iff.2 ⟨hw, rfl⟩] at h; cases h
  refine ⟨hn, ?_⟩
  unfold write at h
  rcases bind_error.1 h with h | ⟨_, _, h₁, -⟩
  · exact (ask_error.1 h).2
  · exact absurd (checkWritable_ok_iff.1 (ask_ok.1 h₁).1) hn

/-! ## Amending -/

/-- The store after the ongoing state of `q` was amended. -/
def amended (s : Store) (v : Value) (q : Quark) : Store :=
  s.setTimeline q ((s.timelineOf q).amend v ((s.stop.or s.start).getD 0))

theorem timelineOf_amended (h : q.index < s.timelines.size) :
    (s.amended v q).timelineOf p =
      if p = q then (s.timelineOf q).amend v ((s.stop.or s.start).getD 0) else s.timelineOf p := by
  rw [amended, timelineOf_setTimeline _ h]

theorem checkQuark_ok_iff {u : Unit} : s.checkQuark q = .ok u ↔ s.tree.contains q = true := by
  unfold checkQuark
  split <;> simp [*]

theorem amend_ok_iff : amend v q s = .ok () s' ↔ s.tree.contains q = true ∧ s' = s.amended v q := by
  unfold amend
  simp only [bind_ok, ask_ok, modify_ok, checkQuark_ok_iff]
  constructor
  · rintro ⟨-, _, ⟨hq, rfl⟩, rfl⟩
    exact ⟨hq, rfl⟩
  · rintro ⟨hq, rfl⟩
    exact ⟨(), s, ⟨hq, rfl⟩, rfl⟩

theorem amend_error (h : amend v q s = .error e s') : s' = s := by
  unfold amend at h
  rcases bind_error.1 h with h | ⟨_, _, _, h⟩
  · exact (ask_error.1 h).2
  · cases h

/-! ## Adding attributes -/

/-- The store with the attributes on the path `path` below `base`. -/
def grown (s : Store) (base : Quark) (path : List String) : Store :=
  { s with tree := (s.tree.grow base path).2 }.cover

variable {base : Quark} {path : List String}

@[simp] theorem timelineOf_grown : (s.grown base path).timelineOf p = s.timelineOf p :=
  timelineOf_cover

@[simp] theorem tree_grown : (s.grown base path).tree = (s.tree.grow base path).2 := rfl

@[simp] theorem closed_grown : (s.grown base path).closed = s.closed := rfl

@[simp] theorem start_grown : (s.grown base path).start = s.start := rfl

@[simp] theorem stop_grown : (s.grown base path).stop = s.stop := rfl

theorem add_ok_iff : add base path s = .ok q s' ↔
    s.tree.contains base = true ∧ q = (s.tree.grow base path).1 ∧ s' = s.grown base path := by
  unfold add
  simp only [bind_ok, ask_ok, modify_ok, pure_ok, Tree.ensure]
  by_cases hb : s.tree.contains base = true
  · simp only [hb, ↓reduceIte, true_and, Except.ok.injEq]
    constructor
    · rintro ⟨⟨c, tree⟩, _, ⟨hc, rfl⟩, _, _, rfl, rfl, rfl⟩
      exact ⟨by rw [hc], by rw [grown, hc]⟩
    · rintro ⟨rfl, rfl⟩
      exact ⟨_, s, ⟨rfl, rfl⟩, (), _, rfl, rfl, rfl⟩
  · simp [hb]

theorem add_error (h : add base path s = .error e s') : s.tree.contains base = false ∧ s' = s := by
  unfold add at h
  rcases bind_error.1 h with h | ⟨_, _, _, h⟩
  · obtain ⟨he, rfl⟩ := ask_error.1 h
    refine ⟨?_, rfl⟩
    unfold Tree.ensure at he
    split at he
    · cases he
    · exact Bool.eq_false_iff.2 ‹¬ _›
  · rcases bind_error.1 h with h | ⟨_, _, _, h⟩ <;> cases h

/-! ## Closing -/

theorem length_closeAll : ∀ (ls : List Timeline) (i : Nat) (stop : Time),
    (closeAll t ls i stop).1.length = ls.length
  | [], _, _ => rfl
  | l :: ls, i, stop => by simp [closeAll, length_closeAll ls]

theorem getElem?_closeAll : ∀ (ls : List Timeline) (i : Nat) (stop : Time) (j : Nat),
    (closeAll t ls i stop).1[j]? = ls[j]?.map fun l => (l.close ⟨i + j⟩ t).2
  | [], _, _, _ => rfl
  | l :: ls, i, stop, 0 => by simp [closeAll]
  | l :: ls, i, stop, j + 1 => by
    simp only [closeAll, List.getElem?_cons_succ, getElem?_closeAll ls]
    rw [show i + 1 + j = i + (j + 1) by omega]

theorem le_closeAll :
    ∀ (ls : List Timeline) (i : Nat) (stop : Time), stop ≤ (closeAll t ls i stop).2
  | [], _, _ => Int.le_refl _
  | l :: ls, i, stop => by
    simp only [closeAll]
    refine Int.le_trans ?_ (le_closeAll ls _ _)
    cases (l.close ⟨i⟩ t).1 with
    | none => exact Int.le_refl _
    | some ended => exact Int.le_max_left _ _

/-- The last time of the store once it is closed at `t`. -/
def lastTime (s : Store) (t : Time) : Time :=
  (closeAll t s.timelines.toList 0 (s.stop.elim t (max t.before))).2

theorem sub_one_le_lastTime (s : Store) (t : Time) : t - 1 ≤ s.lastTime t := by
  have h : s.stop.elim t (max t.before) ≤ s.lastTime t := le_closeAll ..
  unfold Time.before at h
  cases hs : s.stop with
  | none => rw [hs, Option.elim_none] at h; lia
  | some stop => rw [hs, Option.elim_some] at h; lia

/-- The store after it was closed at `t`. -/
def ended (s : Store) (t : Time) : Store :=
  { s with
    timelines := (closeAll t s.timelines.toList 0 (s.stop.elim t (max t.before))).1.toArray
    start := some (min (s.start.getD (s.lastTime t)) (s.lastTime t))
    stop := some (s.lastTime t)
    closed := true }

@[simp] theorem tree_ended : (s.ended t).tree = s.tree := rfl

@[simp] theorem closed_ended : (s.ended t).closed = true := rfl

@[simp] theorem stop_ended : (s.ended t).stop = some (s.lastTime t) := rfl

@[simp] theorem size_timelines_ended : (s.ended t).timelines.size = s.timelines.size := by
  simp [ended, length_closeAll]

theorem timelineOf_ended : (s.ended t).timelineOf p = ((s.timelineOf p).close p t).2 := by
  unfold timelineOf ended
  simp only [Array.getD_eq_getD_getElem?, List.getElem?_toArray, getElem?_closeAll, Nat.zero_add,
    Array.getElem?_toList]
  cases s.timelines[p.index]? <;> rfl

theorem close_eq (t : Time) (s : Store) : close t s = match s.stop.filter fun stop => t < stop with
    | some stop => .error (.orderingViolation none t stop) s
    | none => .ok () (s.ended t) := by
  unfold close
  change EStateM.bind (fun s => .ok s s) _ s = _
  simp only [EStateM.bind]
  cases s.stop.filter fun stop => t < stop <;> rfl

theorem close_ok_iff :
    close t s = .ok () s' ↔ (∀ stop, s.stop = some stop → stop ≤ t) ∧ s' = s.ended t := by
  rw [close_eq]
  cases hs : s.stop with
  | none => simp [eq_comm]
  | some stop =>
    by_cases hlt : t < stop
    · simp [Option.filter_some, hlt, Int.not_le.2 hlt]
    · simp [Option.filter_some, hlt, Int.not_lt.1 hlt, eq_comm]

theorem close_error (h : close t s = .error e s') : s' = s := by
  rw [close_eq] at h
  split at h
  · cases h; rfl
  · cases h

end

end StateHistory.Store
