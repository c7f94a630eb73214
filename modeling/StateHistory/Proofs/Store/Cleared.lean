import StateHistory.Proofs.Attribute.Below
import StateHistory.Proofs.Store.Batch
import StateHistory.Proofs.Store.Growth
import StateHistory.Proofs.Store.Stacked

/-!
# Clearing a subtree

Clearing sets an attribute and all attributes below it to null, but writes only those that are not
null already: `clear_ok_iff` says when it succeeds and what it leads to. An attribute of the subtree
is null from the time of clearing on, whether it was written or not, and what it held before that
time stays (`Sound.valueAt_emptied`).
-/

namespace StateHistory.Store

theorem named_run (calls : List Call) : (new.run calls).tree.Named :=
  run_induct (P := fun s => s.tree.Named) Tree.named_empty
    (fun h ha => ha.tree (P := Tree.Named) h fun _ path hb => h.grow hb path) calls

section
variable {s s' : Store} {q a : Quark} {t : Time} {below : List Quark}

/-! ## What clearing leads to -/

open Edit Call

/-- The writes that set the attributes of a subtree to null. -/
def nulls (s : Store) (q : Quark) (below : List Quark) : List (Quark × Value) :=
  (cleared s q below).map fun a => (a, .null)

/-- The store after `q` and what is below it were cleared at `t`. -/
def emptied (s : Store) (t : Time) (q : Quark) (below : List Quark) : Store :=
  (s.wroteAll t (nulls s q below)).reach t

/-- What clearing is going to write can be written. -/
def Clearable (s : Store) (t : Time) (q : Quark) (below : List Quark) : Prop :=
  ∀ a ∈ cleared s q below, s.Writable a t

theorem mem_cleared_iff : a ∈ cleared s q below ↔ a ∈ q :: below ∧ s.valueOf a ≠ .null := by
  rw [cleared, List.mem_filter, Bool.not_eq_true', ← Bool.not_eq_true, Value.isNull_iff]

theorem clear_ok_iff : clear t q s = .ok () s' ↔
    ∃ below, s.tree.below q true = .ok below ∧ s.Open t ∧ s.Clearable t q below ∧
    s' = s.emptied t q below := by
  have hopen : ∀ below, (s.wroteAll t (nulls s q below)).Open t ↔ s.Open t := by
    intro below
    rw [open_iff, open_iff, closed_wroteAll, getD_start_wroteAll]
  have hwrites : ∀ {below s₁}, s.Clearable t q below →
      (((cleared s q below).forM (write t .null)) s = .ok () s₁ ↔
        s₁ = s.wroteAll t (nulls s q below)) :=
    fun hw => forM_write_ok_iff (f := fun _ => .null) (g := id) hw
  simp only [clear, bind_ok, ask_ok, get_ok]
  constructor
  · rintro ⟨below, _, ⟨hbelow, rfl⟩, _, _, ⟨rfl, rfl⟩, _, _, hchecks, _, s₁, hw, hadvance⟩
    obtain ⟨rfl, hall⟩ := forM_ask_ok_iff.1 hchecks
    simp only [checkWritable_ok_iff] at hall
    obtain rfl := (hwrites hall).1 hw
    obtain ⟨ho, rfl⟩ := advance_ok_iff.1 hadvance
    exact ⟨below, hbelow, (hopen below).1 ho, hall, rfl⟩
  · rintro ⟨below, hbelow, ho, hall, rfl⟩
    refine ⟨below, s, ⟨hbelow, rfl⟩, s, s, ⟨rfl, rfl⟩, (), s, ?_, (), _, (hwrites hall).2 rfl,
      advance_ok_iff.2 ⟨(hopen below).2 ho, rfl⟩⟩
    exact forM_ask_ok_iff.2 ⟨rfl, fun a ha => checkWritable_ok_iff.2 (hall a ha)⟩

@[simp] theorem tree_emptied : (s.emptied t q below).tree = s.tree := by simp [emptied]

@[simp] theorem closed_emptied : (s.emptied t q below).closed = s.closed := by simp [emptied]

@[simp] theorem size_timelines_emptied :
    (s.emptied t q below).timelines.size = s.timelines.size := by simp [emptied]

theorem start_emptied : (s.emptied t q below).start = some (s.start.getD t) := by
  rw [emptied, start_reach, getD_start_wroteAll]

theorem fst_nulls : (nulls s q below).map Prod.fst = cleared s q below := by
  simp [nulls, Function.comp_def]

theorem Clearable.writable (h : s.Clearable t q below) :
    ∀ w ∈ nulls s q below, s.Writable w.1 t := by
  intro w hw
  obtain ⟨a, ha, rfl⟩ := List.mem_map.1 hw
  exact h a ha

/-- Recording has come to the time of clearing. -/
theorem Framed.le_stop_emptied (hs : s.Framed) (h : s.Clearable t q below) :
    ∃ stop, (s.emptied t q below).stop = some stop ∧ t ≤ stop := by
  have hframed := wroteAll_induct (P := Framed) (fun v hs hw => hs.wrote hw v) hs h.writable
  obtain ⟨stop, hstop, hle, -⟩ := stop_reach hframed.started t
  exact ⟨stop, hstop, hle⟩

/-! ## Timelines after clearing -/

/-- What clearing does not write stays as it is. -/
theorem timelineOf_emptied_of_notMem (h : s.Clearable t q below) (ha : a ∉ cleared s q below) :
    (s.emptied t q below).timelineOf a = s.timelineOf a := by
  rw [emptied, timelineOf_reach, timelineOf_wroteAll_of_notMem h.writable (by rwa [fst_nulls])]

/-- What is null already is not written. -/
theorem timelineOf_emptied_of_null (h : s.Clearable t q below) (ha : s.valueOf a = .null) :
    (s.emptied t q below).timelineOf a = s.timelineOf a :=
  timelineOf_emptied_of_notMem h fun hmem => (mem_cleared_iff.1 hmem).2 ha

/-- What clearing writes is null from then on. -/
theorem timelineOf_emptied (hg : s.tree.Grown) (hb : s.tree.below q true = .ok below)
    (h : s.Clearable t q below) (ha : a ∈ cleared s q below) :
    (s.emptied t q below).timelineOf a = (s.timelineOf a).opened a t .null := by
  have hnodup : ((nulls s q below).map Prod.fst).Nodup := by
    rw [fst_nulls]
    exact (Tree.nodup_below hg hb).filter _
  rw [emptied, timelineOf_reach,
    timelineOf_wroteAll h.writable hnodup (List.mem_map.2 ⟨a, ha, rfl⟩)]

/-- The whole subtree is null after clearing. -/
theorem valueOf_emptied (hg : s.tree.Grown) (hb : s.tree.below q true = .ok below)
    (h : s.Clearable t q below) (ha : a ∈ q :: below) :
    (s.emptied t q below).valueOf a = .null := by
  unfold valueOf
  by_cases hnull : s.valueOf a = .null
  · rwa [timelineOf_emptied_of_null h hnull]
  · rw [timelineOf_emptied hg hb h (mem_cleared_iff.2 ⟨ha, hnull⟩)]
    rfl

/-- The subtree is null from the time of clearing on, and holds before what it held. -/
theorem Sound.valueAt_emptied (hs : s.Sound) (hg : s.tree.Grown) (ho : s.Open t)
    (hb : s.tree.below q true = .ok below) (h : s.Clearable t q below) (ha : a ∈ q :: below)
    (hlate : ∀ o, (s.timelineOf a).ongoing = some o → o.start ≤ t) (t' : Time) :
    ((s.emptied t q below).timelineOf a).valueAt t' =
      if t ≤ t' then .null else (s.timelineOf a).valueAt t' := by
  have hgrowing := hs.growing ho.building a
  by_cases hnull : s.valueOf a = .null
  · -- an attribute that is null already is so since a time that is not past `t`
    rw [timelineOf_emptied_of_null h hnull]
    by_cases hle : t ≤ t'
    · rw [if_pos hle, ← hnull]
      exact (hs.seamless a).valueAt_eq_value hgrowing fun o ho => Int.le_trans (hlate o ho) hle
    · rw [if_neg hle]
  · have hmem : a ∈ cleared s q below := mem_cleared_iff.2 ⟨ha, hnull⟩
    rw [timelineOf_emptied hg hb h hmem,
      (hs.seamless a).valueAt_opened hgrowing .null (h a hmem).onTime]

/-- After clearing queries may ask for all times from the start on, and from `t` on if recording had
not started. -/
theorem Open.inReach_emptied (ho : s.Open t) {t' : Time} (hle : s.start.getD t ≤ t') :
    (s.emptied t q below).InReach t' := by
  refine ⟨⟨_, start_emptied, hle⟩, fun hc => ?_⟩
  rw [closed_emptied, ho.building] at hc
  cases hc

/-- Times before `t` that may be asked for after clearing could be asked for before it: recording
had started already. -/
theorem Open.inReach_of_lt (ho : s.Open t) {t' : Time} (hle : s.start.getD t ≤ t') (hlt : t' < t) :
    s.InReach t' := by
  cases hs : s.start with
  | none =>
    rw [hs, Option.getD_none] at hle
    exact absurd hle (Int.not_le.2 hlt)
  | some start =>
    rw [hs, Option.getD_some] at hle
    refine ⟨⟨start, hs, hle⟩, fun hc => ?_⟩
    rw [ho.building] at hc
    cases hc

end

/-- **Clearing sets a subtree to null and touches nothing else.** Let an attribute be cleared at a
time at which no attribute of its subtree has an ongoing state that begins later. Then every
attribute of the subtree, that is, every one whose path goes on from that of `q`, is null now and at
every time from then on, and has the same value as before at the earlier times. Those that were null
already get no new interval, those outside the subtree are as they were, no attribute is added, and
recording has come to the time of clearing. -/
theorem clear_run (calls : List Call) (t : Time) (q : Quark) (s' : Store)
    (h : clear t q (new.run calls) = .ok () s')
    (hlate : ∀ a start, (new.run calls).tree.Under q a →
      ongoingStart a (new.run calls) = .ok (some start) → start ≤ t) :
    let s := new.run calls
    (∀ a, s.tree.Under q a →
      ongoingValue a s' = .ok .null ∧
      (∀ t', t ≤ t' → ∃ iv, single t' a s' = .ok iv ∧ iv.value = .null) ∧
      (∀ start t', s'.start = some start → start ≤ t' → t' < t →
        ∃ old iv, single t' a s = .ok old ∧ single t' a s' = .ok iv ∧ iv.value = old.value) ∧
      (ongoingValue a s = .ok .null → s'.timeline a = s.timeline a)) ∧
    (∀ a, ¬ s.tree.Under q a → s'.timeline a = s.timeline a) ∧
    s'.tree = s.tree ∧ ∃ stop, s'.stop = some stop ∧ t ≤ stop := by
  intro s
  have hs : s.Lawful := lawful_run calls
  have hn : s.tree.Named := named_run calls
  change clear t q s = .ok () s' at h
  obtain ⟨below, hb, ho, hall, rfl⟩ := clear_ok_iff.1 h
  have hunder : ∀ a, a ∈ q :: below ↔ s.tree.Under q a := fun a =>
    hn.mem_below_iff_under hs.grown hb
  refine ⟨fun a ha => ?_, fun a ha => ?_, tree_emptied, hs.le_stop_emptied hall⟩
  · have hmem := (hunder a).2 ha
    obtain ⟨way, more, -, hpath⟩ := ha
    have hin := hn.contains_of_path hpath
    have hcov := hs.covered.contains_iff.1 hin
    have hin' : (s.emptied t q below).tree.contains a = true := by rwa [tree_emptied]
    have hvalue := hs.valueAt_emptied hs.grown ho hb hall hmem fun o hongoing =>
      hlate a o.start ((hunder a).1 hmem) (ongoingStart_ok_iff.2 ⟨hcov, by rw [hongoing]; rfl⟩)
    refine ⟨?_, fun t' hle => ?_, fun start t' hstart' hlo hlt => ?_, fun hnull => ?_⟩
    · rw [ongoingValue_eq (by rwa [size_timelines_emptied]), valueOf_emptied hs.grown hb hall hmem]
    · refine ⟨_, single_ok_iff.2
        ⟨hin', ho.inReach_emptied (Int.le_trans (open_iff.1 ho).2 hle), rfl⟩, ?_⟩
      rw [intervalAt_value, hvalue, if_pos hle]
    · rw [start_emptied, Option.some.injEq] at hstart'
      subst hstart'
      refine ⟨_, _, single_ok_iff.2 ⟨hin, ho.inReach_of_lt hlo hlt, rfl⟩,
        single_ok_iff.2 ⟨hin', ho.inReach_emptied hlo, rfl⟩, ?_⟩
      rw [intervalAt_value, intervalAt_value, hvalue, if_neg (Int.not_le.2 hlt)]
    · rw [ongoingValue_eq hcov, Except.ok.injEq] at hnull
      exact timeline_congr size_timelines_emptied (timelineOf_emptied_of_null hall hnull)
  · exact timeline_congr size_timelines_emptied
      (timelineOf_emptied_of_notMem hall fun hmem => ha ((hunder a).1 (mem_cleared_iff.1 hmem).1))

/-- A subtree with values that began before and at the time of clearing and one that was null
already, and an attribute beside it. -/
def grownSubtree : List Call :=
  [.step (.add ⟨0⟩ ["a", "b"]), .step (.add ⟨1⟩ ["c"]), .step (.add ⟨0⟩ ["ab"]),
    .step (.write 5 (.int 1) ⟨1⟩),
    .step (.write 10 (.int 2) ⟨2⟩), .step (.write 7 .null ⟨3⟩), .step (.write 9 (.int 4) ⟨4⟩)]

theorem clear_run_grownSubtree :
    ∃ s', clear 10 ⟨1⟩ (new.run grownSubtree) = .ok () s' ∧
      s'.timeline ⟨3⟩ = (new.run grownSubtree).timeline ⟨3⟩ ∧
      ∃ iv, single 11 ⟨2⟩ s' = .ok iv ∧ iv.value = .null := by
  obtain ⟨s', hclear⟩ : ∃ s', clear 10 ⟨1⟩ (new.run grownSubtree) = .ok () s' := ⟨_, rfl⟩
  have hstarts : ∀ i < (new.run grownSubtree).timelines.size,
      ∀ start ∈ ((new.run grownSubtree).timelineOf ⟨i⟩).ongoing.map (·.start), start ≤ 10 := by
        decide +kernel
  obtain ⟨hin, -⟩ := clear_run grownSubtree 10 ⟨1⟩ s' hclear fun a start _ h =>
    hstarts a.index (ongoingStart_ok_iff.1 h).1 start (ongoingStart_ok_iff.1 h).2
  obtain ⟨-, -, -, hnull⟩ := hin ⟨3⟩ ⟨["a"], ["c"], by decide +kernel, by decide +kernel⟩
  obtain ⟨-, hafter, -⟩ := hin ⟨2⟩ ⟨["a"], ["b"], by decide +kernel, by decide +kernel⟩
  exact ⟨s', hclear, hnull (by decide +kernel), hafter 11 (by decide)⟩

end StateHistory.Store
