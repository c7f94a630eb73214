import StateHistory.Proofs.Store.Sweep

/-!
# Queries over several times of a closed store

Once a store is closed no state is ongoing and recording has an end, so the interval that answers a
time answers just the times up to its own end, whether something is recorded there or not
(`Settled.passes_iff`). The sweep therefore leaves out exactly the repetitions, `query2d_run`.
-/

namespace StateHistory.Store

/-- The store is closed and no state is ongoing. -/
structure Settled (s : Store) (start stop : Time) : Prop extends s.Spanned start stop where
  ongoing_eq : ∀ q, (s.timelineOf q).ongoing = none
  closed_eq : s.closed = true

section
variable {s : Store} {q : Quark} {qs : List Quark} {ts : List Time} {start stop t t' : Time}

theorem settled_ended (h : s.Sound) (t : Time) :
    (s.ended t).Settled (min (s.start.getD (s.lastTime t)) (s.lastTime t)) (s.lastTime t) := by
  refine ⟨⟨fun q => ?_, rfl, rfl⟩, fun q => ?_, rfl⟩ <;> rw [timelineOf_ended]
  · exact (h.seamless q).close t
  · exact Timeline.close_ongoing t

namespace Settled

/-- Behind the last record the answer reaches up to the end of the store. -/
theorem intervalAt_after (h : s.Settled start stop) (hhi : t ≤ stop) {iv : Interval}
    (hl : (s.timelineOf q).last? = some iv) (hlt : iv.stop < t) :
    s.intervalAt q t = ⟨q, iv.stop + 1, stop, .null⟩ :=
  h.toSpanned.intervalAt_after hhi (h.ongoing_eq q) hl hlt

/-- The interval that answers a time does not end before it. -/
theorem le_stop_intervalAt (h : s.Settled start stop) (hlo : start ≤ t) (hhi : t ≤ stop) :
    t ≤ (s.intervalAt q t).stop := by
  have hp := (h.seamless q).lookup_position t
  generalize (s.timelineOf q).lookup t = found at hp
  cases hp with
  | closed hiv hl hr =>
    rw [intervalAt_of_closed (h.seamless q) hiv hl hr]
    exact hr
  | ongoing ho _ => rw [h.ongoing_eq q] at ho; cases ho
  | before hlt =>
    rw [h.intervalAt_before hlo hlt]
    cases ha : (s.timelineOf q).start? with
    | none => exact Int.le_max_right _ _
    | some a => exact Int.le_sub_one_of_lt (hlt a ha)
  | after _ hl hlt =>
    rw [h.intervalAt_after hhi hl hlt]
    exact hhi

/-- The times up to the end of the answer to `t` have the same answer. -/
theorem intervalAt_eq (h : s.Settled start stop) (hlo : start ≤ t) (hle : t ≤ t') (hhi : t' ≤ stop)
    (hreach : t' ≤ (s.intervalAt q t).stop) : s.intervalAt q t' = s.intervalAt q t := by
  have hlo' := Int.le_trans hlo hle
  have hhi' := Int.le_trans hle hhi
  have hp := (h.seamless q).lookup_position t
  generalize (s.timelineOf q).lookup t = found at hp
  cases hp with
  | closed hiv hl hr =>
    rw [intervalAt_of_closed (h.seamless q) hiv hl hr] at hreach ⊢
    exact intervalAt_of_closed (h.seamless q) hiv (Int.le_trans hl hle) hreach
  | ongoing ho _ => rw [h.ongoing_eq q] at ho; cases ho
  | before hlt =>
    rw [h.intervalAt_before hlo hlt] at hreach ⊢
    have hlt' : ∀ a, (s.timelineOf q).start? = some a → t' < a := by
      intro a ha
      rw [ha, Option.elim_some] at hreach
      exact Int.lt_of_le_sub_one hreach
    rw [h.intervalAt_before hlo' hlt', Int.max_eq_left hhi, Int.max_eq_left hhi']
  | after _ hl hlt =>
    rw [h.intervalAt_after hhi' hl hlt]
    exact h.intervalAt_after hhi hl (Int.lt_of_lt_of_le hlt hle)

/-- A time is passed over just if it has the same answer. -/
theorem passes_iff (h : s.Settled start stop) (hlo : start ≤ t) (hle : t ≤ t') (hhi : t' ≤ stop) :
    s.passes (s.intervalAt q t) t' = true ↔ s.intervalAt q t' = s.intervalAt q t := by
  have hpasses : s.passes (s.intervalAt q t) t' = true ↔ t' ≤ (s.intervalAt q t).stop := by
    simp [passes, isOpenEnded, h.closed_eq]
  rw [hpasses]
  constructor
  · exact h.intervalAt_eq hlo hle hhi
  · intro heq
    rw [← heq]
    exact h.le_stop_intervalAt (by lia) hhi

theorem mem_answerable_iff (h : s.Settled start stop) :
    t ∈ s.answerable start ts ↔ t ∈ ts ∧ start ≤ t ∧ t ≤ stop := by
  rw [mem_answerable, h.closed_eq, h.stop_eq]
  rfl

/-- A point query succeeds for just those requested times that the sweep looks at. -/
theorem single_ok_iff_mem (h : s.Settled start stop) (hq : s.tree.contains q = true) (ht : t ∈ ts)
    {iv : Interval} :
    single t q s = .ok iv ↔ t ∈ s.answerable start ts ∧ s.intervalAt q t = iv := by
  rw [h.single_ok_iff hq, h.mem_answerable_iff, and_iff_right ht, and_assoc]
  simp only [h.closed_eq, forall_const]

theorem swept_eq (h : s.Settled start stop) (q : Quark) (ts : List Time) :
    s.swept q (s.answerable start ts) =
      ((s.answerable start ts).map (s.intervalAt q)).eraseReps := by
  refine (sweeps_swept ..).eq_eraseReps (answerable_ascending ..) ?_
  intro t ht t' ht' hlt
  obtain ⟨-, hlo, -⟩ := h.mem_answerable_iff.1 ht
  obtain ⟨-, -, hhi⟩ := h.mem_answerable_iff.1 ht'
  exact h.passes_iff hlo (Int.le_of_lt hlt) hhi

/-- What is reported are the answers to the requested pairs. -/
theorem mem_report_iff (h : s.Settled start stop) (hqs : ∀ q ∈ qs, s.tree.contains q = true)
    {iv : Interval} : iv ∈ (qs.flatMap fun q => s.swept q (s.answerable start ts)) ↔
      ∃ q ∈ qs, ∃ t ∈ ts, single t q s = .ok iv := by
  simp only [List.mem_flatMap, h.swept_eq, mem_eraseReps, List.mem_map]
  constructor
  · rintro ⟨q, hq, t, ht, heq⟩
    have hmem := (h.mem_answerable_iff.1 ht).1
    exact ⟨q, hq, t, hmem, (h.single_ok_iff_mem (hqs q hq) hmem).2 ⟨ht, heq⟩⟩
  · rintro ⟨q, hq, t, hmem, hsingle⟩
    exact ⟨q, hq, t, (h.single_ok_iff_mem (hqs q hq) hmem).1 hsingle⟩

/-- No answer is reported twice. -/
theorem nodup_report (h : s.Settled start stop) (hqs : qs.Nodup) (ts : List Time) :
    (qs.flatMap fun q => s.swept q (s.answerable start ts)).Nodup := by
  refine h.pairwise_flatMap_swept hqs (fun q _ => ?_) ?_
  · refine (sweeps_swept ..).pairwise (answerable_ascending ..) ?_
    intro t ht t' ht' hlt hpass heq
    obtain ⟨-, hlo, -⟩ := h.mem_answerable_iff.1 ht
    obtain ⟨-, -, hhi⟩ := h.mem_answerable_iff.1 ht'
    rw [(h.passes_iff hlo (Int.le_of_lt hlt) hhi).2 heq.symm] at hpass
    cases hpass
  · rintro a _ hne rfl
    exact hne rfl

end Settled

end

/-- `us` are the times of `ts` from `start` to `stop`, ascending and each once. -/
structure Asked (ts : List Time) (start stop : Time) (us : List Time) : Prop where
  ascending : us.Pairwise (· < ·)
  mem_iff : ∀ t, t ∈ us ↔ t ∈ ts ∧ start ≤ t ∧ t ≤ stop

theorem Asked.unique {ts us vs : List Time} {start stop : Time} (hu : Asked ts start stop us)
    (hv : Asked ts start stop vs) : us = vs :=
  ascending_unique hu.ascending hv.ascending fun t => (hu.mem_iff t).trans (hv.mem_iff t).symm

/-- **The sweep agrees with point queries.** Of a store that was just closed, a query over several
times reports, for one quark after the other, what point queries answer for the requested times that
the store reaches, in ascending order and without repetitions. So it reports the intervals that
answer some pair of a quark and a time, each once if the quarks are different. -/
theorem query2d_run (calls : List Call) {t : Time} {s : Store}
    (hclose : close t (new.run calls) = .ok () s) (qs : List Quark)
    (hqs : ∀ q ∈ qs, s.tree.contains q = true) (ts : List Time) :
    ∃ start stop us ivs, s.start = some start ∧ s.stop = some stop ∧ Asked ts start stop us ∧
      query2d qs ts s = .ok ivs ∧
      (∀ q ∈ qs, ∀ t ∈ us, single t q s = .ok (s.intervalAt q t)) ∧
      ivs = (qs.flatMap fun q => (us.map (s.intervalAt q)).eraseReps) ∧
      (∀ iv, iv ∈ ivs ↔ ∃ q ∈ qs, ∃ t ∈ ts, single t q s = .ok iv) ∧
      (qs.Nodup → ivs.Nodup) := by
  obtain ⟨-, rfl⟩ := close_ok_iff.1 hclose
  have h := settled_ended (sound_run calls) t
  refine ⟨_, _, _, _, h.start_eq, h.stop_eq,
    ⟨answerable_ascending .., fun _ => h.mem_answerable_iff⟩,
    query2d_of_start hqs h.start_eq ts, ?_, ?_, fun _ => h.mem_report_iff hqs, fun hnodup =>
      h.nodup_report hnodup ts⟩
  · intro q hq t' ht'
    have hmem := (h.mem_answerable_iff.1 ht').1
    exact (h.single_ok_iff_mem (hqs q hq) hmem).2 ⟨ht', rfl⟩
  · simp only [h.swept_eq]

/-- Two attributes, of which the second is first written while the first holds its first value. -/
def interleaved : List Call :=
  [.step (.add ⟨0⟩ ["a"]), .step (.add ⟨0⟩ ["b"]), .step (.write 10 (.int 1) ⟨1⟩),
    .step (.write 20 (.int 2) ⟨2⟩), .step (.write 30 (.int 3) ⟨1⟩)]

theorem query2d_run_interleaved :
    query2d [⟨2⟩, ⟨1⟩] [40, 25, 10, 12, 25, 5] ((new.run interleaved).ended 31) =
      .ok [⟨⟨2⟩, 10, 19, .null⟩, ⟨⟨2⟩, 20, 30, .int 2⟩, ⟨⟨1⟩, 10, 29, .int 1⟩] := by
  have hclose : close 31 (new.run interleaved) = .ok () ((new.run interleaved).ended 31) := by
    refine close_ok_iff.2 ⟨?_, rfl⟩
    decide +kernel
  have hqs : ∀ q ∈ [⟨2⟩, ⟨1⟩], ((new.run interleaved).ended 31).tree.contains q = true := by
    decide +kernel
  obtain ⟨start, stop, us, ivs, hstart, hstop, hasked, hok, -, hivs, -, -⟩ :=
    query2d_run interleaved hclose [⟨2⟩, ⟨1⟩] hqs [40, 25, 10, 12, 25, 5]
  have hten : ((new.run interleaved).ended 31).start = some 10 := by decide +kernel
  obtain rfl := Option.some.inj (hten.symm.trans hstart)
  have hthirty : ((new.run interleaved).ended 31).stop = some 30 := by decide +kernel
  obtain rfl := Option.some.inj (hthirty.symm.trans hstop)
  have hus : us = [10, 12, 25] := by
    refine hasked.unique ⟨by decide, fun t => ?_⟩
    simp only [List.mem_cons, List.not_mem_nil, or_false]
    lia
  rw [hok, hivs, hus]
  decide +kernel

end StateHistory.Store
