import Mathlib.Data.List.TakeWhile
import StateHistory.Proofs.Store.PointQuery

/-!
# Queries over several times

A query over several times sweeps over them in ascending order, once for each attribute. It looks up
only the times that the interval reported last does not pass over. `Sweeps` says this without fuel,
and what a sweep reports follows from it by induction: each reported interval answers a requested
time (`Sweeps.answers`), each requested time is answered or passed over (`Sweeps.covers`), and an
interval is followed only by answers to times that it does not pass over (`Sweeps.pairwise`).
-/

namespace StateHistory.Store

/-! ## Repetitions -/

theorem eraseRepsBy_loop {α : Type} (r : α → α → Bool) : ∀ (l : List α) (a : α) (acc : List α),
    List.eraseRepsBy.loop r a l acc = acc.reverse ++ List.eraseRepsBy.loop r a l []
  | [], a, acc => by simp [List.eraseRepsBy.loop]
  | b :: l, a, acc => by
    unfold List.eraseRepsBy.loop
    cases r a b with
    | false =>
      simp only
      rw [eraseRepsBy_loop r l b (a :: acc), eraseRepsBy_loop r l b [a]]
      simp
    | true => exact eraseRepsBy_loop r l a acc

section
variable {α : Type} [DecidableEq α] {a : α}

theorem eraseReps_cons_cons (a b : α) (l : List α) :
    (a :: b :: l).eraseReps = if a = b then (b :: l).eraseReps else a :: (b :: l).eraseReps := by
  simp only [List.eraseReps, List.eraseRepsBy, List.eraseRepsBy.loop]
  by_cases hab : a = b
  · simp [hab]
  · simp only [hab, beq_eq_false_iff_ne.2 hab, ↓reduceIte]
    exact eraseRepsBy_loop _ l b [a]

/-- Of a run of equal elements the first is kept. -/
theorem eraseReps_cons (a : α) : ∀ l : List α,
    (a :: l).eraseReps = a :: (l.dropWhile (· == a)).eraseReps
  | [] => rfl
  | b :: l => by
    rw [eraseReps_cons_cons]
    by_cases hab : a = b
    · subst hab
      rw [if_pos rfl, eraseReps_cons a l, List.dropWhile_cons_of_pos (by simp)]
    · rw [if_neg hab, List.dropWhile_cons_of_neg (by simpa using Ne.symm hab)]

theorem mem_eraseReps : ∀ {l : List α}, a ∈ l.eraseReps ↔ a ∈ l
  | [] => Iff.rfl
  | [_] => Iff.rfl
  | b :: c :: l => by
    rw [eraseReps_cons_cons, List.mem_cons (a := a) (b := b)]
    split
    · subst b
      rw [mem_eraseReps]
      simp
    · rw [List.mem_cons, mem_eraseReps]

/-- What stands in order stands in strict order once its repetitions are gone. -/
theorem eraseReps_ascending {β : Type} [LinearOrder β] {key : α → β} (hkey : key.Injective) :
    ∀ {l : List α}, l.Pairwise (key · ≤ key ·) → l.eraseReps.Pairwise (key · < key ·)
  | [], _ => .nil
  | [a], _ => List.pairwise_singleton _ a
  | a :: b :: l, h => by
    rw [eraseReps_cons_cons]
    split
    · exact eraseReps_ascending hkey h.of_cons
    · rename_i hne
      have hab : key a < key b :=
        lt_of_le_of_ne (List.rel_of_pairwise_cons h (List.mem_cons_self ..)) (hkey.ne hne)
      refine List.pairwise_cons.2 ⟨fun c hc => ?_, eraseReps_ascending hkey h.of_cons⟩
      rcases List.mem_cons.1 (mem_eraseReps.1 hc) with rfl | hc
      · exact hab
      · exact lt_of_lt_of_le hab (List.rel_of_pairwise_cons h.of_cons hc)

end

/-! ## Ascending times -/

section
variable {ts : List Time} {t : Time}

/-- Ascending times are known from which they are. -/
theorem ascending_unique {us : List Time} (ht : ts.Pairwise (· < ·)) (hu : us.Pairwise (· < ·))
    (h : ∀ t, t ∈ ts ↔ t ∈ us) : ts = us := by
  have hperm : ts.Perm us :=
    (List.perm_ext_iff_of_nodup (ht.imp Int.ne_of_lt) (hu.imp Int.ne_of_lt)).2 fun {t} => h t
  refine hperm.eq_of_pairwise ?_ ht hu
  intro a b _ _ hab hba
  exact absurd hab (Int.lt_asymm hba)

theorem sortedTimes_ascending (ts : List Time) : (sortedTimes ts).Pairwise (· < ·) := by
  refine eraseReps_ascending (Function.injective_id (α := Time)) ?_
  have h : (ts.mergeSort fun a b => decide (a ≤ b)).Pairwise fun a b => decide (a ≤ b) = true := by
    refine List.pairwise_mergeSort ?_ ?_ ts
    · intro a b c hab hbc
      exact decide_eq_true (Int.le_trans (of_decide_eq_true hab) (of_decide_eq_true hbc))
    · intro a b
      simpa only [Bool.or_eq_true, decide_eq_true_eq] using Int.le_total a b
  exact h.imp of_decide_eq_true

theorem mem_sortedTimes : t ∈ sortedTimes ts ↔ t ∈ ts := by
  rw [sortedTimes, mem_eraseReps, List.mem_mergeSort]

end

/-! ## The sweep -/

/-- Is `t` passed over once `iv` is reported? -/
def passes (s : Store) (iv : Interval) (t : Time) : Bool := s.isOpenEnded iv || t ≤ iv.stop

/-- What is reported for `q` and the given times: the answer to the first, and after it what is
reported for the times that the answer does not pass over. -/
inductive Sweeps (s : Store) (q : Quark) : List Time → List Interval → Prop
  | nil : Sweeps s q [] []
  | cons {t : Time} {ts : List Time} {ivs : List Interval}
    (rest : Sweeps s q (ts.dropWhile (s.passes (s.intervalAt q t))) ivs) :
    Sweeps s q (t :: ts) (s.intervalAt q t :: ivs)

section
variable {s : Store} {q : Quark} {iv : Interval} {ivs : List Interval} {ts : List Time} {t : Time}

/-- There is fuel enough when there is one unit for each time. -/
theorem sweeps_sweep : ∀ {fuel : Nat} {ts : List Time}, ts.length ≤ fuel →
    s.Sweeps q ts (s.sweep q fuel ts)
  | 0, [], _ => .nil
  | _ + 1, [], _ => .nil
  | fuel + 1, t :: ts, h => by
    have hsub := List.dropWhile_sublist (s.passes (s.intervalAt q t)) (l := ts)
    exact .cons (sweeps_sweep (Nat.le_trans hsub.length_le (Nat.le_of_succ_le_succ h)))

theorem passes_of_le {t' : Time} (hle : t ≤ t') (h : s.passes iv t' = true) :
    s.passes iv t = true := by
  simp only [passes, Bool.or_eq_true, decide_eq_true_eq] at h ⊢
  exact h.imp_right fun h => Int.le_trans hle h

theorem passes_or_mem_dropWhile (iv : Interval) (h : t ∈ ts) :
    s.passes iv t = true ∨ t ∈ ts.dropWhile (s.passes iv) := by
  induction ts with
  | nil => cases h
  | cons a ts ih =>
    by_cases ha : s.passes iv a = true
    · rw [List.dropWhile_cons_of_pos ha]
      rcases List.mem_cons.1 h with rfl | h
      · exact Or.inl ha
      · exact ih h
    · rw [List.dropWhile_cons_of_neg ha]
      exact Or.inr h

/-- Times in ascending order are dropped up to the first that is not passed over, and so is none of
those behind it. -/
theorem not_passes_of_mem_dropWhile (h : ts.Pairwise (· < ·))
    (ht : t ∈ ts.dropWhile (s.passes iv)) :
    s.passes iv t = false := by
  induction ts with
  | nil => cases ht
  | cons a ts ih =>
    by_cases ha : s.passes iv a = true
    · rw [List.dropWhile_cons_of_pos ha] at ht
      exact ih h.of_cons ht
    · rw [List.dropWhile_cons_of_neg ha] at ht
      refine Bool.eq_false_iff.2 fun hp => ha ?_
      rcases List.mem_cons.1 ht with rfl | ht
      · exact hp
      · exact passes_of_le (Int.le_of_lt (List.rel_of_pairwise_cons h ht)) hp

theorem mem_of_mem_dropWhile {p : Time → Bool} (h : t ∈ ts.dropWhile p) : t ∈ ts :=
  (List.dropWhile_sublist p).subset h

namespace Sweeps

/-- Every reported interval answers a requested time. -/
theorem answers (h : s.Sweeps q ts ivs) : ∀ iv ∈ ivs, ∃ t ∈ ts, s.intervalAt q t = iv := by
  induction h with
  | nil => simp
  | cons rest ih =>
    intro iv hiv
    rcases List.mem_cons.1 hiv with rfl | hiv
    · exact ⟨_, List.mem_cons_self .., rfl⟩
    · obtain ⟨t, ht, heq⟩ := ih iv hiv
      exact ⟨t, List.mem_cons_of_mem _ (mem_of_mem_dropWhile ht), heq⟩

/-- Every requested time is answered, or passed over by what an earlier one was answered with. -/
theorem covers (h : s.Sweeps q ts ivs) (hasc : ts.Pairwise (· < ·)) :
    ∀ t ∈ ts, s.intervalAt q t ∈ ivs ∨
    ∃ t' ∈ ts, t' < t ∧ s.intervalAt q t' ∈ ivs ∧ s.passes (s.intervalAt q t') t = true := by
  induction h with
  | nil => simp
  | @cons a ts ivs rest ih =>
    intro t ht
    rcases List.mem_cons.1 ht with rfl | ht
    · exact Or.inl (List.mem_cons_self ..)
    · rcases passes_or_mem_dropWhile (s.intervalAt q a) ht with hpass | hdrop
      · have hlt := List.rel_of_pairwise_cons hasc ht
        exact Or.inr ⟨a, List.mem_cons_self .., hlt, List.mem_cons_self .., hpass⟩
      · have ih := ih (hasc.of_cons.sublist (List.dropWhile_sublist _))
        rcases ih t hdrop with hmem | ⟨t', ht', hlt, hmem, hpass⟩
        · exact Or.inl (List.mem_cons_of_mem _ hmem)
        · refine Or.inr ⟨t', ?_, hlt, List.mem_cons_of_mem _ hmem, hpass⟩
          exact List.mem_cons_of_mem _ (mem_of_mem_dropWhile ht')

/-- A relation holds along the report if it holds between the answers to two times of which the
first does not pass over the second. -/
theorem pairwise {R : Interval → Interval → Prop} (h : s.Sweeps q ts ivs)
    (hasc : ts.Pairwise (· < ·))
    (hR : ∀ t ∈ ts, ∀ t' ∈ ts, t < t' → s.passes (s.intervalAt q t) t' = false →
      R (s.intervalAt q t) (s.intervalAt q t')) : ivs.Pairwise R := by
  induction h with
  | nil => exact .nil
  | @cons a ts ivs rest ih =>
    refine List.pairwise_cons.2 ⟨?_, ?_⟩
    · intro iv hiv
      obtain ⟨t, ht, rfl⟩ := rest.answers iv hiv
      have hmem := mem_of_mem_dropWhile ht
      exact hR a (List.mem_cons_self ..) t (List.mem_cons_of_mem _ hmem)
        (List.rel_of_pairwise_cons hasc hmem) (not_passes_of_mem_dropWhile hasc.of_cons ht)
    · refine ih (hasc.of_cons.sublist (List.dropWhile_sublist _)) ?_
      intro t ht t' ht'
      exact hR t (List.mem_cons_of_mem _ (mem_of_mem_dropWhile ht)) t'
        (List.mem_cons_of_mem _ (mem_of_mem_dropWhile ht'))

/-- Nothing more is reported once all the later times are passed over. -/
theorem eq_singleton (h : s.Sweeps q (t :: ts) ivs)
    (hpass : ∀ t' ∈ ts, s.passes (s.intervalAt q t) t' = true) : ivs = [s.intervalAt q t] := by
  cases h with
  | cons rest =>
    rw [List.dropWhile_eq_nil_iff.2 hpass] at rest
    cases rest
    rfl

end Sweeps

theorem dropWhile_congr {α : Type} {p p' : α → Bool} {l : List α} (h : ∀ a ∈ l, p a = p' a) :
    l.dropWhile p = l.dropWhile p' := by
  induction l with
  | nil => rfl
  | cons a l ih =>
    rw [List.dropWhile_cons, List.dropWhile_cons, h a (List.mem_cons_self ..)]
    rw [ih fun b hb => h b (List.mem_cons_of_mem _ hb)]

/-- If just the times with the same answer are passed over, the sweep reports the answers to all
times without repetitions. -/
theorem Sweeps.eq_eraseReps (h : s.Sweeps q ts ivs) (hasc : ts.Pairwise (· < ·))
    (hsame : ∀ t ∈ ts, ∀ t' ∈ ts, t < t' →
      (s.passes (s.intervalAt q t) t' = true ↔ s.intervalAt q t' = s.intervalAt q t)) :
    ivs = (ts.map (s.intervalAt q)).eraseReps := by
  induction h with
  | nil => rfl
  | @cons a ts ivs rest ih =>
    have hdrop : ts.dropWhile (s.passes (s.intervalAt q a)) =
        ts.dropWhile ((· == s.intervalAt q a) ∘ s.intervalAt q) := by
      refine dropWhile_congr fun t ht => Bool.eq_iff_iff.2 ?_
      rw [hsame a (List.mem_cons_self ..) t (List.mem_cons_of_mem _ ht)
        (List.rel_of_pairwise_cons hasc ht)]
      simp
    have ih := ih (hasc.of_cons.sublist (List.dropWhile_sublist _)) fun t ht t' ht' =>
      hsame t (List.mem_cons_of_mem _ (mem_of_mem_dropWhile ht)) t'
        (List.mem_cons_of_mem _ (mem_of_mem_dropWhile ht'))
    rw [ih, List.map_cons, eraseReps_cons, List.dropWhile_map, hdrop]

end

/-! ## The query -/

/-- What is reported for one attribute. -/
def swept (s : Store) (q : Quark) (ts : List Time) : List Interval := s.sweep q ts.length ts

section
variable {s : Store} {q : Quark} {qs : List Quark} {iv : Interval} {ts : List Time}
  {start stop t : Time}

theorem sweeps_swept (s : Store) (q : Quark) (ts : List Time) : s.Sweeps q ts (s.swept q ts) :=
  sweeps_sweep (Nat.le_refl _)

theorem forM_checkQuark (h : ∀ q ∈ qs, s.tree.contains q = true) :
    qs.forM s.checkQuark = .ok () := by
  induction qs with
  | nil => rfl
  | cons q qs ih =>
    have hq := checkQuark_ok_iff (u := ()) |>.2 (h q (List.mem_cons_self ..))
    have ih := ih fun p hp => h p (List.mem_cons_of_mem _ hp)
    simpa [List.forM, hq, bind, Except.bind] using ih

theorem query2d_of_start (hqs : ∀ q ∈ qs, s.tree.contains q = true) (hs : s.start = some start)
    (ts : List Time) :
    query2d qs ts s = .ok (qs.flatMap fun q => s.swept q (s.answerable start ts)) := by
  unfold query2d
  rw [forM_checkQuark hqs, hs]
  rfl

theorem query2d_of_empty (hqs : ∀ q ∈ qs, s.tree.contains q = true) (hs : s.start = none)
    (ts : List Time) : query2d qs ts s = .ok [] := by
  unfold query2d
  rw [forM_checkQuark hqs, hs]
  rfl

theorem answerable_ascending (s : Store) (start : Time) (ts : List Time) :
    (s.answerable start ts).Pairwise (· < ·) := sortedTimes_ascending _

theorem mem_answerable : t ∈ s.answerable start ts ↔
    t ∈ ts ∧ start ≤ t ∧ t ≤ if s.closed then s.stop.getD Time.latest else Time.latest := by
  rw [answerable, mem_sortedTimes]
  simp

/-- The interval reported for a quark is one of its own. -/
theorem Spanned.mem_flatMap_swept (h : s.Spanned start stop) :
    iv ∈ (qs.flatMap fun q => s.swept q ts) ↔ iv.quark ∈ qs ∧ iv ∈ s.swept iv.quark ts := by
  rw [List.mem_flatMap]
  constructor
  · rintro ⟨q, hq, hiv⟩
    obtain ⟨t, -, heq⟩ := (sweeps_swept s q ts).answers iv hiv
    have hquark : iv.quark = q := by rw [← heq, h.intervalAt_quark]
    rw [hquark]
    exact ⟨hq, hiv⟩
  · rintro ⟨hq, hiv⟩
    exact ⟨iv.quark, hq, hiv⟩

/-- What holds along the report of each attribute and between intervals of different quarks holds
along the whole report. -/
theorem Spanned.pairwise_flatMap_swept (h : s.Spanned start stop) {R : Interval → Interval → Prop}
    (hqs : qs.Nodup) (hsame : ∀ q ∈ qs, (s.swept q ts).Pairwise R)
    (hother : ∀ a b, a.quark ≠ b.quark → R a b) :
    (qs.flatMap fun q => s.swept q ts).Pairwise R := by
  refine List.pairwise_flatMap.2 ⟨hsame, hqs.imp ?_⟩
  intro p q hpq a ha b hb
  obtain ⟨_, -, rfl⟩ := (sweeps_swept s p ts).answers a ha
  obtain ⟨_, -, rfl⟩ := (sweeps_swept s q ts).answers b hb
  refine hother _ _ ?_
  rw [h.intervalAt_quark, h.intervalAt_quark]
  exact hpq

end

end StateHistory.Store
