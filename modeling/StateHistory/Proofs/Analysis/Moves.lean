import Mathlib.Algebra.GroupWithZero.Nat
import Mathlib.Algebra.Order.BigOperators.Group.List
import Mathlib.Algebra.Order.Group.Nat
import Mathlib.Data.List.Nodup
import Mathlib.Logic.Relation
import StateHistory.Analysis.Session

/-!
# How runs go on

A run proceeds by its own steps, whatever the other analyses and the folder look like at each of
them, and by giving up waiting; between its steps anyone may call it off or give up its data.
Whatever it does by itself brings its end nearer (`Proceeds.stepsLeft_lt`).
-/

namespace StateHistory.Analysis

/-- The run goes on by itself, whatever the other analyses and the folder look like. -/
inductive Proceeds (a : Analysis) : Analysis → Prop
  | step {see : String → Option Analysis} {folder folder' : Folder} {a' : Analysis}
    (h : a.step see folder = some (a', folder')) : Proceeds a a'
  | expire {a' : Analysis} (h : a.expire = some a') : Proceeds a a'

/-- The run goes on, or it is called off, or its data is given up. -/
inductive Move (a : Analysis) : Analysis → Prop
  | proceed {a' : Analysis} (h : a.Proceeds a') : Move a a'
  | cancel : Move a a.cancel
  | dispose : Move a { a with system := a.system.map (·.dispose) }

section
variable {a a' : Analysis}

theorem stepsLeft_of_over (h : a.phase = .over) (n : Nat) : a.stepsLeft ≤ n := by
  rw [stepsLeft, h]
  exact Nat.zero_le n

theorem stepsLeft_await {see : String → Option Analysis} {d : String} {pending : List String}
    {context : Context} (hphase : a.phase = .awaiting (d :: pending) context)
    (h : a.await see d pending context = some a') :
    a'.stepsLeft < a.stepsLeft := by
  have hleft : a.stepsLeft = pending.length + 1 + a.source.reads.length + 2 := by
    rw [stepsLeft, hphase]; rfl
  have hended : ∀ b : Analysis, b.phase = .over → b.stepsLeft < a.stepsLeft := fun b hb =>
    Nat.lt_of_le_of_lt (stepsLeft_of_over hb 0) (by omega)
  unfold Analysis.await at h
  split at h
  · obtain rfl := Option.some.inj h
    exact hended _ rfl
  · cases hsee : see d with
    | none => simp [hsee] at h
    | some other =>
      simp only [hsee] at h
      split at h
      · obtain rfl := Option.some.inj h
        rw [hleft]
        change pending.length + a.source.reads.length + 2 < _
        omega
      · obtain rfl := Option.some.inj h
        exact hended _ rfl
      · split at h
        · obtain rfl := Option.some.inj h
          exact hended _ rfl
        · cases h

theorem stepsLeft_opened (folder : Folder) (context : Context) :
    (a.opened folder context).stepsLeft ≤ a.source.reads.length + 1 := by
  unfold Analysis.opened
  split
  · exact stepsLeft_of_over rfl _
  · simp only
    split
    · exact Nat.le_refl _
    · exact stepsLeft_of_over rfl _

theorem stepsLeft_build (handle : Handler) (processed : Nat) (last : Option Time)
    (folder : Folder) :
    (a.build handle processed last folder).1.stepsLeft ≤ a.source.reads.length := by
  unfold Analysis.build
  split
  · exact stepsLeft_of_over rfl _
  · cases hr : a.source.reads with
    | nil =>
      have hnext : a.source.next = (.nothing, a.source) := by simp [Source.next, hr]
      simp only [hnext, concluded]
      split <;> exact stepsLeft_of_over rfl _
    | cons r rest =>
      have hnext : a.source.next = (r, ⟨rest⟩) := by simp [Source.next, hr]
      simp only [hnext]
      cases r with
      | event e =>
        simp only [handleEvent]
        split
        · exact stepsLeft_of_over rfl _
        · split
          · exact stepsLeft_of_over rfl _
          · simp only [reportProgress]
            split <;> exact Nat.le_refl _
      | nothing =>
        simp only [concluded]
        split <;> exact stepsLeft_of_over rfl _
      | failure f =>
        exact stepsLeft_of_over rfl _

/-- **Every run comes to an end**: whatever it does by itself brings the end nearer. -/
theorem Proceeds.stepsLeft_lt (h : a.Proceeds a') : a'.stepsLeft < a.stepsLeft := by
  cases hphase : a.phase with
  | idle =>
    cases h with
    | step hstep => simp [Analysis.step, hphase] at hstep
    | expire hexpire => simp [Analysis.expire, hphase] at hexpire
  | «over» =>
    cases h with
    | step hstep => simp [Analysis.step, hphase] at hstep
    | expire hexpire => simp [Analysis.expire, hphase] at hexpire
  | starting =>
    have hleft : a.stepsLeft = a.dependencies.length + a.source.reads.length + 3 := by
      rw [stepsLeft, hphase]
    cases h with
    | step hstep =>
      simp only [Analysis.step, hphase, Option.some.injEq, Prod.mk.injEq] at hstep
      obtain ⟨rfl, -⟩ := hstep
      rw [hleft]
      exact Nat.lt_succ_self (a.dependencies.length + a.source.reads.length + 2)
    | expire hexpire => simp [Analysis.expire, hphase] at hexpire
  | awaiting pending context =>
    have hleft : a.stepsLeft = pending.length + a.source.reads.length + 2 := by
      rw [stepsLeft, hphase]
    cases pending with
    | nil =>
      cases h with
      | step hstep =>
        simp only [Analysis.step, hphase, Option.some.injEq, Prod.mk.injEq] at hstep
        obtain ⟨rfl, -⟩ := hstep
        refine Nat.lt_of_le_of_lt (stepsLeft_opened _ context) ?_
        rw [hleft]
        exact Nat.lt_succ_of_le (Nat.le_add_left _ _)
      | expire hexpire => simp [Analysis.expire, hphase] at hexpire
    | cons d pending =>
      cases h with
      | step hstep =>
        simp only [Analysis.step, hphase, Option.map_eq_some_iff, Prod.mk.injEq] at hstep
        obtain ⟨a₁, hawait, rfl, -⟩ := hstep
        exact stepsLeft_await hphase hawait
      | expire hexpire =>
        simp only [Analysis.expire, hphase, Option.some.injEq] at hexpire
        subst hexpire
        split <;> exact Nat.lt_of_le_of_lt (stepsLeft_of_over rfl 0) (by omega)
  | building handle processed last =>
    have hleft : a.stepsLeft = a.source.reads.length + 1 := by rw [stepsLeft, hphase]
    cases h with
    | step hstep =>
      simp only [Analysis.step, hphase, Option.some.injEq] at hstep
      obtain rfl := congrArg Prod.fst hstep
      rw [hleft]
      exact Nat.lt_succ_of_le (stepsLeft_build handle processed last _)
    | expire hexpire => simp [Analysis.expire, hphase] at hexpire

/-- An analysis that cannot go on has not been scheduled or has ended. -/
theorem idle_or_over {see : String → Option Analysis} {folder : Folder}
    (hstep : a.step see folder = none) (hexpire : a.expire = none) :
    a.phase = .idle ∨ a.phase = .over := by
  cases hphase : a.phase with
  | idle => exact .inl rfl
  | «over» => exact .inr rfl
  | starting => simp [step, hphase] at hstep
  | awaiting pending context =>
    cases pending with
    | nil => simp [step, hphase] at hstep
    | cons => simp [expire, hphase] at hexpire
  | building => simp [step, hphase] at hstep

theorem idle_or_over_of_stepsLeft (h : a.stepsLeft = 0) : a.phase = .idle ∨ a.phase = .over := by
  cases hphase : a.phase with
  | idle => exact .inl rfl
  | «over» => exact .inr rfl
  | starting | awaiting | building => simp [stepsLeft, hphase] at h

/-! ## Runs of sessions -/

/-- The same analysis, at another point of its run. -/
structure Alike (a a' : Analysis) : Prop where
  id_eq : a'.id = a.id
  dependencies_eq : a'.dependencies = a.dependencies

theorem alike_await {see : String → Option Analysis} {d : String} {pending : List String}
    {context : Context} (h : a.await see d pending context = some a') : a.Alike a' := by
  unfold Analysis.await at h
  split at h
  · exact Option.some.inj h ▸ ⟨rfl, rfl⟩
  · cases hsee : see d with
    | none => simp [hsee] at h
    | some other =>
      simp only [hsee] at h
      split at h
      · exact Option.some.inj h ▸ ⟨rfl, rfl⟩
      · exact Option.some.inj h ▸ ⟨rfl, rfl⟩
      · split at h
        · exact Option.some.inj h ▸ ⟨rfl, rfl⟩
        · cases h

theorem alike_opened (folder : Folder) (context : Context) : a.Alike (a.opened folder context) := by
  unfold Analysis.opened
  split
  · exact ⟨rfl, rfl⟩
  · simp only
    split <;> exact ⟨rfl, rfl⟩

theorem alike_build (handle : Handler) (processed : Nat) (last : Option Time) (folder : Folder) :
    a.Alike (a.build handle processed last folder).1 := by
  unfold Analysis.build
  split
  · exact ⟨rfl, rfl⟩
  · cases a.source.next with
    | mk read source =>
      cases read with
      | event e =>
        simp only [handleEvent]
        split
        · exact ⟨rfl, rfl⟩
        · split
          · exact ⟨rfl, rfl⟩
          · simp only [reportProgress]
            split <;> exact ⟨rfl, rfl⟩
      | nothing =>
        simp only [concluded]
        split <;> exact ⟨rfl, rfl⟩
      | failure f => exact ⟨rfl, rfl⟩

theorem Proceeds.alike (h : a.Proceeds a') : a.Alike a' := by
  cases h with
  | step hstep =>
    unfold Analysis.step at hstep
    split at hstep
    · cases hstep
    · cases hstep
    · exact (Prod.mk.inj (Option.some.inj hstep)).1 ▸ ⟨rfl, rfl⟩
    · obtain ⟨a₁, hawait, heq⟩ := Option.map_eq_some_iff.1 hstep
      exact (Prod.mk.inj heq).1 ▸ alike_await hawait
    · exact (Prod.mk.inj (Option.some.inj hstep)).1 ▸ alike_opened _ _
    · obtain rfl := congrArg Prod.fst (Option.some.inj hstep)
      exact alike_build _ _ _ _
  | expire hexpire =>
    unfold Analysis.expire at hexpire
    split at hexpire
    · obtain rfl := Option.some.inj hexpire
      split <;> exact ⟨rfl, rfl⟩
    · cases hexpire

theorem Proceeds.id_eq (h : a.Proceeds a') : a'.id = a.id := h.alike.id_eq

end

end StateHistory.Analysis

namespace StateHistory.Session

open Analysis

section
variable {s s' : Session} {a a' : Analysis} {held : Session → Analysis → Bool}

/-- The analyses of a session have run on, each by itself. -/
def RunOn (s s' : Session) : Prop :=
  ∃ f : Analysis → Analysis, s'.analyses = s.analyses.map f ∧
    ∀ a ∈ s.analyses, (f a).id = a.id ∧ Relation.ReflTransGen Proceeds a (f a)

theorem RunOn.refl (s : Session) : s.RunOn s := ⟨id, (List.map_id _).symm, fun _ _ => ⟨rfl, .refl⟩⟩

theorem RunOn.trans {s₁ : Session} (h : s.RunOn s₁) (h' : s₁.RunOn s') : s.RunOn s' := by
  obtain ⟨f, hf, hrun⟩ := h
  obtain ⟨g, hg, hrun'⟩ := h'
  refine ⟨g ∘ f, by rw [hg, hf, List.map_map], fun a ha => ?_⟩
  obtain ⟨hid, hruns⟩ := hrun a ha
  obtain ⟨hid', hruns'⟩ := hrun' (f a) (hf ▸ List.mem_map_of_mem ha)
  exact ⟨hid'.trans hid, hruns.trans hruns'⟩

theorem RunOn.ids (h : s.RunOn s') : s'.analyses.map (·.id) = s.analyses.map (·.id) := by
  obtain ⟨f, hf, hrun⟩ := h
  rw [hf, List.map_map]
  exact List.map_congr_left fun a ha => (hrun a ha).1

theorem runOn_put (hids : (s.analyses.map (·.id)).Nodup) (ha : a ∈ s.analyses) (h : a.Proceeds a') :
    s.RunOn (s.put a') := by
  refine ⟨fun b => if b.id = a'.id then a' else b, rfl, fun b hb => ?_⟩
  beta_reduce
  split
  · rename_i hid
    obtain rfl : b = a := List.inj_on_of_nodup_map hids hb ha (hid.trans h.id_eq)
    exact ⟨h.id_eq, .single h⟩
  · exact ⟨rfl, .refl⟩

/-- What a session does next is what one of its analyses does. -/
theorem settleStep_cases (h : settleStep held s = some s') : ∃ a ∈ s.analyses, ∃ a',
    (∃ folder, a.step s.find? s.folder = some (a', folder) ∧ s' = { s.put a' with folder }) ∨
      a.expire = some a' ∧ s' = s.put a' := by
  rcases Option.or_eq_some_iff.1 h with h | ⟨-, h⟩
  · obtain ⟨a, ha, h⟩ := List.exists_of_findSome?_eq_some h
    split at h
    · cases h
    · obtain ⟨⟨a', folder⟩, hstep, rfl⟩ := Option.map_eq_some_iff.1 h
      exact ⟨a, ha, a', .inl ⟨folder, hstep, rfl⟩⟩
  · obtain ⟨a, ha, h⟩ := List.exists_of_findSome?_eq_some h
    obtain ⟨a', hexpire, rfl⟩ := Option.map_eq_some_iff.1 h
    exact ⟨a, List.mem_of_mem_filter (List.mem_mergeSort.1 ha), a', .inr ⟨hexpire, rfl⟩⟩

theorem runOn_settleStep (hids : (s.analyses.map (·.id)).Nodup) (h : settleStep held s = some s') :
    s.RunOn s' := by
  obtain ⟨a, ha, a', ⟨folder, hstep, rfl⟩ | ⟨hexpire, rfl⟩⟩ := settleStep_cases h
  · exact runOn_put hids ha (.step hstep)
  · exact runOn_put hids ha (.expire hexpire)

/-- **Whatever a session does, each of its analyses runs on by itself.** -/
theorem runOn_settle (hids : (s.analyses.map (·.id)).Nodup) (held : Session → Analysis → Bool) :
    s.RunOn (s.settle held) := by
  unfold settle
  generalize s.analyses.foldr (fun a n => a.stepsLeft + n) 0 = fuel
  induction fuel generalizing s with
  | zero => exact .refl s
  | succ fuel ih =>
    unfold settleLoop
    split
    · rename_i s₁ hstep
      have hstep := runOn_settleStep hids hstep
      exact hstep.trans (ih (hstep.ids ▸ hids))
    · exact .refl s

theorem sum_stepsLeft_put (hids : (s.analyses.map (·.id)).Nodup) (ha : a ∈ s.analyses)
    (h : a.Proceeds a') :
    ((s.put a').analyses.map (·.stepsLeft)).sum < (s.analyses.map (·.stepsLeft)).sum := by
  rw [put, List.map_map]
  refine List.sum_lt_sum _ _ (fun b hb => ?_) ⟨a, ha, ?_⟩
  · simp only [Function.comp_apply]
    split
    · rename_i hid
      obtain rfl : b = a := List.inj_on_of_nodup_map hids hb ha (hid.trans h.id_eq)
      exact h.stepsLeft_lt.le
    · exact le_rfl
  · simp only [Function.comp_apply, if_pos h.id_eq.symm]
    exact h.stepsLeft_lt

theorem idle_or_over_settleLoop {fuel : Nat} (hids : (s.analyses.map (·.id)).Nodup)
    (hfuel : (s.analyses.map (·.stepsLeft)).sum ≤ fuel)
    (ha : a ∈ (settleLoop (fun _ _ => false) fuel s).analyses) :
    a.phase = .idle ∨ a.phase = .over := by
  induction fuel generalizing s with
  | zero =>
    have hleft : a.stepsLeft ≤ (s.analyses.map (·.stepsLeft)).sum :=
      List.le_sum_of_mem (List.mem_map_of_mem ha)
    exact idle_or_over_of_stepsLeft (by omega)
  | succ fuel ih =>
    unfold settleLoop at ha
    split at ha
    · rename_i s₁ hstep
      have hrun := runOn_settleStep hids hstep
      refine ih (hrun.ids ▸ hids) (Nat.le_of_lt_succ (Nat.lt_of_lt_of_le ?_ hfuel)) ha
      obtain ⟨b, hb, b', ⟨folder, hnext, rfl⟩ | ⟨hexpire, rfl⟩⟩ := settleStep_cases hstep
      · exact sum_stepsLeft_put hids hb (.step hnext)
      · exact sum_stepsLeft_put hids hb (.expire hexpire)
    · rename_i hstuck
      obtain ⟨hstep, hexpire⟩ := Option.or_eq_none_iff.1 hstuck
      have hstill : a.step s.find? s.folder = none := by
        have hnext := List.findSome?_eq_none_iff.1 hstep a ha
        simpa [advance] using hnext
      refine idle_or_over hstill ?_
      by_contra hsome
      have hwaiting : a ∈ s.waiting :=
        List.mem_mergeSort.2 (List.mem_filter.2 ⟨ha, Option.isSome_iff_ne_none.2 hsome⟩)
      have hnone := List.findSome?_eq_none_iff.1 hexpire a hwaiting
      exact hsome (Option.map_eq_none_iff.1 hnone)

/-- **Every session comes to rest**: nobody is left who can go on. -/
theorem idle_or_over_settle (hids : (s.analyses.map (·.id)).Nodup)
    (ha : a ∈ (s.settle fun _ _ => false).analyses) :
    a.phase = .idle ∨ a.phase = .over := by
  refine idle_or_over_settleLoop hids ?_ ha
  rw [List.sum, List.foldr_map]

/-- An analysis that runs alone runs on by itself. -/
theorem proceeds_runAlone (a : Analysis) (folder : Folder) :
    Relation.ReflTransGen Proceeds a (runAlone a folder).1 := by
  obtain ⟨f, hf, hrun⟩ := runOn_settle (s := ⟨[a], folder⟩) (by simp) fun _ _ => false
  obtain ⟨hid, hruns⟩ := hrun a (by simp)
  have hend : (runAlone a folder).1 = f a := by simp [runAlone, find?, hf, hid]
  rwa [hend]

end

end StateHistory.Session
