import StateHistory.Proofs.Analysis.Prerequisites
import StateHistory.Proofs.Guarded.Schedule

/-!
# Orders of sessions

The analyses of a session can be scheduled just if each dependency is the id of an analysis and no
analysis depends on itself, directly or through others (`order_acyclic`). They are then scheduled
one by one, each after those it depends on; otherwise nothing happens at all.
-/

namespace StateHistory

namespace Session

open Relation Schedule

section
variable {s : Session} {id d : String} {e : Refusal}

theorem needs_jobs_iff (hids : s.Distinct) : Needs s.jobs id d ↔ s.DependsOn id d := by
  constructor
  · rintro ⟨j, hj, rfl, hd⟩
    obtain ⟨a, ha, rfl⟩ := List.mem_map.1 hj
    exact ⟨a, find?_of_mem hids ha, hd⟩
  · rintro ⟨a, ha, hd⟩
    obtain ⟨hmem, hid⟩ := mem_of_find? ha
    exact ⟨⟨a.id, a.dependencies⟩, List.mem_map_of_mem hmem, hid, hd⟩

theorem mem_ids_jobs_iff : d ∈ s.jobs.map (·.id) ↔ (s.find? d).isSome = true := by
  rw [ids_jobs, find?, List.find?_isSome]
  simp

/-- **Without an order nothing happens.** -/
theorem scheduleAll_of_order (h : s.order = .error e) : s.scheduleAll = .error e s := by
  rw [scheduleAll, h]

/-- **Analyses can be ordered just if every dependency is registered and none leads back to where it
began**, also when an analysis names one twice or names itself. The order holds each analysis once,
after all it depends on; without one the refusal names a dependency that is not registered, or just
the analyses that depend on a cycle, and no analysis is touched. Ordering by counting open
dependencies comes to the same without a fault: no count is taken below zero, and no more join the
line than there are. -/
theorem order_acyclic (hids : s.Distinct) :
    (∀ a s', s.add a = .ok s' → s'.Distinct) ∧
    Guarded.order s.jobs = .ok s.order ∧
    ((∃ ids, s.order = .ok ids) ↔
      (∀ id d, s.DependsOn id d → (s.find? d).isSome = true) ∧ ∀ id, ¬ TransGen s.DependsOn id id) ∧
    (∀ ids, s.order = .ok ids → ids.Perm (s.analyses.map (·.id)) ∧
      ∀ before id later, ids = before ++ id :: later → ∀ d, s.DependsOn id d → d ∈ before) ∧
    ∀ e, s.order = .error e → s.scheduleAll = .error e s ∧
      ((∃ id d, e = .unknownDependency id d ∧ s.DependsOn id d ∧ (s.find? d).isSome = false) ∨
        ∃ ids, e = .cycle ids ∧ ids ≠ [] ∧
          ∀ id, id ∈ ids ↔ ∃ c, ReflTransGen s.DependsOn id c ∧ TransGen s.DependsOn c c) := by
  have hjobs := s.nodup_jobs hids
  have hneeds : Needs s.jobs = s.DependsOn := funext₂ fun _ _ => propext (needs_jobs_iff hids)
  refine ⟨fun a s' h => (hids.add h).1, Guarded.order_eq hjobs, ?_, fun ids h => ?_,
    fun e h => ⟨scheduleAll_of_order h, ?_⟩⟩
  · have hiff := order_ok_iff hjobs
    simp only [hneeds, mem_ids_jobs_iff] at hiff
    exact hiff
  · obtain ⟨hperm, hbefore⟩ := perm_of_order hjobs h
    rw [ids_jobs] at hperm
    rw [hneeds] at hbefore
    exact ⟨hperm, hbefore⟩
  · have hrefusal := refusal_of_order hjobs h
    simpa only [hneeds, mem_ids_jobs_iff, Bool.not_eq_true] using hrefusal

end

/-- Analyses that are registered before those they depend on, and name some of them twice. -/
def forked : Session where
  analyses :=
    [idling "top" ["left", "right", "left"], idling "left" ["base"],
    idling "right" ["base", "base"], idling "base" []]

/-- One analysis that depends on itself, and one behind it. -/
def knotted : Session where
  analyses :=
    [idling "behind" ["knot", "base"], idling "base" [], idling "knot" ["knot", "base", "knot"]]

theorem order_acyclic_forked :
    forked.Distinct ∧ knotted.Distinct ∧ forked.order = .ok ["base", "left", "right", "top"] ∧
    Guarded.order forked.jobs = .ok (.ok ["base", "left", "right", "top"]) ∧
    (∀ id, ¬ TransGen forked.DependsOn id id) ∧
    knotted.scheduleAll = .error (.cycle ["behind", "knot"]) knotted ∧
    ∃ c, ReflTransGen knotted.DependsOn "behind" c ∧ TransGen knotted.DependsOn c c := by
  have hforked : forked.Distinct := by unfold Distinct; decide
  have hknotted : knotted.Distinct := by unfold Distinct; decide
  have horder : forked.order = .ok ["base", "left", "right", "top"] := by decide +kernel
  have hcycle : knotted.order = .error (.cycle ["behind", "knot"]) := by decide +kernel
  obtain ⟨-, hcounted, hiff, -⟩ := order_acyclic hforked
  obtain ⟨-, -, -, -, hrefused⟩ := order_acyclic hknotted
  obtain ⟨hnothing, ⟨id, d, hunknown, -⟩ | ⟨ids, heq, -, hmem⟩⟩ := hrefused _ hcycle
  · cases hunknown
  · obtain rfl := Refusal.cycle.inj heq
    exact ⟨hforked, hknotted, horder, horder ▸ hcounted, (hiff.1 ⟨_, horder⟩).2, hnothing,
      (hmem _).1 (by decide)⟩

end Session

end StateHistory
