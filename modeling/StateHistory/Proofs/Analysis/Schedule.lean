import Mathlib.Data.Finset.Card
import Mathlib.Data.Fintype.Card
import Mathlib.Data.List.Nodup
import Mathlib.Data.Set.Finite.Basic
import Mathlib.Logic.Relation
import Mathlib.Order.WellFounded
import StateHistory.Analysis.Schedule

/-!
# Orders that keep dependencies

While jobs are placed, some have been placed and others stand in line. Both together are just the
jobs that wait for nothing but what has been placed (`Lined.mem_iff`), each of them once, and
whatever has been placed comes after what it waited for; a turn keeps this (`Lined.next`). When the
line has come to its end, the jobs left waiting all wait for each other, so one of them lies on a
cycle, and all that depend on a cycle are left (`Lined.mem_left_iff`). So there is an order just if
every dependency is known and none leads back to where it began (`order_ok_iff`).
-/

namespace StateHistory

open Relation

/-- Where everything is followed by something, one comes to a cycle. -/
theorem exists_cycle {α : Type} {r : α → α → Prop} {s : Set α} (hs : s.Finite)
    (hnext : ∀ a ∈ s, ∃ b ∈ s, r a b) {a : α} (ha : a ∈ s) :
    ∃ c, ReflTransGen r a c ∧ TransGen r c c := by
  by_contra hno
  -- otherwise what lies behind `a` is ordered, and something would come last
  let T := {b : α // b ∈ s ∧ ReflTransGen r a b}
  have hfinite : Finite T := Set.Finite.subset hs fun b hb => hb.1
  have htrans : IsTrans T fun b c => TransGen r c.1 b.1 := ⟨fun _ _ _ hbc hcd => hcd.trans hbc⟩
  have hirrefl : Std.Irrefl fun b c : T => TransGen r c.1 b.1 := ⟨fun b hb => hno ⟨b.1, b.2.2, hb⟩⟩
  have hwf := Finite.wellFounded_of_trans_of_irrefl fun b c : T => TransGen r c.1 b.1
  obtain ⟨⟨m, hm, ham⟩, -, hlast⟩ := hwf.has_min Set.univ ⟨⟨a, ha, .refl⟩, trivial⟩
  obtain ⟨b, hb, hmb⟩ := hnext m hm
  exact hlast ⟨b, hb, ham.tail hmb⟩ trivial (.single hmb)

namespace Job

/-- The job once all of `done` have been placed. -/
def after (done : List String) (j : Job) : Job :=
  { j with waitsFor := j.waitsFor.filter (· ∉ done) }

variable {j : Job} {done : List String}

theorem after_nil (j : Job) : j.after [] = j := by simp [after]

theorem release_after (done : List String) (id : String) (j : Job) :
    (j.after done).release id = j.after (done ++ [id]) := by
  simp only [after, release, List.filter_filter, Job.mk.injEq, true_and]
  refine List.filter_congr fun d _ => ?_
  simp [and_comm]

theorem isFree_after_iff : (j.after done).isFree = true ↔ ∀ d ∈ j.waitsFor, d ∈ done := by
  simp [after, isFree]

theorem isFree_iff_length (j : Job) : j.isFree = true ↔ j.waitsFor.length = 0 := by
  rw [isFree, List.isEmpty_iff, List.length_eq_zero_iff]

/-- A job loses as many dependencies as it names the one that is placed. -/
theorem length_after (j : Job) {id : String} (hid : id ∉ done) :
    (j.after done).waitsFor.length = (j.after (done ++ [id])).waitsFor.length +
      j.waitsFor.count id := by
  have hcount : j.waitsFor.count id = (j.after done).waitsFor.count id :=
    (List.count_filter (by simpa using hid)).symm
  have hlength := List.length_eq_length_filter_add (l := (j.after done).waitsFor) (· == id)
  have hrest : (j.after (done ++ [id])).waitsFor = (j.after done).waitsFor.filter fun d =>
      !(d == id) := by
    rw [← release_after, release]
    exact List.filter_congr fun d _ => by by_cases hd : d = id <;> simp [hd]
  rw [hcount, hrest, List.count_eq_length_filter]
  omega

theorem isFree_after_append (h : (j.after done).isFree = true) (id : String) :
    (j.after (done ++ [id])).isFree = true :=
  isFree_after_iff.2 fun d hd => List.mem_append_left _ (isFree_after_iff.1 h d hd)

end Job

namespace Schedule

/-- The job `id` waits for `d`. -/
def Needs (jobs : List Job) (id d : String) : Prop := ∃ j ∈ jobs, j.id = id ∧ d ∈ j.waitsFor

/-- The jobs that are still waiting once all of `done` have been placed. -/
def left (jobs : List Job) (done : List String) : List Job :=
  (jobs.filter fun j => !(j.after done).isFree).map (·.after done)

/-- The jobs that have waited for `id` last. -/
def joining (jobs : List Job) (done : List String) (id : String) : List String :=
  (jobs.filter fun j => !(j.after done).isFree && (j.after (done ++ [id])).isFree).map (·.id)

/-- `done` have been placed, each after what it waited for, and `line` are the others that wait for
nothing else. -/
structure Lined (jobs : List Job) (done line : List String) : Prop where
  nodup : (done ++ line).Nodup
  known : done ++ line ⊆ jobs.map (·.id)
  mem_iff : ∀ j ∈ jobs, j.id ∈ done ++ line ↔ ∀ d ∈ j.waitsFor, d ∈ done
  after : ∀ before id later, done = before ++ id :: later → ∀ d, Needs jobs id d → d ∈ before

section
variable {jobs : List Job} {done line placed : List String} {id d : String} {j : Job}

/-! ## One turn -/

theorem left_nil (jobs : List Job) : left jobs [] = jobs.filter fun j => !j.isFree := by
  simp only [left, Job.after_nil, List.map_id']

theorem release_left (jobs : List Job) (done : List String) (id : String) :
    (left jobs done).map (·.release id) =
    (jobs.filter fun j => !(j.after done).isFree).map (·.after (done ++ [id])) := by
  simp only [left, List.map_map, Function.comp_def, Job.release_after]

/-- Those that have waited for the head of the line last join it, in the order of the jobs. -/
theorem free_release_left (jobs : List Job) (done : List String) (id : String) :
    (((left jobs done).map (·.release id)).filter (·.isFree)).map (·.id) =
      joining jobs done id := by
  rw [release_left, List.filter_map, List.map_map, List.filter_filter, joining]
  simp only [Function.comp_def, Job.after, Bool.and_comm]

theorem waiting_release_left (jobs : List Job) (done : List String) (id : String) :
    ((left jobs done).map (·.release id)).filter (not ∘ (·.isFree)) = left jobs (done ++ [id]) := by
  rw [release_left, List.filter_map, List.filter_filter, left]
  congr 1
  refine List.filter_congr fun j _ => ?_
  cases hbefore : (j.after done).isFree with
  | true => simp [Job.isFree_after_append hbefore id]
  | false => simp

theorem place_cons (fuel : Nat) : place (fuel + 1) (id :: line) (left jobs done) =
    (id :: (place fuel (line ++ joining jobs done id) (left jobs (done ++ [id]))).1,
      (place fuel (line ++ joining jobs done id) (left jobs (done ++ [id]))).2) := by
  rw [place, List.partition_eq_filter_filter, ← free_release_left, ← waiting_release_left]

theorem mem_joining : id ∈ joining jobs done d ↔
    ∃ j ∈ jobs, j.id = id ∧ (j.after done).isFree = false ∧
    (j.after (done ++ [d])).isFree = true := by
  simp only [joining, List.mem_map, List.mem_filter, Bool.and_eq_true, Bool.not_eq_true', and_assoc]
  exact ⟨fun ⟨j, hj, hbefore, hafter, hid⟩ => ⟨j, hj, hid, hbefore, hafter⟩,
    fun ⟨j, hj, hid, hbefore, hafter⟩ => ⟨j, hj, hbefore, hafter, hid⟩⟩

/-! ## The line -/

/-- First in line are the jobs that wait for nothing. -/
theorem lined_free (hids : (jobs.map (·.id)).Nodup) :
    Lined jobs [] ((jobs.filter (·.isFree)).map (·.id)) where
  nodup := (List.filter_sublist.map _).nodup hids
  known := (List.filter_sublist.map _).subset
  mem_iff j hj := by
    constructor
    · intro hmem
      obtain ⟨k, hk, hid⟩ := List.mem_map.1 hmem
      obtain ⟨hk, hfree⟩ := List.mem_filter.1 hk
      obtain rfl := List.inj_on_of_nodup_map hids hk hj hid
      rwa [← k.after_nil, Job.isFree_after_iff] at hfree
    · intro hnone
      rw [← Job.isFree_after_iff, j.after_nil] at hnone
      exact List.mem_map_of_mem (List.mem_filter.2 ⟨hj, hnone⟩)
  after before id later h := by simp at h

/-- **A turn keeps the line in order.** -/
theorem Lined.next (hids : (jobs.map (·.id)).Nodup) (h : Lined jobs done (id :: line)) :
    Lined jobs (done ++ [id]) (line ++ joining jobs done id) := by
  have hall : done ++ [id] ++ (line ++ joining jobs done id) =
      done ++ id :: line ++ joining jobs done id := by simp
  refine ⟨?_, ?_, fun j hj => ?_, fun before id' later heq d hd => ?_⟩
  · rw [hall]
    refine List.nodup_append.2 ⟨h.nodup, (List.filter_sublist.map _).nodup hids,
      fun a ha b hb hab => ?_⟩
    -- whoever joins was not there yet
    obtain ⟨j, hj, rfl, hbefore, -⟩ := mem_joining.1 hb
    rw [hab, h.mem_iff j hj, ← Job.isFree_after_iff, hbefore] at ha
    cases ha
  · rw [hall]
    exact List.append_subset.2 ⟨h.known, (List.filter_sublist.map _).subset⟩
  · rw [hall, List.mem_append, h.mem_iff j hj, ← Job.isFree_after_iff,
      ← Job.isFree_after_iff, mem_joining]
    constructor
    · rintro (hbefore | ⟨k, hk, hid, -, hafter⟩)
      · exact Job.isFree_after_append hbefore id
      · obtain rfl := List.inj_on_of_nodup_map hids hk hj hid
        exact hafter
    · intro hafter
      cases hbefore : (j.after done).isFree with
      | true => exact .inl rfl
      | false => exact .inr ⟨j, hj, rfl, hbefore, hafter⟩
  · rcases List.eq_nil_or_concat' later with rfl | ⟨later, last, rfl⟩
    · obtain ⟨rfl, hid⟩ := List.append_inj' heq rfl
      obtain ⟨j, hj, rfl, hd⟩ := hd
      exact (h.mem_iff j hj).1 (by simp [List.singleton_inj.1 hid]) d hd
    · have heq' : done ++ [id] = (before ++ id' :: later) ++ [last] := by simpa using heq
      exact h.after before id' later (List.append_inj' heq' rfl).1 d hd

theorem Lined.length_le (h : Lined jobs done line) : (done ++ line).length ≤ jobs.length := by
  have hle := (List.subperm_of_subset h.nodup h.known).length_le
  rwa [List.length_map] at hle

/-- **The line comes to its end**, and what is left then is what waits for something that is not
placed. -/
theorem Lined.place_eq (hids : (jobs.map (·.id)).Nodup) :
    ∀ (fuel : Nat) {done line : List String}, Lined jobs done line →
    jobs.length ≤ done.length + fuel → ∃ placed,
    place fuel line (left jobs done) = (placed, left jobs (done ++ placed)) ∧
      Lined jobs (done ++ placed) []
  | 0, done, line, h, hfuel => by
    have hle := h.length_le
    rw [List.length_append] at hle
    obtain rfl := List.eq_nil_of_length_eq_zero (l := line) (by omega)
    refine ⟨[], ?_, ?_⟩
    · rw [place, List.append_nil]
    · rwa [List.append_nil]
  | fuel + 1, done, [], h, _ => by
    refine ⟨[], ?_, ?_⟩
    · rw [place, List.append_nil]
    · rwa [List.append_nil]
  | fuel + 1, done, id :: line, h, hfuel => by
    obtain ⟨placed, hplace, hlast⟩ := (h.next hids).place_eq hids fuel (by simp; omega)
    refine ⟨id :: placed, ?_, by simpa using hlast⟩
    rw [place_cons, hplace]
    simp

/-! ## The end of the line -/

theorem Lined.nodup_placed (h : Lined jobs placed []) : placed.Nodup := by
  rw [← List.append_nil placed]
  exact h.nodup

theorem Lined.known_placed (h : Lined jobs placed []) : placed ⊆ jobs.map (·.id) := by
  rw [← List.append_nil placed]
  exact h.known

/-- Whatever a placed job waits for has been placed before it. -/
theorem Lined.idxOf_lt (h : Lined jobs placed []) (hid : id ∈ placed) (hd : Needs jobs id d) :
    d ∈ placed ∧ placed.idxOf d < placed.idxOf id := by
  obtain ⟨before, later, rfl⟩ := List.append_of_mem hid
  have hmem := h.after before id later rfl d hd
  have hnot : id ∉ before :=
    fun hbefore =>
      (List.nodup_append.1 h.nodup_placed).2.2 id hbefore id (List.mem_cons_self ..) rfl
  refine ⟨List.mem_append_left _ hmem, ?_⟩
  rw [List.idxOf_append_of_mem hmem, List.idxOf_append_of_notMem hnot,
    List.idxOf_cons_self, Nat.add_zero]
  exact List.idxOf_lt_length_of_mem hmem

theorem Lined.idxOf_lt_of_transGen (h : Lined jobs placed []) (hid : id ∈ placed)
    (hd : TransGen (Needs jobs) id d) :
    d ∈ placed ∧ placed.idxOf d < placed.idxOf id := by
  induction hd with
  | single hd => exact h.idxOf_lt hid hd
  | tail _ hd ih =>
    obtain ⟨hmem, hlt⟩ := h.idxOf_lt ih.1 hd
    exact ⟨hmem, hlt.trans ih.2⟩

/-- A placed job depends on no cycle. -/
theorem Lined.not_cycle (h : Lined jobs placed []) (hid : id ∈ placed) {c : String}
    (hc : ReflTransGen (Needs jobs) id c) :
    ¬ TransGen (Needs jobs) c c := by
  intro hcycle
  have hmem : c ∈ placed := by
    rcases ReflTransGen.cases_head_iff.1 hc with rfl | ⟨b, hb, hbc⟩
    · exact hid
    · exact (h.idxOf_lt_of_transGen hid (.head' hb hbc)).1
  exact Nat.lt_irrefl _ (h.idxOf_lt_of_transGen hmem hcycle).2

theorem mem_left_ids :
    id ∈ (left jobs done).map (·.id) ↔ ∃ j ∈ jobs, j.id = id ∧ ∃ d ∈ j.waitsFor, d ∉ done := by
  have hwaits : ∀ j : Job, (!(j.after done).isFree) = true ↔ ∃ d ∈ j.waitsFor,
      d ∉ done := fun j => by
    rw [Bool.not_eq_true', ← Bool.not_eq_true, Job.isFree_after_iff]
    push Not
    rfl
  simp only [left, List.map_map, List.mem_map, List.mem_filter, Function.comp_apply,
    Job.after] at hwaits ⊢
  simp only [hwaits, and_assoc]
  exact ⟨fun ⟨j, hj, hd, hid⟩ => ⟨j, hj, hid, hd⟩, fun ⟨j, hj, hid, hd⟩ => ⟨j, hj, hd, hid⟩⟩

/-- At the end of the line who is left is who has not been placed. -/
theorem Lined.mem_left_ids_iff (h : Lined jobs placed []) :
    id ∈ (left jobs placed).map (·.id) ↔ id ∈ jobs.map (·.id) ∧ id ∉ placed := by
  have hwaits : ∀ j ∈ jobs, j.id ∉ placed ↔ ∃ d ∈ j.waitsFor, d ∉ placed := fun j hj => by
    have hmem := h.mem_iff j hj
    rw [List.append_nil] at hmem
    rw [hmem]
    push Not
    rfl
  rw [mem_left_ids, List.mem_map]
  constructor
  · rintro ⟨j, hj, rfl, hd⟩
    exact ⟨⟨j, hj, rfl⟩, (hwaits j hj).2 hd⟩
  · rintro ⟨⟨j, hj, rfl⟩, hnot⟩
    exact ⟨j, hj, rfl, (hwaits j hj).1 hnot⟩

/-- Nobody is left just if all have been placed. -/
theorem Lined.left_eq_nil_iff (hids : (jobs.map (·.id)).Nodup) (h : Lined jobs placed []) :
    left jobs placed = [] ↔ placed.Perm (jobs.map (·.id)) := by
  rw [List.perm_ext_iff_of_nodup h.nodup_placed hids, ← List.map_eq_nil_iff (f := Job.id),
    List.eq_nil_iff_forall_not_mem]
  refine forall_congr' fun id => ?_
  rw [h.mem_left_ids_iff]
  constructor
  · exact fun hleft =>
      ⟨fun hid => h.known_placed hid, fun hid => by_contra fun hnot => hleft ⟨hid, hnot⟩⟩
  · exact fun hiff hleft => hleft.2 (hiff.2 hleft.1)

/-- Fewer are placed than there are just if somebody is left. -/
theorem Lined.length_lt_iff (hids : (jobs.map (·.id)).Nodup) (h : Lined jobs placed []) :
    placed.length < jobs.length ↔ left jobs placed ≠ [] := by
  have hlength : (jobs.map (·.id)).length = jobs.length := List.length_map ..
  rw [Ne, h.left_eq_nil_iff hids, ← hlength, ← not_le, not_iff_not]
  exact ⟨(List.subperm_of_subset h.nodup_placed h.known_placed).perm_of_length_le,
    fun hperm => hperm.length_eq.ge⟩

/-- Where all dependencies are known, those that depend on a cycle are left, and only those. -/
theorem Lined.mem_left_iff (h : Lined jobs placed [])
    (hknown : ∀ id d, Needs jobs id d → d ∈ jobs.map (·.id)) :
    id ∈ (left jobs placed).map (·.id) ↔
      ∃ c, ReflTransGen (Needs jobs) id c ∧ TransGen (Needs jobs) c c := by
  constructor
  · refine exists_cycle (s := {id | id ∈ (left jobs placed).map (·.id)})
      (List.finite_toSet _) fun a ha => ?_
    obtain ⟨j, hj, rfl, d, hd, hnot⟩ := mem_left_ids.1 ha
    have hneeds : Needs jobs j.id d := ⟨j, hj, rfl, hd⟩
    exact ⟨d, h.mem_left_ids_iff.2 ⟨hknown _ _ hneeds, hnot⟩, hneeds⟩
  · rintro ⟨c, hc, hcycle⟩
    obtain ⟨d, ⟨j, hj, rfl, -⟩, -⟩ := TransGen.head'_iff.1 (TransGen.trans_right hc hcycle)
    exact h.mem_left_ids_iff.2 ⟨List.mem_map_of_mem hj, fun hmem => h.not_cycle hmem hc hcycle⟩

/-! ## Orders -/

theorem unregistered_iff : (!jobs.any (·.id == d)) = true ↔ d ∉ jobs.map (·.id) := by
  simp [List.mem_map]

theorem unknown?_eq_none_iff :
    unknown? jobs = none ↔ ∀ id d, Needs jobs id d → d ∈ jobs.map (·.id) := by
  simp only [unknown?, List.findSome?_eq_none_iff, Option.map_eq_none_iff, List.find?_eq_none,
    unregistered_iff, not_not]
  exact ⟨fun h id d ⟨j, hj, _, hd⟩ => h j hj d hd, fun h j hj d hd => h j.id d ⟨j, hj, rfl, hd⟩⟩

theorem needs_of_unknown? (h : unknown? jobs = some (id, d)) :
    Needs jobs id d ∧ d ∉ jobs.map (·.id) := by
  obtain ⟨j, hj, hfind⟩ := List.exists_of_findSome?_eq_some h
  obtain ⟨d', hd', heq⟩ := Option.map_eq_some_iff.1 hfind
  obtain ⟨rfl, rfl⟩ := Prod.mk.inj heq
  have hnot : (!jobs.any (·.id == d')) = true :=
    List.find?_some (p := fun d => !jobs.any (·.id == d)) hd'
  exact ⟨⟨j, hj, rfl, List.mem_of_find?_eq_some hd'⟩, unregistered_iff.1 hnot⟩

/-- Where all dependencies are known, jobs are placed until the line has come to its end. -/
theorem order_of_known (hids : (jobs.map (·.id)).Nodup) (hknown : unknown? jobs = none) :
    ∃ placed, Lined jobs placed [] ∧
    order jobs = match left jobs placed with
      | [] => .ok placed
      | stuck => .error (.cycle (stuck.map (·.id))) := by
  obtain ⟨placed, hplace, h⟩ := (lined_free hids).place_eq hids jobs.length (by simp)
  refine ⟨placed, h, ?_⟩
  rw [left_nil] at hplace
  have hwaiting : (jobs.filter (not ∘ (·.isFree))) = jobs.filter fun j => !j.isFree := rfl
  simp only [order, hknown, List.partition_eq_filter_filter, hwaiting, hplace, List.nil_append]
  cases left jobs placed <;> rfl

/-- **There is an order just if every dependency is known and none leads back to where it
began.** -/
theorem order_ok_iff (hids : (jobs.map (·.id)).Nodup) : (∃ ids, order jobs = .ok ids) ↔
    (∀ id d, Needs jobs id d → d ∈ jobs.map (·.id)) ∧ ∀ id, ¬ TransGen (Needs jobs) id id := by
  cases hunknown : unknown? jobs with
  | some missing =>
    obtain ⟨id, d⟩ := missing
    have hnot := needs_of_unknown? hunknown
    simp only [order, hunknown, reduceCtorEq, exists_false, false_iff, not_and]
    exact fun hknown => absurd (hknown id d hnot.1) hnot.2
  | none =>
    have hknown := unknown?_eq_none_iff.1 hunknown
    obtain ⟨placed, h, horder⟩ := order_of_known hids hunknown
    rw [horder]
    cases hleft : left jobs placed with
    | nil =>
      refine iff_of_true ⟨placed, rfl⟩ ⟨hknown, fun id hcycle => ?_⟩
      have hmem := (h.mem_left_iff hknown).2 ⟨id, .refl, hcycle⟩
      rw [hleft] at hmem
      cases hmem
    | cons j stuck =>
      refine iff_of_false (by simp) fun hacyclic => ?_
      have hmem : j.id ∈ (left jobs placed).map (·.id) := by simp [hleft]
      obtain ⟨c, -, hcycle⟩ := (h.mem_left_iff hknown).1 hmem
      exact hacyclic.2 c hcycle

/-- An order holds every job once, each after what it waits for. -/
theorem perm_of_order (hids : (jobs.map (·.id)).Nodup) {ids : List String}
    (h : order jobs = .ok ids) :
    ids.Perm (jobs.map (·.id)) ∧ ∀ before id later, ids = before ++ id :: later → ∀ d,
      Needs jobs id d → d ∈ before := by
  cases hunknown : unknown? jobs with
  | some missing => simp [order, hunknown] at h
  | none =>
    obtain ⟨placed, hlined, horder⟩ := order_of_known hids hunknown
    rw [horder] at h
    split at h
    · rename_i hleft
      obtain rfl := Except.ok.inj h
      exact ⟨(hlined.left_eq_nil_iff hids).1 hleft, hlined.after⟩
    · cases h

/-- A refusal names a dependency that is not known with a job that has it, or else those that depend
on a cycle, and only those. -/
theorem refusal_of_order (hids : (jobs.map (·.id)).Nodup) {e : Refusal}
    (h : order jobs = .error e) :
    (∃ id d, e = .unknownDependency id d ∧ Needs jobs id d ∧ d ∉ jobs.map (·.id)) ∨
    ∃ ids, e = .cycle ids ∧ ids ≠ [] ∧ ∀ id, id ∈ ids ↔
    ∃ c, ReflTransGen (Needs jobs) id c ∧ TransGen (Needs jobs) c c := by
  cases hunknown : unknown? jobs with
  | some missing =>
    obtain ⟨id, d⟩ := missing
    simp only [order, hunknown, Except.error.injEq] at h
    exact .inl ⟨id, d, h.symm, needs_of_unknown? hunknown⟩
  | none =>
    obtain ⟨placed, hlined, horder⟩ := order_of_known hids hunknown
    rw [horder] at h
    split at h
    · cases h
    · rename_i hleft
      obtain rfl := Except.error.inj h
      exact .inr ⟨_, rfl, by simpa using hleft,
        fun id => hlined.mem_left_iff (unknown?_eq_none_iff.1 hunknown)⟩

end

end Schedule

end StateHistory
