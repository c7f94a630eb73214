import StateHistory.Proofs.Analysis.Schedule
import StateHistory.Proofs.Guarded.Basic

/-!
# Guarded schedules

An order of jobs can be found by counting: how many dependencies each job still waits for, a
dependency that is named twice counting twice, and which jobs wait for it, each as often as it names
it. Whenever a job is placed, one is taken from the counts of those that wait for it, and a job
joins the line when nothing is left of its count. No count is ever taken below zero, no job joins
twice, and the line comes to its end: counting goes without a fault and gives the order that jobs
without counts give (`order_eq`).
-/

namespace StateHistory

/-- What is counted of some jobs, each known by its place: what it waits for, and who waits for
it. -/
structure Tally where
  counts : Array Nat
  dependents : Array (List Nat)

namespace Guarded

open Schedule (Needs Lined left joining)

/-! ## Operations -/

/-- Counts some dependencies of the job at place `i`, whose id is `id`. -/
def tallyJob (jobs : List Job) (i : Nat) (id : String) :
    List String → Tally → Guarded (Except Refusal Tally)
  | [], k => .ok (.ok k)
  | d :: rest, k =>
    match jobs.findIdx? (·.id == d) with
    | none => .ok (.error (.unknownDependency id d))
    | some p => do
      let n ← fetch k.counts i
      let waiting ← fetch k.dependents p
      tallyJob jobs i id rest ⟨k.counts.setIfInBounds i (n + 1),
        k.dependents.setIfInBounds p (waiting ++ [i])⟩

/-- Counts the dependencies of the jobs from place `i` on. -/
def tallyFrom (jobs : List Job) : Nat → List Job → Tally → Guarded (Except Refusal Tally)
  | _, [], k => .ok (.ok k)
  | i, j :: rest, k => do
    match ← tallyJob jobs i j.id j.waitsFor k with
    | .ok k => tallyFrom jobs (i + 1) rest k
    | .error e => return .error e

/-- Those of some places at which there is a count with a property. -/
def countedAs (p : Nat → Bool) (counts : Array Nat) : List Nat → Guarded (List Nat)
  | [] => .ok []
  | i :: rest => do
    let n ← fetch counts i
    let found ← countedAs p counts rest
    return if p n then i :: found else found

/-- Takes one from the counts of some jobs, each as often as it is named. Whose count comes to
nothing joins the line. -/
def countDown : List Nat → Array Nat → List Nat → Guarded (Array Nat × List Nat)
  | [], counts, line => .ok (counts, line)
  | i :: rest, counts, line => do
    match ← fetch counts i with
    | 0 => .error .overflow
    | n + 1 => countDown rest (counts.setIfInBounds i n) (if n = 0 then line ++ [i] else line)

/-- Places the jobs of a line and those that join it. -/
def place (dependents : Array (List Nat)) :
    Nat → List Nat → Array Nat → Guarded (List Nat × Array Nat)
  | _, [], counts => .ok ([], counts)
  | 0, _ :: _, _ => .error .endless
  | fuel + 1, i :: line, counts => do
    let (counts, line) ← countDown (← fetch dependents i) counts line
    let (placed, counts) ← place dependents fuel line counts
    return (i :: placed, counts)

/-- The ids of the jobs at some places. -/
def idsAt (jobs : List Job) : List Nat → Guarded (List String)
  | [] => .ok []
  | i :: rest => do return (← fetch jobs.toArray i).id :: (← idsAt jobs rest)

/-- An order of the jobs that keeps their dependencies. -/
def order (jobs : List Job) : Guarded (Except Refusal (List String)) := do
  let places := List.range jobs.length
  match ← tallyFrom jobs 0 jobs ⟨.replicate jobs.length 0, .replicate jobs.length []⟩ with
  | .error e => return .error e
  | .ok k =>
    let line ← countedAs (· == 0) k.counts places
    let (placed, counts) ← place k.dependents jobs.length line k.counts
    if placed.length < jobs.length then
      return .error (.cycle (← idsAt jobs (← countedAs (0 < ·) counts places)))
    else return .ok (← idsAt jobs placed)

/-! ## What is counted -/

/-- The places of the jobs that wait for `id`, each as often as it does. -/
def waiters (id : String) (jobs : List Job) (first : Nat) : List Nat :=
  (jobs.zipIdx first).flatMap fun p => List.replicate (p.1.waitsFor.count id) p.2

/-- The jobs `before` have been counted, and `known` of the dependencies of the next one. -/
structure Tallied (jobs before : List Job) (known : List String) (k : Tally) : Prop where
  counts : ∀ i : Nat, k.counts[i]? = jobs[i]?.map fun j : Job =>
    if i < before.length then j.waitsFor.length else if i = before.length then known.length else 0
  dependents : ∀ p : Nat, k.dependents[p]? = jobs[p]?.map fun j : Job =>
    waiters j.id before 0 ++ List.replicate (known.count j.id) before.length

section
variable {jobs before : List Job} {known : List String} {k : Tally} {j m : Job} {id d : String}
  {p : Nat}

theorem waiters_append (id : String) (before : List Job) (j : Job) :
    waiters id (before ++ [j]) 0 = waiters id before 0 ++ List.replicate
      (j.waitsFor.count id) before.length := by
  simp [waiters, List.zipIdx_append]

theorem tallied_start (jobs : List Job) :
    Tallied jobs [] [] ⟨.replicate jobs.length 0, .replicate jobs.length []⟩ where
  counts i := by
    rw [Array.getElem?_replicate]
    by_cases hi : i < jobs.length <;> simp [hi]
  dependents p := by
    rw [Array.getElem?_replicate]
    by_cases hp : p < jobs.length <;> simp [hp, waiters]

theorem place_unique (hids : (jobs.map (·.id)).Nodup) {q : Nat} (hp : jobs[p]? = some j)
    (hq : jobs[q]? = some m) (hid : j.id = m.id) : p = q := by
  have hlt : p < (jobs.map (·.id)).length := by
    rw [List.length_map]
    exact (List.getElem?_eq_some_iff.1 hp).1
  refine (List.getElem?_inj hlt hids).1 ?_
  rw [List.getElem?_map, List.getElem?_map, hp, hq, Option.map_some, Option.map_some, hid]

/-- A dependency is counted for the job that has it and noted for the one it names. -/
theorem Tallied.one (hids : (jobs.map (·.id)).Nodup) (h : Tallied jobs before known k)
    (hp : jobs[p]? = some m) :
    Tallied jobs before (known ++ [m.id]) ⟨k.counts.setIfInBounds before.length (known.length + 1),
      k.dependents.setIfInBounds p
        (waiters m.id before 0 ++ List.replicate (known.count m.id) before.length ++
        [before.length])⟩ where
  counts i := by
    have hold := h.counts i
    rw [Array.getElem?_setIfInBounds]
    by_cases hi : before.length = i
    · subst hi
      cases hj : jobs[before.length]? with
      | none =>
        rw [hj, Option.map_none, Array.getElem?_eq_none_iff] at hold
        simp [Nat.not_lt.2 hold]
      | some j =>
        rw [hj, Option.map_some] at hold
        simp [(Array.getElem?_eq_some_iff.1 hold).1]
    · rw [if_neg hi, hold]
      simp only [Ne.symm hi, ↓reduceIte]
  dependents q := by
    have hold := h.dependents q
    rw [Array.getElem?_setIfInBounds]
    by_cases hq : p = q
    · subst hq
      rw [hp, Option.map_some] at hold
      simp [hp, (Array.getElem?_eq_some_iff.1 hold).1, List.replicate_succ', List.append_assoc]
    · rw [if_neg hq, hold]
      cases hj : jobs[q]? with
      | none => rfl
      | some j =>
        have hne : m.id ≠ j.id := fun hid => hq (place_unique hids hp hj hid)
        simp [List.count_singleton, hne]

theorem Tallied.next (h : Tallied jobs before j.waitsFor k) (hj : jobs[before.length]? = some j) :
    Tallied jobs (before ++ [j]) [] k where
  counts i := by
    rw [h.counts, List.length_append, List.length_singleton]
    by_cases hi : i = before.length
    · subst hi
      simp [hj]
    · have hlt : i < before.length + 1 ↔ i < before.length := by omega
      simp [hi, hlt]
  dependents p := by
    rw [h.dependents]
    simp only [waiters_append, List.count_nil, List.replicate_zero, List.append_nil]

theorem findIdx?_id_eq_none (h : d ∉ jobs.map (·.id)) : jobs.findIdx? (·.id == d) = none := by
  rw [List.findIdx?_eq_none_iff]
  intro j hj
  exact beq_eq_false_iff_ne.2 fun hid => h (hid ▸ List.mem_map_of_mem hj)

theorem exists_of_findIdx?_id (h : d ∈ jobs.map (·.id)) :
    ∃ p m, jobs.findIdx? (·.id == d) = some p ∧ jobs[p]? = some m ∧ m.id = d := by
  obtain ⟨j, hj, hid⟩ := List.mem_map.1 h
  have hany : jobs.any (·.id == d) = true := List.any_eq_true.2 ⟨j, hj, beq_iff_eq.2 hid⟩
  obtain ⟨p, hp⟩ := Option.isSome_iff_exists.1 (List.findIdx?_isSome.trans hany)
  obtain ⟨hlt, hm, -⟩ := List.findIdx?_eq_some_iff_getElem.1 hp
  exact ⟨p, jobs[p], hp, List.getElem?_eq_getElem hlt, by simpa using hm⟩

/-- All dependencies of a job are counted, up to the first that is not known. -/
theorem tallyJob_eq (hids : (jobs.map (·.id)).Nodup) (hj : jobs[before.length]? = some j)
    (id : String) :
    ∀ (ds : List String) {known : List String} {k : Tally}, Tallied jobs before known k →
      match ds.find? fun d => !jobs.any (·.id == d) with
      | some d => tallyJob jobs before.length id ds k = .ok (.error (.unknownDependency id d))
      | none =>
        ∃ k', tallyJob jobs before.length id ds k = .ok (.ok k') ∧
        Tallied jobs before (known ++ ds) k'
  | [], known, k, h => ⟨k, rfl, by rwa [List.append_nil]⟩
  | d :: ds, known, k, h => by
    rw [List.find?_cons]
    by_cases hd : d ∈ jobs.map (·.id)
    · obtain ⟨p, m, hp, hm, rfl⟩ := exists_of_findIdx?_id hd
      have hknown : (!jobs.any (·.id == m.id)) = false := by
        rw [← Bool.not_eq_true, Schedule.unregistered_iff, not_not]
        exact hd
      have hcount : k.counts[before.length]? = some known.length := by simp [h.counts, hj]
      have hdependents := h.dependents p
      rw [hm, Option.map_some] at hdependents
      obtain ⟨k', hone, hstep⟩ : ∃ k', Tallied jobs before (known ++ [m.id]) k' ∧
          tallyJob jobs before.length id (m.id :: ds) k = tallyJob jobs before.length id ds k' := by
        refine ⟨_, h.one hids hm, ?_⟩
        rw [tallyJob, hp]
        simp only [fetch_of_getElem? hcount, fetch_of_getElem? hdependents]
        rfl
      have hrest := tallyJob_eq hids hj id ds hone
      rw [List.append_assoc] at hrest
      rw [hknown, hstep]
      exact hrest
    · rw [Schedule.unregistered_iff.2 hd]
      rw [tallyJob, findIdx?_id_eq_none hd]

/-- All jobs are counted, up to the first with a dependency that is not known. -/
theorem tallyFrom_eq (hids : (jobs.map (·.id)).Nodup) :
    ∀ {rest before : List Job} {k : Tally}, before ++ rest = jobs →
    Tallied jobs before [] k →
      match rest.findSome? fun j =>
        (j.waitsFor.find? fun d => !jobs.any (·.id == d)).map (j.id, ·) with
      | some (id, d) => tallyFrom jobs before.length rest k = .ok (.error (.unknownDependency id d))
      | none => ∃ k', tallyFrom jobs before.length rest k = .ok (.ok k') ∧ Tallied jobs jobs [] k'
  | [], before, k, hjobs, h => by
    rw [List.append_nil] at hjobs
    exact ⟨k, rfl, hjobs ▸ h⟩
  | j :: rest, before, k, hjobs, h => by
    have hj : jobs[before.length]? = some j := by simp [← hjobs]
    have hjob := tallyJob_eq hids hj j.id j.waitsFor h
    rw [List.findSome?_cons]
    cases hfind : j.waitsFor.find? fun d => !jobs.any (·.id == d) with
    | some d =>
      rw [hfind] at hjob
      simp only [Option.map_some, tallyFrom, hjob]
      rfl
    | none =>
      rw [hfind] at hjob
      obtain ⟨k', hk', htallied⟩ := hjob
      have hstep : tallyFrom jobs before.length (j :: rest) k =
          tallyFrom jobs (before ++ [j]).length rest k' := by
        simp only [tallyFrom, hk', List.length_append, List.length_singleton]
        rfl
      rw [Option.map_none, hstep]
      exact tallyFrom_eq hids (by simp [hjobs]) (htallied.next hj)

end

/-! ## Places and ids -/

/-- At the places stand the jobs with the ids. -/
def Stand (jobs : List Job) (places : List Nat) (ids : List String) : Prop :=
  places.map (fun p : Nat => jobs[p]?.map (·.id)) = ids.map some

section
variable {jobs : List Job} {places : List Nat} {ids done line : List String} {id : String} {i : Nat}
  {counts : Array Nat}

theorem Stand.append {more : List Nat} {others : List String} (h : Stand jobs places ids)
    (h' : Stand jobs more others) :
    Stand jobs (places ++ more) (ids ++ others) := by
  rw [Stand, List.map_append, List.map_append, h, h']

theorem stand_filter (jobs : List Job) (P : Job → Bool) :
    Stand jobs ((jobs.zipIdx.filter fun p => P p.1).map (·.2)) ((jobs.filter P).map (·.id)) := by
  have hfilter : jobs.filter P = (jobs.zipIdx.filter fun p => P p.1).map (·.1) := by
    conv_lhs => rw [← List.zipIdx_map_fst 0 jobs, List.filter_map]
    rfl
  rw [Stand, hfilter]
  simp only [List.map_map]
  refine List.map_congr_left fun p hp => ?_
  have hget := List.mem_zipIdx_iff_getElem?.1 (List.mem_of_mem_filter hp)
  simp [hget]

theorem idsAt_eq :
    ∀ {places : List Nat} {ids : List String}, Stand jobs places ids → idsAt jobs places = .ok ids
  | [], ids, h => by
    obtain rfl := List.map_eq_nil_iff.1 h.symm
    rfl
  | p :: places, [], h => by cases h
  | p :: places, id :: ids, h => by
    obtain ⟨hp, hrest⟩ := List.cons.inj h
    obtain ⟨j, hj, rfl⟩ := Option.map_eq_some_iff.1 hp
    have hfetch : fetch jobs.toArray p = .ok j := fetch_of_getElem? (by rwa [List.getElem?_toArray])
    rw [idsAt, hfetch, idsAt_eq hrest]
    rfl

/-! ## Counting down -/

/-- The counts are those of the dependencies that have not been placed. -/
def Counts (jobs : List Job) (done : List String) (counts : Array Nat) : Prop :=
  ∀ i : Nat, counts[i]? = jobs[i]?.map fun j : Job => (j.after done).waitsFor.length

/-- The jobs `before` have had `id` taken from their counts, as often as they name it, and the
others have not yet. -/
def CountsPast (jobs before : List Job) (done : List String) (id : String) (counts : Array Nat) :
    Prop :=
  ∀ i : Nat, counts[i]? = jobs[i]?.map fun j : Job =>
    (j.after (if i < before.length then done ++ [id] else done)).waitsFor.length

theorem countDown_replicate :
    ∀ {m : Nat} {counts : Array Nat} {c : Nat} {line rest : List Nat}, counts[i]? = some c → m ≤ c →
    countDown (List.replicate m i ++ rest) counts line =
      countDown rest (counts.setIfInBounds i (c - m)) (if 0 < m ∧ c = m then line ++ [i] else line)
  | 0, counts, c, line, rest, hc, _ => by
    have hsame : counts.setIfInBounds i c = counts := by
      refine Array.ext_getElem? fun k => ?_
      rw [Array.getElem?_setIfInBounds]
      split
      · rename_i hk
        rw [← hk, if_pos (Array.getElem?_eq_some_iff.1 hc).1, hc]
      · rfl
    simp [hsame]
  | m + 1, counts, 0, line, rest, _, hm => absurd hm (Nat.not_succ_le_zero m)
  | m + 1, counts, c + 1, line, rest, hc, hm => by
    have hlt := (Array.getElem?_eq_some_iff.1 hc).1
    have hset : (counts.setIfInBounds i c)[i]? = some c := by simp [hlt]
    have hstep : countDown (List.replicate (m + 1) i ++ rest) counts line =
      countDown (List.replicate m i ++ rest)
        (counts.setIfInBounds i c) (if c = 0 then line ++ [i] else line) := by
      rw [List.replicate_succ, List.cons_append, countDown, fetch_of_getElem? hc]
      rfl
    rw [hstep, countDown_replicate hset (Nat.le_of_succ_le_succ hm),
      Array.setIfInBounds_setIfInBounds, Nat.add_sub_add_right]
    congr 1
    by_cases hcm : c = m
    · by_cases hzero : m = 0
      · simp [hcm, hzero]
      · simp [hcm, hzero, Nat.pos_of_ne_zero hzero]
    · have hc0 : c ≠ 0 := by omega
      simp [hcm, hc0]

theorem CountsPast.start (h : Counts jobs done counts) (id : String) :
    CountsPast jobs [] done id counts := h

theorem CountsPast.toCounts (h : CountsPast jobs jobs done id counts) :
    Counts jobs (done ++ [id]) counts := fun i => by
  rw [h]
  cases hj : jobs[i]? with
  | none => rfl
  | some j => simp [(List.getElem?_eq_some_iff.1 hj).1]

theorem CountsPast.next {before : List Job} {j : Job} (h : CountsPast jobs before done id counts)
    (hj : jobs[before.length]? = some j) : CountsPast jobs (before ++ [j]) done id
      (counts.setIfInBounds before.length (j.after (done ++ [id])).waitsFor.length) := fun i => by
  have hold := h i
  rw [Array.getElem?_setIfInBounds]
  by_cases hi : before.length = i
  · subst hi
    rw [hj, Option.map_some] at hold
    simp [hj, (Array.getElem?_eq_some_iff.1 hold).1]
  · have hlt : i < before.length + 1 ↔ i < before.length := by omega
    simp [hi, hold, hlt]

/-- **No count is taken below zero**, and each job joins the line when its count comes to
nothing. -/
theorem countDown_waiters (hid : id ∉ done) :
    ∀ (rest before : List Job) {counts : Array Nat} (line : List Nat),
    before ++ rest = jobs → CountsPast jobs before done id counts →
    ∃ counts', countDown (waiters id rest before.length) counts line = .ok (counts', line ++
      ((rest.zipIdx before.length).filter fun p => !(p.1.after done).isFree &&
        (p.1.after (done ++ [id])).isFree).map (·.2)) ∧
      Counts jobs (done ++ [id]) counts'
  | [], before, counts, line, hjobs, h => by
    rw [List.append_nil] at hjobs
    subst hjobs
    exact ⟨counts, by simp [waiters, countDown], h.toCounts⟩
  | j :: rest, before, counts, line, hjobs, h => by
    have hj : jobs[before.length]? = some j := by simp [← hjobs]
    have hc : counts[before.length]? = some (j.after done).waitsFor.length := by
      simp [h before.length, hj]
    have hwaiters : waiters id (j :: rest) before.length =
        List.replicate (j.waitsFor.count id) before.length ++ waiters id rest
          (before ++ [j]).length := by
      simp [waiters, List.zipIdx_cons]
    have hlength := j.length_after hid
    have hsub : (j.after done).waitsFor.length - j.waitsFor.count id =
        (j.after (done ++ [id])).waitsFor.length := by omega
    have hjoins : (0 < j.waitsFor.count id ∧ (j.after done).waitsFor.length = j.waitsFor.count id) ↔
        (!(j.after done).isFree && (j.after (done ++ [id])).isFree) = true := by
      rw [Bool.and_eq_true, Bool.not_eq_true', ← Bool.not_eq_true, Job.isFree_iff_length,
        Job.isFree_iff_length]
      omega
    rw [hwaiters, countDown_replicate hc (by omega), hsub]
    obtain ⟨counts', hdown, hcounts⟩ := countDown_waiters hid rest (before ++ [j])
      (if 0 < j.waitsFor.count id ∧
        (j.after done).waitsFor.length = j.waitsFor.count id then line ++ [before.length] else line)
      (by simpa using hjobs) (h.next hj)
    refine ⟨counts', hdown.trans ?_, hcounts⟩
    rw [List.zipIdx_cons, List.filter_cons, List.length_append, List.length_singleton]
    simp only [hjoins]
    split <;> simp_all

/-! ## Placing -/

theorem countedAs_eq (P : Nat → Bool) (h : Counts jobs done counts) :
    ∀ (rest before : List Job), before ++ rest = jobs →
    countedAs P counts (List.range' before.length rest.length) =
      .ok (((rest.zipIdx before.length).filter fun p => P (p.1.after done).waitsFor.length).map
        (·.2))
  | [], _, _ => rfl
  | j :: rest, before, hjobs => by
    have hc : counts[before.length]? = some (j.after done).waitsFor.length := by
      simp [h before.length, ← hjobs]
    have hrest := countedAs_eq P h rest (before ++ [j]) (by simpa using hjobs)
    rw [List.length_append, List.length_singleton] at hrest
    rw [List.length_cons, List.range'_succ, countedAs, fetch_of_getElem? hc, hrest,
      List.zipIdx_cons, List.filter_cons]
    simp only [bind, Except.bind, pure, Except.pure]
    split <;> rfl

/-- The jobs whose counts have a property are found at their places. -/
theorem exists_countedAs (P : Nat → Bool) (h : Counts jobs done counts) :
    ∃ places, countedAs P counts (List.range jobs.length) = .ok places ∧
      Stand jobs places ((jobs.filter fun j => P (j.after done).waitsFor.length).map (·.id)) := by
  have hcounted := countedAs_eq P h jobs [] rfl
  rw [List.length_nil, ← List.range_eq_range'] at hcounted
  exact ⟨_, hcounted, stand_filter jobs fun j => P (j.after done).waitsFor.length⟩

/-- First in line are the jobs with a count of zero. -/
theorem exists_countedAs_zero (h : Counts jobs [] counts) :
    ∃ places, countedAs (· == 0) counts (List.range jobs.length) = .ok places ∧
      Stand jobs places ((jobs.filter (·.isFree)).map (·.id)) := by
  have hfree : (jobs.filter fun j => (j.after []).waitsFor.length == 0) = jobs.filter (·.isFree) :=
    List.filter_congr fun j _ => by
      rw [Job.after_nil, Bool.eq_iff_iff, beq_iff_eq, Job.isFree_iff_length]
  obtain ⟨places, hplaces, hstand⟩ := exists_countedAs (· == 0) h
  exact ⟨places, hplaces, hfree ▸ hstand⟩

/-- Left are the jobs with a count above zero. -/
theorem exists_countedAs_pos (h : Counts jobs done counts) :
    ∃ places, countedAs (0 < ·) counts (List.range jobs.length) = .ok places ∧
      Stand jobs places ((left jobs done).map (·.id)) := by
  have hwaits : ∀ j : Job, decide (0 < j.waitsFor.length) = !j.isFree := fun j => by
    rw [Bool.eq_iff_iff, decide_eq_true_iff, Bool.not_eq_true', ← Bool.not_eq_true,
      Job.isFree_iff_length, Nat.pos_iff_ne_zero]
  obtain ⟨places, hplaces, hstand⟩ := exists_countedAs (0 < ·) h
  simp only [hwaits] at hstand
  refine ⟨places, hplaces, ?_⟩
  rwa [left, List.map_map]

/-- **Counting places the jobs as they are placed without counts**, and comes to no fault. -/
theorem place_eq (hids : (jobs.map (·.id)).Nodup) {dependents : Array (List Nat)}
    (hdependents : ∀ p : Nat, dependents[p]? = jobs[p]?.map fun j : Job => waiters j.id jobs 0) :
    ∀ (fuel : Nat) {done line : List String} {places : List Nat} {counts : Array Nat},
      Lined jobs done line →
      Stand jobs places line → Counts jobs done counts → jobs.length ≤ done.length + fuel →
      let placed := (Schedule.place fuel line (left jobs done)).1
      ∃ at' counts', place dependents fuel places counts = .ok (at', counts') ∧
        Stand jobs at' placed ∧
        Counts jobs (done ++ placed) counts'
  | fuel, done, [], places, counts, _, hstand, hcounts, _ => by
    obtain rfl := List.map_eq_nil_iff.1 hstand
    refine ⟨[], counts, ?_, ?_, ?_⟩
    · cases fuel <;> rfl
    · cases fuel <;> rfl
    · cases fuel <;> simpa [Schedule.place] using hcounts
  | fuel, done, id :: line, [], counts, _, hstand, _, _ => by cases hstand
  | 0, done, id :: line, p :: places, counts, hlined, _, _, hfuel => by
    have hle := hlined.length_le
    simp only [List.length_append, List.length_cons] at hle
    omega
  | fuel + 1, done, id :: line, p :: places, counts, hlined, hstand, hcounts, hfuel => by
    -- the head of the line is at the head of the places
    obtain ⟨hp, hrest⟩ := List.cons.inj hstand
    obtain ⟨j, hj, rfl⟩ := Option.map_eq_some_iff.1 hp
    have hnew : j.id ∉ done := fun hdone =>
      (List.nodup_append.1 hlined.nodup).2.2 _ hdone _ (List.mem_cons_self ..) rfl
    have hwaiters : dependents[p]? = some (waiters j.id jobs 0) := by
      rw [hdependents, hj, Option.map_some]
    obtain ⟨counts₁, hdown, hcounts₁⟩ :=
      countDown_waiters hnew jobs [] places (List.nil_append jobs) (.start hcounts j.id)
    rw [List.length_nil] at hdown
    -- those whose counts come to nothing are those who have waited for it last
    have hjoined := stand_filter jobs fun m =>
      !(m.after done).isFree && (m.after (done ++ [j.id])).isFree
    obtain ⟨at', counts', hplace, hat, hcounts'⟩ := place_eq hids hdependents fuel
      (hlined.next hids) (Stand.append hrest hjoined) hcounts₁ (by simp; omega)
    rw [Schedule.place_cons]
    refine ⟨p :: at', counts', ?_, ?_, ?_⟩
    · rw [place, fetch_of_getElem? hwaiters]
      simp only [bind, Except.bind, hdown, hplace, pure, Except.pure]
    · rw [Stand, List.map_cons, List.map_cons, hat, hj]
      rfl
    · simpa using hcounts'

/-- Once all jobs have been counted, nothing has been placed. -/
theorem Tallied.counts_nil {k : Tally} (h : Tallied jobs jobs [] k) : Counts jobs [] k.counts :=
  fun i => by
  rw [h.counts]
  cases hj : jobs[i]? with
  | none => rfl
  | some j => simp [(List.getElem?_eq_some_iff.1 hj).1, Job.after_nil]

/-- **Counting gives the same order**, or refuses the jobs for the same reason, without a fault. -/
theorem order_eq (hids : (jobs.map (·.id)).Nodup) : order jobs = .ok (Schedule.order jobs) := by
  have htally := tallyFrom_eq hids (List.nil_append jobs) (tallied_start jobs)
  rw [List.length_nil] at htally
  cases hunknown : Schedule.unknown? jobs with
  | some missing =>
    obtain ⟨id, d⟩ := missing
    rw [Schedule.unknown?] at hunknown
    rw [hunknown] at htally
    rw [order, htally, Schedule.order, Schedule.unknown?, hunknown]
    rfl
  | none =>
    have hfind := hunknown
    rw [Schedule.unknown?] at hfind
    rw [hfind] at htally
    obtain ⟨k, hk, htallied⟩ := htally
    have hdependents : ∀ p : Nat, k.dependents[p]? = jobs[p]?.map fun j : Job =>
        waiters j.id jobs 0 := fun p => by
      simp [htallied.dependents]
    obtain ⟨line, hline, hfree⟩ := exists_countedAs_zero htallied.counts_nil
    obtain ⟨placed, hplaced, hlined⟩ :=
      (Schedule.lined_free hids).place_eq hids jobs.length (by simp)
    obtain ⟨at', counts, hat, hstand, hcounts⟩ :=
      place_eq hids hdependents jobs.length (Schedule.lined_free hids) hfree
      htallied.counts_nil (by simp)
    rw [hplaced] at hstand hcounts
    rw [Schedule.left_nil] at hplaced
    rw [List.nil_append] at hplaced hlined hcounts
    obtain ⟨waiting, hwaiting, hstuck⟩ := exists_countedAs_pos hcounts
    have hlength : at'.length = placed.length := by simpa using congrArg List.length hstand
    have hnot : (jobs.filter (not ∘ (·.isFree))) = jobs.filter fun j => !j.isFree := rfl
    simp only [order, hk, bind, Except.bind, pure, Except.pure, hline, hat, hlength, hwaiting,
      idsAt_eq hstand, idsAt_eq hstuck]
    simp only [Schedule.order, hunknown, List.partition_eq_filter_filter, hnot, hplaced,
      hlined.length_lt_iff hids]
    cases left jobs placed <;> rfl

end

end Guarded

end StateHistory
