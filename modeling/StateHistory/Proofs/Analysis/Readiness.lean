import StateHistory.Proofs.Analysis.Orders

/-!
# First ready, first placed

Whoever waits for nothing more joins the line at its end. So analyses are placed in the order in
which they get ready, and those that get ready at once in the order of their registration
(`pairwise_of_order`); no other order of them does the same (`eq_of_pairwise`). That is not the
order of registration among all that are ready: one that was registered early but gets ready late is
overtaken by those that stand in line already, and by nothing else (`order_by_readiness`).
-/

namespace StateHistory

namespace Schedule

/-- How many have been placed once all that `id` waits for have been. -/
def readyAt (jobs : List Job) (ids : List String) (id : String) : Nat :=
  ((jobs.filter (·.id == id)).flatMap (·.waitsFor)).foldr (fun d n => max (ids.idxOf d + 1) n) 0

/-- The place of `id` in the order of registration. -/
def placeOf (jobs : List Job) (id : String) : Nat := (jobs.map (·.id)).idxOf id

/-- `a` gets ready before `b`, or together with it and was registered before it. -/
def Sooner (jobs : List Job) (ids : List String) (a b : String) : Prop :=
  readyAt jobs ids a < readyAt jobs ids b ∨ readyAt jobs ids a = readyAt jobs ids b ∧
    placeOf jobs a < placeOf jobs b

section
variable {jobs : List Job} {done line ids ids' more : List String} {id a b d : String} {k : Nat}

/-! ## Getting ready -/

theorem foldr_max_le_iff {ds : List String} :
    ds.foldr (fun d n => max (ids.idxOf d + 1) n) 0 ≤ k ↔ ∀ d ∈ ds, ids.idxOf d < k := by
  induction ds with
  | nil => simp
  | cons d ds ih => rw [List.foldr_cons, Nat.max_le, ih, List.forall_mem_cons, Nat.succ_le_iff]

theorem readyAt_le_iff : readyAt jobs ids id ≤ k ↔ ∀ d, Needs jobs id d → ids.idxOf d < k := by
  rw [readyAt, foldr_max_le_iff]
  simp only [List.mem_flatMap, List.mem_filter, beq_iff_eq, Needs]
  exact ⟨fun h d ⟨j, hj, hid, hd⟩ => h d ⟨j, ⟨hj, hid⟩, hd⟩,
    fun h d ⟨j, ⟨hj, hid⟩, hd⟩ => h d ⟨j, hj, hid, hd⟩⟩

/-- Whatever is placed later changes nothing for one whose dependencies have been placed. -/
theorem readyAt_append (h : ∀ d, Needs jobs id d → d ∈ done) (more : List String) :
    readyAt jobs (done ++ more) id = readyAt jobs done id := by
  refine eq_of_forall_ge_iff fun k => ?_
  rw [readyAt_le_iff, readyAt_le_iff]
  refine forall₂_congr fun d hd => ?_
  rw [List.idxOf_append_of_mem (h d hd)]

theorem readyAt_le_length (h : ∀ d, Needs jobs id d → d ∈ done) :
    readyAt jobs done id ≤ done.length :=
  readyAt_le_iff.2 fun d hd => List.idxOf_lt_length_of_mem (h d hd)

/-- Who joins the line gets ready with the one that has just been placed. -/
theorem readyAt_of_joining (hids : (jobs.map (·.id)).Nodup) (ha : a ∈ joining jobs done id) :
    (∀ d, Needs jobs a d → d ∈ done ++ [id]) ∧ readyAt jobs (done ++ [id]) a = done.length + 1 := by
  obtain ⟨j, hj, rfl, hbefore, hafter⟩ := mem_joining.1 ha
  have hneeds : ∀ d, Needs jobs j.id d ↔ d ∈ j.waitsFor := by
    refine fun d => ⟨fun ⟨k, hk, hid, hd⟩ => ?_, fun hd => ⟨j, hj, rfl, hd⟩⟩
    obtain rfl := List.inj_on_of_nodup_map hids hk hj hid
    exact hd
  have hplaced : ∀ d, Needs jobs j.id d → d ∈ done ++ [id] := fun d hd =>
    Job.isFree_after_iff.1 hafter d ((hneeds d).1 hd)
  refine ⟨hplaced, Nat.le_antisymm ?_ ?_⟩
  · simpa using readyAt_le_length hplaced
  · -- one of the dependencies had not been placed before
    by_contra hlt
    have hall := readyAt_le_iff.1 (Nat.le_of_lt_succ (Nat.lt_of_not_le hlt))
    rw [← Bool.not_eq_true, Job.isFree_after_iff] at hbefore
    refine hbefore fun d hd => by_contra fun hnot => ?_
    have hlate := hall d ((hneeds d).2 hd)
    rw [List.idxOf_append_of_notMem hnot] at hlate
    omega

/-! ## The line -/

theorem pairwise_placeOf (hids : (jobs.map (·.id)).Nodup) :
    (jobs.map (·.id)).Pairwise fun a b => placeOf jobs a < placeOf jobs b := by
  refine List.pairwise_iff_getElem.2 fun i j hi hj hij => ?_
  rwa [placeOf, placeOf, hids.idxOf_getElem, hids.idxOf_getElem]

/-- Those that stand in line and have been placed stand in the order in which they got ready. -/
def InTurn (jobs : List Job) (done line : List String) : Prop :=
  (done ++ line).Pairwise (Sooner jobs done)

/-- Those that wait for nothing are ready together. -/
theorem inTurn_free (hids : (jobs.map (·.id)).Nodup) :
    InTurn jobs [] ((jobs.filter (·.isFree)).map (·.id)) := by
  have hlined := lined_free hids
  have hready : ∀ a ∈ (jobs.filter (·.isFree)).map (·.id), readyAt jobs [] a = 0 := by
    intro a ha
    have hnone : ∀ d, Needs jobs a d → d ∈ ([] : List String) :=
      fun d ⟨j, hj, hid, hd⟩ => (hlined.mem_iff j hj).1 (hid ▸ ha) d hd
    exact Nat.le_zero.1 (readyAt_le_length hnone)
  refine ((pairwise_placeOf hids).sublist (List.filter_sublist.map _)).imp_of_mem fun ha hb hlt =>
    ?_
  exact .inr ⟨(hready _ ha).trans (hready _ hb).symm, hlt⟩

/-- Those in line have had all they wait for placed. -/
theorem Lined.placed_of_mem (h : Lined jobs done line) (ha : a ∈ done ++ line)
    (hd : Needs jobs a d) : d ∈ done := by
  obtain ⟨j, hj, rfl, hd⟩ := hd
  exact (h.mem_iff j hj).1 ha d hd

/-- **A turn keeps the line in the order of getting ready.** -/
theorem Lined.inTurn_next (hids : (jobs.map (·.id)).Nodup) (h : Lined jobs done (id :: line))
    (hturn : InTurn jobs done (id :: line)) :
    InTurn jobs (done ++ [id]) (line ++ joining jobs done id) := by
  have hold : ∀ a ∈ done ++ id :: line, readyAt jobs (done ++ [id]) a = readyAt jobs done a :=
    fun a ha => readyAt_append (fun d => h.placed_of_mem ha) [id]
  have hall : done ++ [id] ++ (line ++ joining jobs done id) =
      (done ++ id :: line) ++ joining jobs done id := by simp
  rw [InTurn, hall, List.pairwise_append]
  refine ⟨hturn.imp_of_mem fun ha hb hab => ?_, ?_, fun a ha b hb => .inl ?_⟩
  · rwa [Sooner, hold _ ha, hold _ hb]
  · refine ((pairwise_placeOf hids).sublist (List.filter_sublist.map _)).imp_of_mem fun ha hb hlt =>
      ?_
    exact .inr ⟨(readyAt_of_joining hids ha).2.trans (readyAt_of_joining hids hb).2.symm, hlt⟩
  · rw [hold a ha, (readyAt_of_joining hids hb).2]
    exact Nat.lt_succ_of_le (readyAt_le_length fun d => h.placed_of_mem ha)

/-- Jobs are placed in the order in which they get ready. -/
theorem Lined.pairwise_place (hids : (jobs.map (·.id)).Nodup) :
    ∀ (fuel : Nat) {done line : List String}, Lined jobs done line →
    InTurn jobs done line → let placed := done ++ (place fuel line (left jobs done)).1
    placed.Pairwise (Sooner jobs placed)
  | 0, done, line, _, hturn => by
    simpa [place] using hturn.sublist (List.sublist_append_left done line)
  | fuel + 1, done, [], _, hturn => by
    simpa [place, InTurn] using hturn
  | fuel + 1, done, id :: line, h, hturn => by
    have hrest := (h.next hids).pairwise_place hids fuel (h.inTurn_next hids hturn)
    rw [place_cons]
    simpa using hrest

/-! ## Orders -/

theorem eq_place_of_order (h : order jobs = .ok ids) :
    ids = (place jobs.length ((jobs.filter (·.isFree)).map (·.id)) (left jobs [])).1 := by
  have hwaiting : (jobs.filter (not ∘ (·.isFree))) = left jobs [] := (left_nil jobs).symm
  unfold order at h
  split at h
  · cases h
  · simp only [List.partition_eq_filter_filter, hwaiting] at h
    generalize place jobs.length ((jobs.filter (·.isFree)).map (·.id)) (left jobs []) =
      result at h ⊢
    obtain ⟨placed, stuck⟩ := result
    cases stuck with
    | nil => exact (Except.ok.inj h).symm
    | cons j stuck => cases h

/-- **An order is the order of getting ready**, and of registration among those that get ready at
once. -/
theorem pairwise_of_order (hids : (jobs.map (·.id)).Nodup) (h : order jobs = .ok ids) :
    ids.Pairwise (Sooner jobs ids) := by
  rw [eq_place_of_order h]
  simpa using (lined_free hids).pairwise_place hids jobs.length (inTurn_free hids)

/-- Two orders with one beginning go on with the same job. -/
theorem head_eq_of_pairwise {before later later' : List String}
    (hpair : (before ++ a :: later).Pairwise (Sooner jobs (before ++ a :: later)))
    (hpair' : (before ++ b :: later').Pairwise (Sooner jobs (before ++ b :: later')))
    (ha : ∀ d, Needs jobs a d → d ∈ before) (hb : ∀ d, Needs jobs b d → d ∈ before)
    (hmem : b ∈ a :: later) (hmem' : a ∈ b :: later') : a = b := by
  by_contra hne
  have hab : Sooner jobs (before ++ a :: later) a b :=
    (List.pairwise_cons.1 (List.pairwise_append.1 hpair).2.1).1 b
      ((List.mem_cons.1 hmem).resolve_left (Ne.symm hne))
  have hba : Sooner jobs (before ++ b :: later') b a :=
    (List.pairwise_cons.1 (List.pairwise_append.1 hpair').2.1).1 a
      ((List.mem_cons.1 hmem').resolve_left hne)
  rw [Sooner, readyAt_append ha, readyAt_append hb] at hab hba
  omega

/-- **No other order is the order of getting ready.** -/
theorem eq_of_pairwise (hids : ids.Nodup) (hperm : ids'.Perm ids)
    (hbefore : ∀ before id later, ids = before ++ id :: later → ∀ d, Needs jobs id d → d ∈ before)
    (hbefore' : ∀ before id later, ids' = before ++ id :: later → ∀ d, Needs jobs id d → d ∈ before)
    (hpair : ids.Pairwise (Sooner jobs ids)) (hpair' : ids'.Pairwise (Sooner jobs ids')) :
    ids' = ids := by
  -- from what both begin with on
  suffices hrest : ∀ (later before later' : List String), ids = before ++ later →
      ids' = before ++ later' → later' = later by
    exact hrest ids [] ids' rfl rfl
  intro later
  induction later with
  | nil =>
    intro before later' heq heq'
    have hlength := hperm.length_eq
    rw [heq, heq', List.length_append, List.length_append] at hlength
    exact List.eq_nil_of_length_eq_zero (by simpa using hlength)
  | cons a later ih =>
    intro before later' heq heq'
    have hsame : later'.Perm (a :: later) :=
      (List.perm_append_left_iff before).1 (heq ▸ heq' ▸ hperm)
    cases later' with
    | nil => exact absurd hsame.length_eq (by simp)
    | cons b later' =>
      have hab : a = b := by
        subst heq heq'
        exact head_eq_of_pairwise hpair hpair' (hbefore _ _ _ rfl) (hbefore' _ _ _ rfl)
          (hsame.subset (List.mem_cons_self ..)) (hsame.symm.subset (List.mem_cons_self ..))
      subst hab
      rw [ih (before ++ [a]) later' (by simp [heq]) (by simp [heq'])]

/-! ## Overtaking -/

theorem mem_of_idxOf_lt {before later : List String}
    (h : (before ++ later).idxOf d < before.length) : d ∈ before := by
  by_contra hnot
  rw [List.idxOf_append_of_notMem hnot] at h
  omega

theorem idxOf_of_nodup {before later : List String} (hids : (before ++ a :: later).Nodup) :
    (before ++ a :: later).idxOf a = before.length := by
  have hnot : a ∉ before := fun ha =>
    (List.nodup_append.1 hids).2.2 a ha a (List.mem_cons_self ..) rfl
  rw [List.idxOf_append_of_notMem hnot, List.idxOf_cons_self, Nat.add_zero]

/-- At each place of the order stands the job that was registered first of all that are ready and
have not been placed. -/
def KeepsRegistration (jobs : List Job) (ids : List String) : Prop :=
  ∀ before id later, ids = before ++ id :: later → ∀ other ∈ later,
    (∀ d, Needs jobs other d → d ∈ before) →
    placeOf jobs id < placeOf jobs other

/-- Registration is kept just if whoever gets ready later than one registered behind it finds that
one placed already. -/
theorem keepsRegistration_iff (hids : ids.Nodup) (hmem : ids ⊆ jobs.map (·.id))
    (hpair : ids.Pairwise (Sooner jobs ids)) :
    KeepsRegistration jobs ids ↔ ∀ a ∈ ids, ∀ b ∈ ids, placeOf jobs a < placeOf jobs b →
      readyAt jobs ids b < readyAt jobs ids a → ids.idxOf b < readyAt jobs ids a := by
  constructor
  · intro hkeeps a ha b hb hplace hready
    by_contra hlate
    obtain ⟨before, later, rfl⟩ := List.append_of_mem hb
    rw [idxOf_of_nodup hids, not_lt] at hlate
    obtain ⟨-, hpair', hcross⟩ := List.pairwise_append.1 hpair
    have hplaced : ∀ d, Needs jobs a d → d ∈ before :=
      fun d hd => mem_of_idxOf_lt (readyAt_le_iff.1 hlate d hd)
    rcases List.mem_append.1 ha with ha | ha
    · -- who was placed earlier was ready no later
      have hsooner := hcross a ha b (List.mem_cons_self ..)
      unfold Sooner at hsooner
      omega
    · rcases List.mem_cons.1 ha with rfl | ha
      · exact Nat.lt_irrefl _ hplace
      · exact Nat.lt_asymm hplace (hkeeps before b later rfl a ha hplaced)
  · rintro hfound before id later rfl other hother hplaced
    have hin : other ∈ before ++ id :: later :=
      List.mem_append_right _ (List.mem_cons_of_mem _ hother)
    have hsooner := (List.pairwise_cons.1 (List.pairwise_append.1 hpair).2.1).1 other hother
    have hready : readyAt jobs (before ++ id :: later) other ≤ before.length := by
      rw [readyAt_append hplaced]
      exact readyAt_le_length hplaced
    have hne : placeOf jobs id ≠ placeOf jobs other := by
      intro heq
      obtain rfl := (List.idxOf_inj (hmem (by simp))).1 heq
      exact (List.nodup_cons.1 (List.nodup_append.1 hids).2.1).1 hother
    have hlate := hfound other hin id (by simp)
    rw [idxOf_of_nodup hids] at hlate
    unfold Sooner at hsooner
    omega

end

end Schedule

namespace Session

open Relation Schedule

section
variable {s : Session}

theorem needs_jobs (hids : s.Distinct) : Needs s.jobs = s.DependsOn :=
  funext₂ fun _ _ => propext (needs_jobs_iff hids)

/-- There is an order just if every dependency is registered and none leads back to where it
began. -/
theorem exists_order_iff (hids : s.Distinct) : (∃ ids, s.order = .ok ids) ↔
    (∀ id d, s.DependsOn id d → (s.find? d).isSome = true) ∧ ∀ id,
    ¬ TransGen s.DependsOn id id := by
  have hiff := order_ok_iff (s.nodup_jobs hids)
  simp only [needs_jobs hids, mem_ids_jobs_iff] at hiff
  exact hiff

/-- **Analyses are placed in the order in which they get ready**, whenever none depends on itself or
on what is not registered. Who gets ready at once with others stands by the order of registration,
and no other order of the analyses that keeps the dependencies is like this. So at each place stands
the analysis that was registered first of all that are ready just if whoever gets ready later than
one registered behind it finds that one placed already; otherwise it is overtaken. -/
theorem order_by_readiness (hids : s.Distinct)
    (hknown : ∀ id d, s.DependsOn id d → (s.find? d).isSome = true)
    (hacyclic : ∀ id, ¬ TransGen s.DependsOn id id) :
    ∃ ids, s.order = .ok ids ∧ Guarded.order s.jobs = .ok (.ok ids) ∧
      ids.Pairwise (Sooner s.jobs ids) ∧
      (∀ ids', ids'.Perm (s.analyses.map (·.id)) →
        (∀ before id later, ids' = before ++ id :: later → ∀ d, s.DependsOn id d → d ∈ before) →
        ids'.Pairwise (Sooner s.jobs ids') → ids' = ids) ∧
      (KeepsRegistration s.jobs ids ↔ ∀ a ∈ ids, ∀ b ∈ ids, placeOf s.jobs a < placeOf s.jobs b →
        readyAt s.jobs ids b < readyAt s.jobs ids a → ids.idxOf b < readyAt s.jobs ids a) := by
  have hjobs := s.nodup_jobs hids
  obtain ⟨ids, horder⟩ := (exists_order_iff hids).2 ⟨hknown, hacyclic⟩
  obtain ⟨hperm, hbefore⟩ := perm_of_order hjobs horder
  have hnodup : ids.Nodup := hperm.nodup_iff.2 hjobs
  have hpair := pairwise_of_order hjobs horder
  refine ⟨ids, horder, ?_, hpair, fun ids' hperm' hbefore' hpair' => ?_,
    keepsRegistration_iff hnodup hperm.subset hpair⟩
  · rw [Guarded.order_eq hjobs]
    exact congrArg Except.ok horder
  · rw [← ids_jobs] at hperm'
    rw [← needs_jobs hids] at hbefore'
    exact eq_of_pairwise hnodup (hperm'.trans hperm.symm) hbefore hbefore' hpair hpair'

end

/-- Analyses of which the second waits for the first, and the third for none. -/
def overtaking : Session where
  analyses := [idling "first" [], idling "second" ["first"], idling "third" []]

/-- Registered in an order that keeps the dependencies, and yet placed in another: when the first
has been placed, the second and the third are ready, and the third goes first. -/
theorem overtaking_reordered :
    overtaking.Distinct ∧ overtaking.order = .ok ["first", "third", "second"] ∧
    (∀ d, overtaking.DependsOn "second" d → d ∈ ["first"]) ∧
    placeOf overtaking.jobs "second" < placeOf overtaking.jobs "third" ∧
    ¬ KeepsRegistration overtaking.jobs ["first", "third", "second"] := by
  have hdistinct : overtaking.Distinct := by unfold Distinct; decide
  have hsecond : ∀ d, Needs overtaking.jobs "second" d → d ∈ ["first"] := by
    rintro d ⟨j, hj, hid, hd⟩
    simp only [jobs, overtaking, idling, List.map_cons, List.map_nil, List.mem_cons,
      List.not_mem_nil, or_false] at hj
    rcases hj with rfl | rfl | rfl <;> simp_all
  refine ⟨hdistinct, by decide +kernel, fun d hd => hsecond d ((needs_jobs_iff hdistinct).2 hd), by
    decide, fun hkeeps => ?_⟩
  have hplace := hkeeps ["first"] "third" ["second"] rfl "second" (by simp) hsecond
  revert hplace
  decide

/-- The registration is kept where all get ready in its order, and not where one that waits is
overtaken. -/
theorem order_by_readiness_forked :
    forked.Distinct ∧ KeepsRegistration forked.jobs ["base", "left", "right", "top"] ∧
    overtaking.Distinct ∧ ["first", "third", "second"].Pairwise
      (Sooner overtaking.jobs ["first", "third", "second"]) := by
  have hforked : forked.Distinct := by unfold Distinct; decide
  have hovertaking : overtaking.Distinct := by unfold Distinct; decide
  have horder : forked.order = .ok ["base", "left", "right", "top"] := by decide +kernel
  have horder' : overtaking.order = .ok ["first", "third", "second"] := by decide +kernel
  refine ⟨hforked, ?_, hovertaking, ?_⟩
  · obtain ⟨hknown, hacyclic⟩ := (exists_order_iff hforked).1 ⟨_, horder⟩
    obtain ⟨ids, hids, -, -, -, hkeeps⟩ := order_by_readiness hforked hknown hacyclic
    obtain rfl := Except.ok.inj (horder.symm.trans hids)
    exact hkeeps.2 (by decide +kernel)
  · obtain ⟨hknown, hacyclic⟩ := (exists_order_iff hovertaking).1 ⟨_, horder'⟩
    obtain ⟨ids, hids, -, hpair, -, -⟩ := order_by_readiness hovertaking hknown hacyclic
    obtain rfl := Except.ok.inj (horder'.symm.trans hids)
    exact hpair

end Session

end StateHistory
