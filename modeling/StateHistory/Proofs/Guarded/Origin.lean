import StateHistory.Proofs.Guarded.Question
import StateHistory.Proofs.Guarded.Writer
import StateHistory.Proofs.Store.Origin

/-!
# Guarded operations on stores of every origin

If every attribute has a timeline, nothing that a writer or a reader asks for looks for one that is
not there, whatever the timelines hold (`ask_inBounds`). Where the root has none, everything that
comes to look for it ends with a fault. So it is known for each call and each question, after any
calls on a store of any origin, whether it does (`made_run`).
-/

namespace StateHistory

/-- The question asks the tree for attributes, is given some, and goes on to look for their
timelines. -/
def StateSystem.Question.Looks (s : Store) : Question → Prop
  | .single t q | .top t q => s.tree.contains q = true ∧ s.InReach t
  | .full t => s.InReach t
  | .several qs ts =>
    qs ≠ [] ∧ (∀ q ∈ qs, s.tree.contains q = true) ∧ ∃ start, s.start = some start ∧
    s.answerable start ts ≠ []
  | .peek q => (s.tree.find? q (Store.slotName 1)).isSome = true
  | _ => False

/-- The question comes to look for a timeline that is not there. -/
def StateSystem.Question.Misses (question : Question) (s : Store) : Prop :=
  ¬ s.Covered ∧ question.Looks s

namespace Guarded

open Store (Call Made rootless_bare)
open StateSystem (Question)

/-! ## Operations without an index that is not there -/

/-- The operation fetches nothing that is not there. -/
def InBounds {α : Type} (x : Guarded α) : Prop := x ≠ .error .outOfRange

section
variable {α β : Type} {exact : Prop}

theorem Runs.inBounds {x : Guarded α} {a : α} (h : Runs exact x a) : InBounds x := by
  obtain ⟨b, rfl, -⟩ := h
  exact nofun

/-- What runs without a condition keeps in bounds. -/
theorem inBounds_of_runs {x : Guarded α} {a : α} (h : Runs True x a) : InBounds x := h.inBounds

theorem inBounds_of_eq {x : Guarded α} {a : α} (h : x = .ok a) : InBounds x :=
  inBounds_of_runs (runs_of_eq h)

theorem inBounds_ok (a : α) : InBounds (.ok a) := nofun

theorem InBounds.bind {x : Guarded α} {f : α → Guarded β} (h : InBounds x)
    (hf : ∀ a, x = .ok a → InBounds (f a)) :
    InBounds (x >>= f) := by
  cases x with
  | ok a => exact hf a rfl
  | error e => exact fun heq => h (congrArg Except.error (Except.error.inj heq))

theorem InBounds.mapM {f : α → Guarded β} :
    ∀ {l : List α}, (∀ a ∈ l, InBounds (f a)) → InBounds (l.mapM f)
  | [], _ => nofun
  | a :: l, h => by
    rw [List.mapM_cons]
    refine (h a (List.mem_cons_self ..)).bind fun b _ => ?_
    exact (InBounds.mapM fun a' ha' => h a' (List.mem_cons_of_mem _ ha')).bind fun bs _ =>
      inBounds_ok _

/-- An operation that can fail too keeps in bounds after another if it does with whatever that
gives. -/
theorem InBounds.andThen {x : Checked α} {f : α → Checked β} (h : InBounds x.run)
    (hf : ∀ a, x.run = .ok (.ok a) → InBounds (f a).run) : InBounds (x >>= f).run := by
  refine InBounds.bind (f := ExceptT.bindCont f) h fun r hr => ?_
  cases r with
  | ok a => exact hf a hr
  | error e => exact nofun

theorem inBounds_pure (a : α) : InBounds (pure a : Checked α).run := nofun

theorem inBounds_plain (m : Except Failure α) : InBounds (plain m).run := nofun

theorem InBounds.lift {x : Guarded α} (h : InBounds x) : InBounds (liftM x : Checked α).run := by
  cases x with
  | ok a => exact nofun
  | error e => exact fun heq => h (congrArg Except.error (Except.error.inj heq))

theorem calculated_inBounds (t : Int) : InBounds (calculated t) := by
  unfold calculated
  split <;> exact nofun

/-- After a fault nothing follows. -/
theorem fault_andThen {x : Checked α} {fault : Fault} (h : x.run = .error fault)
    (f : α → Checked β) :
    (x >>= f).run = .error fault := by
  change (x.run >>= ExceptT.bindCont f) = _
  rw [h]
  rfl

theorem andThen_eq {x : Checked α} {a : α} (h : x.run = .ok (.ok a)) (f : α → Checked β) :
    (x >>= f).run = (f a).run := by
  change (x.run >>= ExceptT.bindCont f) = _
  rw [h]
  rfl

theorem plain_andThen {m : Except Failure α} {a : α} (h : m = .ok a) (f : α → Checked β) :
    (plain m >>= f).run = (f a).run := andThen_eq (congrArg Except.ok h) f

end

/-! ## Queries -/

section
variable {s : Store} {q : Quark} {qs : List Quark} {t : Time} {search : Search}

theorem gapAt_inBounds (s : Store) (q : Quark) (t : Time) (stop start : Option Time) :
    InBounds (gapAt s q t stop start) := by
  have hfirst : InBounds (stop.elim (return s.start.getD t) fun stop => calculated (stop + 1)) := by
    cases stop with
    | none => exact inBounds_ok _
    | some u => exact calculated_inBounds _
  have hlast : InBounds (start.elim (return max (s.stop.getD t) t) fun start =>
      calculated (start - 1)) := by
    cases start with
    | none => exact inBounds_ok _
    | some u => exact calculated_inBounds _
  exact hfirst.bind fun _ _ => hlast.bind fun _ _ => inBounds_ok _

theorem intervalAt_inBounds (hq : q.index < s.timelines.size) (t : Time) :
    InBounds (intervalAt search s q t) := by
  refine (inBounds_of_eq (timeline_eq hq)).bind fun l _ => ?_
  cases lookup search l t with
  | closed iv => exact inBounds_ok _
  | ongoing o => exact inBounds_ok _
  | gap stop start => exact gapAt_inBounds s q t stop start

/-- A sweep looks for a timeline only if it has a time to ask for. -/
theorem sweep_inBounds {ts : Array Time} (hq : 0 < ts.size → q.index < s.timelines.size) :
    ∀ fuel i : Nat, InBounds (sweep search s q ts fuel i)
  | 0, i => by
    rw [sweep]
    split
    · simp [InBounds]
    · exact inBounds_ok _
  | fuel + 1, i => by
    rw [sweep]
    split
    · rename_i hlt
      have hskip : ∀ iv, InBounds (skip ts (s.passes iv) i) := by
        intro iv
        obtain ⟨j, hj, -⟩ := skip_eq ts (s.passes iv) i
        exact inBounds_of_eq hj
      refine (inBounds_of_eq (fetch_of_lt hlt)).bind fun t _ => ?_
      refine (intervalAt_inBounds (hq (by omega)) t).bind fun iv _ =>
        (hskip iv).bind fun next _ => ?_
      split
      · simp [InBounds]
      · exact (sweep_inBounds hq fuel next).bind fun _ _ => inBounds_ok _
    · exact inBounds_ok _

theorem inReach_of_check (h : (plain (s.checkAsked t)).run = .ok (.ok ())) : s.InReach t :=
  Store.checkAsked_ok_iff.1 (Except.ok.inj h)

theorem single_inBounds (h : s.tree.contains q = true → s.InReach t → s.Covered) :
    InBounds (single search t q s).run := by
  refine (inBounds_plain _).andThen fun _ hq => (inBounds_plain _).andThen fun _ ht => ?_
  have hcovered := h (contains_of_check hq) (inReach_of_check ht)
  exact (intervalAt_inBounds (hcovered.contains_iff.1 (contains_of_check hq)) t).lift

theorem checks_of_single {iv : Interval} (h : (single search t q s).run = .ok (.ok iv)) :
    s.tree.contains q = true ∧ s.InReach t := by
  unfold single at h
  cases hq : s.checkQuark q with
  | error e =>
    rw [hq] at h
    cases Except.ok.inj h
  | ok u =>
    rw [plain_andThen hq] at h
    cases ht : s.checkAsked t with
    | error e =>
      rw [ht] at h
      cases Except.ok.inj h
    | ok u => exact ⟨Store.checkQuark_ok_iff.1 hq, Store.checkAsked_ok_iff.1 ht⟩

theorem full_inBounds (h : s.InReach t → s.Covered) : InBounds (full search t s).run := by
  refine (inBounds_plain _).andThen fun _ ht => ?_
  have hcovered := h (inReach_of_check ht)
  refine (InBounds.mapM fun i hi => intervalAt_inBounds (hcovered.contains_iff.1 ?_) t).lift
  exact decide_eq_true (List.mem_range.1 hi)

theorem query2d_inBounds {ts : List Time} (h : (Question.several qs ts).Looks s → s.Covered) :
    InBounds (query2d search qs ts s).run := by
  have hchecks : InBounds (qs.forM fun q => plain (s.checkQuark q)).run :=
    inBounds_of_runs (Runs.forM fun q _ => runs_plain (s.checkQuark q))
  refine hchecks.andThen fun _ hchecked => ?_
  cases hstart : s.start with
  | none => exact inBounds_ok _
  | some start =>
    have hall : InBounds (sweepAll search s qs (s.answerable start ts).toArray) := by
      refine InBounds.mapM fun q hq => sweep_inBounds (fun hpos => ?_) _ _
      have hqs := contains_of_checks hchecked
      have hasked : s.answerable start ts ≠ [] := by
        intro hnil
        rw [hnil] at hpos
        exact absurd hpos (Nat.lt_irrefl 0)
      have hcovered := h ⟨List.ne_nil_of_mem hq, hqs, start, hstart, hasked⟩
      exact hcovered.contains_iff.1 (hqs q hq)
    exact hall.lift.andThen fun _ _ => inBounds_ok _

theorem top_inBounds (hl : s.tree.Linked) (h : s.tree.contains q = true → s.InReach t → s.Covered) :
    InBounds (top search t q s).run := by
  refine (single_inBounds h).andThen fun iv hiv => ?_
  by_cases hdepth : iv.value.asLong.getD 0 ≤ 0
  · simp only [hdepth, ↓reduceIte]
    exact inBounds_ok _
  · simp only [hdepth, ↓reduceIte, find_eq hl]
    cases hfind : s.tree.find? q (Store.slotName (iv.value.asLong.getD 0)) with
    | none => exact inBounds_ok _
    | some child =>
      obtain ⟨hq, ht⟩ := checks_of_single hiv
      have hcovered := h hq ht
      have hchild : InBounds (intervalAt search s child t) :=
        intervalAt_inBounds (hcovered.contains_iff.1 (contains_of_find? hl hfind)) t
      exact hchild.lift.andThen (f := fun iv => pure (some iv)) fun _ _ => inBounds_ok _

theorem peek_inBounds (hl : s.tree.Linked)
    (h : (s.tree.find? q (Store.slotName 1)).isSome = true → s.Covered) :
    InBounds (peek q s).run := by
  refine (inBounds_plain _).andThen fun _ hq => ?_
  rw [find_eq hl]
  cases hfind : s.tree.find? q (Store.slotName 1) with
  | none => exact inBounds_ok _
  | some slot =>
    have hcovered := h (by rw [hfind]; rfl)
    have hfetch := timeline_eq (hcovered.contains_iff.1 (contains_of_find? hl hfind))
    exact (inBounds_of_eq hfetch).lift.andThen (f := fun l => pure l.value) fun _ _ => inBounds_ok _

end

/-! ## Questions -/

section
variable {sys : StateSystem} {s : Store} {search : Search} {question : Question} {q : Quark}
  {t : Time}

theorem query_of_live {α : Type} (hlive : sys.live = .ok s) (f : Store → Checked α) :
    (query f sys).run = (f s).run :=
  plain_andThen hlive f

/-- **A question that does not miss a timeline fetches nothing that is not there.** -/
theorem ask_inBounds (hsearch : ∀ p size, Boundary p size (search p size))
    (hlive : sys.live = .ok s) (hg : s.tree.Grown) (h : ¬ question.Misses s) :
    InBounds (ask search sys question).run := by
  have hcovered : question.Looks s → s.Covered := fun hlooks => by_contra fun hnot =>
    h ⟨hnot, hlooks⟩
  have hl := hg.toLinked
  have hquery : ∀ {α : Type} {f : Store → Checked α}, InBounds (f s).run →
      InBounds (query f sys).run := by
    intro α f hf
    rwa [query_of_live hlive]
  cases question with
  | start => exact hquery (inBounds_pure _)
  | stop => exact hquery (inBounds_pure _)
  | size => exact hquery (inBounds_pure _)
  | find base names =>
    exact hquery ((inBounds_of_eq (find_eq hl base names)).lift.andThen fun _ _ => inBounds_pure _)
  | locate base names =>
    have hlinked : ∀ store, sys.live = .ok store → store.tree.Linked := by
      intro store hstore
      obtain rfl := Except.ok.inj (hlive.symm.trans hstore)
      exact hl
    exact (inBounds_of_runs (locate_runs hlinked base names)).andThen fun _ _ => inBounds_pure _
  | select base pattern =>
    exact hquery ((inBounds_of_runs (runs_select hl base pattern)).andThen fun _ _ =>
      inBounds_pure _)
  | below q recursive =>
    exact hquery ((inBounds_of_runs (runs_below hg q recursive)).andThen fun _ _ => inBounds_pure _)
  | name q => exact hquery ((inBounds_plain _).andThen fun _ _ => inBounds_pure _)
  | parent q => exact hquery ((inBounds_plain _).andThen fun _ _ => inBounds_pure _)
  | path q => exact hquery ((inBounds_of_runs (runs_path hl q)).andThen fun _ _ => inBounds_pure _)
  | pathText q =>
    exact hquery ((inBounds_of_runs (pathText_runs hl q)).andThen fun _ _ => inBounds_pure _)
  | ongoingValue q => exact hquery ((inBounds_plain _).andThen fun _ _ => inBounds_pure _)
  | ongoingStart q => exact hquery ((inBounds_plain _).andThen fun _ _ => inBounds_pure _)
  | depth q => exact hquery ((inBounds_plain _).andThen fun _ _ => inBounds_pure _)
  | peek q => exact hquery ((peek_inBounds hl hcovered).andThen fun _ _ => inBounds_pure _)
  | single t q =>
    exact hquery ((single_inBounds fun hq ht => hcovered ⟨hq, ht⟩).andThen fun _ _ =>
      inBounds_pure _)
  | full t => exact hquery ((full_inBounds hcovered).andThen fun _ _ => inBounds_pure _)
  | several qs ts => exact hquery ((query2d_inBounds hcovered).andThen fun _ _ => inBounds_pure _)
  | history q a b => exact (history_runs hsearch q a b).inBounds.andThen fun _ _ => inBounds_pure _
  | histories qs a b =>
    have hall : InBounds (histories search qs a b sys).run :=
      hquery (rangeOfAll_runs hsearch qs _ _).inBounds
    exact hall.andThen fun _ _ => inBounds_pure _
  | firstValue q a b =>
    have hfirst : InBounds (firstValue search q a b sys).run :=
      (history_runs hsearch q a b).inBounds.andThen fun _ _ => inBounds_pure _
    exact hfirst.andThen fun _ _ => inBounds_pure _
  | top t q =>
    exact hquery ((top_inBounds hl fun hq ht => hcovered ⟨hq, ht⟩).andThen fun _ _ =>
    inBounds_pure _)
  | image => exact (inBounds_plain _).andThen fun _ _ => inBounds_pure _

/-! ## Faults -/

/-- There is no timeline to fetch. -/
theorem timeline_fault (h : s.Rootless) (q : Quark) : timeline s q = .error .outOfRange := by
  unfold timeline fetch
  rw [h.timelines_eq]
  rfl

theorem intervalAt_fault (h : s.Rootless) (q : Quark) (t : Time) :
    intervalAt search s q t = .error .outOfRange := by
  change (timeline s q >>= fun l => found s q t (lookup search l t)) = _
  rw [timeline_fault h]
  rfl

theorem single_fault (h : s.Rootless) (hq : s.tree.contains q = true) (ht : s.InReach t) :
    (single search t q s).run = .error .outOfRange := by
  unfold single
  rw [plain_andThen (Store.checkQuark_ok_iff (u := ()).2 hq),
    plain_andThen (Store.checkAsked_ok_iff (u := ()).2 ht), intervalAt_fault h]
  rfl

theorem full_fault (h : s.Rootless) (ht : s.InReach t) :
    (full search t s).run = .error .outOfRange := by
  unfold full
  rw [plain_andThen (Store.checkAsked_ok_iff (u := ()).2 ht), h.tree_eq]
  have hroot : List.range Tree.empty.size = [0] := rfl
  rw [hroot, List.mapM_cons, intervalAt_fault h]
  rfl

theorem sweep_fault (h : s.Rootless) (q : Quark) {ts : Array Time} (hpos : 0 < ts.size)
    (fuel : Nat) :
    sweep search s q ts (fuel + 1) 0 = .error .outOfRange := by
  rw [sweep, if_pos hpos, fetch_of_lt hpos]
  change (intervalAt search s q ts[0] >>= fun iv => skip ts (s.passes iv) 0 >>= fun next =>
    if next ≤ 0 then .error .stuck else sweep search s q ts fuel next >>= fun ivs =>
      .ok (iv :: ivs)) = _
  rw [intervalAt_fault h]
  rfl

theorem query2d_fault (h : s.Rootless) {qs : List Quark} {ts : List Time}
    (hlooks : (Question.several qs ts).Looks s) :
    (query2d search qs ts s).run = .error .outOfRange := by
  obtain ⟨hne, hqs, start, hstart, hasked⟩ := hlooks
  obtain ⟨q, rest, rfl⟩ := List.exists_cons_of_ne_nil hne
  obtain ⟨t, more, hmore⟩ := List.exists_cons_of_ne_nil hasked
  have hchecks : ((q :: rest).forM fun q => plain (s.checkQuark q)).run = .ok (.ok ()) := by
    have hruns : Runs True _ _ := Runs.forM (l := q :: rest) fun q _ => runs_plain (s.checkQuark q)
    obtain ⟨r, hr, hexact⟩ := hruns
    rw [hr, hexact trivial, Store.forM_checkQuark hqs]
  have hfirst : sweepAll search s (q :: rest) (t :: more).toArray = .error .outOfRange := by
    have hpos : 0 < (t :: more).toArray.size := Nat.succ_pos more.length
    have hsweep : sweep search s q (t :: more).toArray (more.length + 1) 0 = .error .outOfRange :=
      sweep_fault h q hpos more.length
    rw [sweepAll, List.mapM_cons]
    change (sweep search s q (t :: more).toArray (more.length + 1) 0 >>= fun _ => _) = _
    rw [hsweep]
    rfl
  unfold query2d
  rw [andThen_eq hchecks]
  simp only [hstart, hmore, hfirst]
  rfl

/-- **A question that misses a timeline ends with a fault.** -/
theorem ask_fault (hlive : sys.live = .ok s) (h : s.Rootless) (hlooks : question.Looks s) :
    (ask search sys question).run = .error .outOfRange := by
  have hquery : ∀ {α β : Type} {f : Store → Checked α} (g : α → Checked β),
    (f s).run = .error .outOfRange →
      (query (fun store => f store >>= g) sys).run = .error .outOfRange := by
    intro α β f g hf
    rw [query_of_live hlive]
    exact fault_andThen hf g
  cases question with
  | peek q =>
    have hfind : s.tree.find? q (Store.slotName 1) = none := h.find?_eq q _
    have hsome : (s.tree.find? q (Store.slotName 1)).isSome = true := hlooks
    rw [hfind] at hsome
    cases hsome
  | single t q => exact hquery _ (single_fault h hlooks.1 hlooks.2)
  | full t => exact hquery _ (full_fault h hlooks)
  | several qs ts => exact hquery _ (query2d_fault h hlooks)
  | top t q => exact hquery _ (fault_andThen (single_fault h hlooks.1 hlooks.2) _)
  | _ => exact hlooks.elim

/-! ## Calls -/

theorem lift_andThen {α β : Type} {op : Store.Edit α} {a : α} {s s' : Store} (h : op s = .ok a s')
    (f : α → Edit β) :
    (lift op >>= f).run.run s = (f a).run.run s' := by
  change (Except.ok (outcome (op s)) >>= fun r => (ExceptT.bindCont f r.1).run r.2) = _
  rw [h]
  rfl

theorem inspect_fault {α : Type} {f : Store → Guarded α} {fault : Fault} (h : f s = .error fault) :
    (inspect f).run.run s = .error fault := by
  change (f s >>= fun a => Except.ok (Except.ok a, s)) = _
  rw [h]
  rfl

/-- Nothing comes after a fault. -/
theorem bind_fault {α β : Type} {x : Edit α} {fault : Fault} (h : x.run.run s = .error fault)
    (k : α → Edit β) :
    (x >>= k).run.run s = .error fault := by
  change (x.run.run s >>= fun r => (ExceptT.bindCont k r.1).run r.2) = _
  rw [h]
  rfl

/-- **A call that misses a timeline ends with a fault.** -/
theorem call_fault (h : s.Rootless) {c : Call} (hlooks : c.Looks s) :
    call c s = .error .outOfRange := by
  cases c with
  | step a =>
    cases a with
    | amend v q =>
      have hcheck : Store.Edit.ask (·.checkQuark q) s = .ok () s :=
        Store.Edit.ask_ok.2 ⟨Store.checkQuark_ok_iff.2 hlooks, rfl⟩
      change (amend v q).run.run s = _
      rw [amend, lift_andThen hcheck]
      exact bind_fault (inspect_fault (timeline_fault h q)) _
    | _ => exact hlooks.elim
  | clear t q =>
    obtain rfl := h.contains_iff.1 hlooks
    have hbelow : Store.Edit.ask (·.tree.below .root true) s = .ok [] s :=
      Store.Edit.ask_ok.2 ⟨by rw [h.tree_eq]; rfl, rfl⟩
    have hvalue : (parts.value .root).run.run s = .error .outOfRange :=
      bind_fault (inspect_fault (timeline_fault h .root)) _
    change (lift (Store.Edit.ask (·.tree.below .root true)) >>= fun below =>
      parts.occupied (.root :: below) >>= _).run.run s = _
    rw [lift_andThen hbelow]
    exact bind_fault (bind_fault hvalue _) _
  | offer t v q | poll t q =>
    have hfind : s.tree.find? q (Store.slotName 1) = none := h.find?_eq q _
    have hsome : (s.tree.find? q (Store.slotName 1)).isSome = true := hlooks
    rw [hfind] at hsome
    cases hsome
  | _ => exact hlooks.elim

/-- A run comes to the plain end, unless one of the calls misses a timeline. -/
theorem run_cases : ∀ {s : Store} (_ : s.Kept) (calls : List Call),
    run calls s = .ok (s.run calls) ∨
      ∃ more c rest, calls = more ++ c :: rest ∧ c.Misses (s.run more) ∧
      run calls s = .error .outOfRange
  | s, _, [] => Or.inl rfl
  | s, h, c :: calls => by
    by_cases hmiss : c.Misses s
    · have hfault := call_fault (h.laid.resolve_left hmiss.1) hmiss.2
      refine Or.inr ⟨[], c, calls, rfl, hmiss, ?_⟩
      rw [run, hfault]
      rfl
    · have hrun : run (c :: calls) s = run calls (c.after s) := by
        rw [run, agrees_call h.grown.toLinked hmiss]
        unfold Store.Call.after Store.Edit.after outcome
        cases c.edit s <;> rfl
      rw [hrun]
      rcases run_cases (h.after c) calls with hok | ⟨more, d, rest, rfl, hd, hfault⟩
      · exact Or.inl hok
      · exact Or.inr ⟨c :: more, d, rest, rfl, hd, hfault⟩

/-! ## Reasons -/

theorem ongoingValue_error_iff {e : Failure} :
    s.ongoingValue q = .error e ↔ ¬ q.index < s.timelines.size ∧ e = .invalidQuark q := by
  unfold Store.ongoingValue Store.timeline
  by_cases hlt : q.index < s.timelines.size
  · simp [hlt, bind, Except.bind, pure, Except.pure]
  · simp [hlt, bind, Except.bind, eq_comm]

/-- A look in the timelines never fails. -/
theorem lift_ne_error {α : Type} (x : Guarded α) (e : Failure) :
    (liftM x : Checked α).run ≠ .ok (.error e) := by
  cases x with
  | ok a => exact nofun
  | error fault => exact nofun

theorem plain_fails_iff {α : Type} {m : Except Failure Unit} {x : Checked α}
    (hx : ∀ e, x.run ≠ .ok (.error e)) (e : Failure) :
    (plain m >>= fun _ => x).run = .ok (.error e) ↔ m = .error e := by
  cases m with
  | ok u =>
    rw [plain_andThen rfl]
    simp [hx e]
  | error e' =>
    change (Except.ok (Except.error e') : Guarded (Except Failure α)) = _ ↔ _
    simp

theorem single_fails_iff (s : Store) (q : Quark) (t : Time) (e : Failure) :
    (single search t q s).run = .ok (.error e) ↔
    (s.checkQuark q >>= fun _ => s.checkAsked t) = .error e := by
  unfold single
  cases hq : s.checkQuark q with
  | ok u =>
    rw [plain_andThen rfl]
    exact plain_fails_iff (lift_ne_error _) e
  | error e' =>
    change (Except.ok (Except.error e') : Guarded (Except Failure Interval)) = _ ↔
      Except.error e' = _
    simp

theorem full_fails_iff (s : Store) (t : Time) (e : Failure) :
    (full search t s).run = .ok (.error e) ↔ s.checkAsked t = .error e :=
  plain_fails_iff (lift_ne_error _) e

end

/-- **Where timelines are missing.** After calls on a store of any origin each attribute has a
timeline, unless the store began bare and no call has added an attribute to the root. Calls and
questions end with a fault where they miss a timeline and nowhere else. Point queries fail as the
tree and the bounds say, and asking for an ongoing value fails for what has no timeline too. -/
theorem made_run {s₀ : Store} (h : s₀.Made) (calls : List Call) :
    ((s₀.run calls).Covered ↔ s₀ ≠ Store.bare ∨ ∃ c ∈ calls, c.AddsToRoot) ∧
    (run calls s₀ = .ok (s₀.run calls) ∨
      ∃ more c rest, calls = more ++ c :: rest ∧ c.Misses (s₀.run more) ∧
      run calls s₀ = .error .outOfRange) ∧
    (∀ c : Call, (c.Misses (s₀.run calls) → call c (s₀.run calls) = .error .outOfRange) ∧
      (¬ c.Misses (s₀.run calls) → call c (s₀.run calls) = .ok (outcome (c.edit (s₀.run calls))))) ∧
    (∀ sys : StateSystem, sys.live = .ok (s₀.run calls) → ∀ question : Question,
      (ask partitionPoint sys question).run = .error .outOfRange ↔ question.Misses (s₀.run calls)) ∧
    ∀ q t e,
      ((s₀.run calls).ongoingValue q = .error e ↔
        (¬ (s₀.run calls).tree.contains q = true ∨ ¬ (s₀.run calls).Covered) ∧
        e = .invalidQuark q) ∧
      ((single partitionPoint t q (s₀.run calls)).run = .ok (.error e) ↔
        ((s₀.run calls).checkQuark q >>= fun _ => (s₀.run calls).checkAsked t) = .error e) ∧
      ((full partitionPoint t (s₀.run calls)).run = .ok (.error e) ↔
        (s₀.run calls).checkAsked t = .error e) := by
  have hkept := h.kept.run calls
  have hrootless : ∀ {P : Prop}, ¬ (s₀.run calls).Covered ∧ P → (s₀.run calls).Rootless :=
    fun hmiss => hkept.laid.resolve_left hmiss.1
  refine ⟨h.covered_run_iff calls, run_cases h.kept calls,
    fun c => ⟨fun hmiss => ?_, fun hmiss => ?_⟩,
    fun sys hlive question => ⟨fun hfault => ?_, fun hmiss => ?_⟩,
    fun q t e => ⟨?_, single_fails_iff _ q t e, full_fails_iff _ t e⟩⟩
  · exact call_fault (hrootless hmiss) hmiss.2
  · exact agrees_call hkept.grown.toLinked hmiss
  · exact by_contra fun hnot => ask_inBounds boundary_partitionPoint hlive hkept.grown hnot hfault
  · exact ask_fault hlive (hrootless hmiss) hmiss.2
  · rw [ongoingValue_error_iff, hkept.lt_size_iff, not_and_or]

/-- The root of a bare store has no timeline, though the tree has it: asking for its ongoing value
fails as if it were no attribute, and amending that value, or looking at it when recording has
begun, fetches a timeline that is not there. -/
theorem bare_misses :
    Store.bare.tree.contains .root = true ∧ ¬ Store.bare.Covered ∧
    Store.bare.ongoingValue .root = .error (.invalidQuark .root) ∧
    Store.new.ongoingValue .root = .ok .null ∧
    call (.step (.amend (.int 1) .root)) Store.bare = .error .outOfRange ∧
    (single partitionPoint 5 .root (Store.bare.run [.step (.advance 5)])).run = .error .outOfRange ∧
    (single partitionPoint 5 .root (Store.new.run [.step (.advance 5)])).run =
      .ok (.ok ⟨.root, 5, 5, .null⟩) := by
  refine ⟨rfl, rootless_bare.not_covered, rfl, rfl, rfl, rfl, ?_⟩
  decide +kernel

/-- A bare store misses the timeline of its root until it is offered a value for the queue of the
root. -/
theorem made_run_bare :
    call (.clear 5 .root) (Store.bare.run [.step (.advance 5)]) = .error .outOfRange ∧
    (Store.bare.run [.step (.advance 5), .offer 6 (.int 1) .root]).Covered := by
  constructor
  · obtain ⟨hcovered, -, hcalls, -⟩ := made_run Made.bare [.step (.advance 5)]
    refine (hcalls (.clear 5 .root)).1 ⟨fun h => ?_, rfl⟩
    rcases hcovered.1 h with hne | ⟨c, hc, hadds⟩
    · exact hne rfl
    · obtain rfl := List.mem_singleton.1 hc
      exact hadds
  · obtain ⟨hcovered, -⟩ := made_run Made.bare [.step (.advance 5), .offer 6 (.int 1) .root]
    exact hcovered.2 (Or.inr ⟨.offer 6 (.int 1) .root, by simp, rfl⟩)

end Guarded

end StateHistory
