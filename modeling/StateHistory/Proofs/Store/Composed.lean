import StateHistory.Proofs.Store.Calls

/-!
# Composed calls are all or nothing

A composed call checks all that it is going to write before it writes any of it, and no write takes
away what the checks have found (`Writable.wrote`). So a call that succeeds takes exactly its
`parts`, and one that fails leaves nothing behind, up to the slot of an offer: `Call.trail`.
-/

namespace StateHistory.Store

open Edit

section
variable {s s' : Store} {t : Time} {v : Value} {q : Quark} {e : Failure} {α : Type}

/-! ## Several checks, several writes -/

theorem forM_ask_ok_iff {f : α → Store → Except Failure Unit} {xs : List α} :
    (xs.forM fun x => ask (f x)) s = .ok () s' ↔ s' = s ∧ ∀ x ∈ xs, f x s = .ok () := by
  induction xs with
  | nil => exact pure_ok.trans (by simp [eq_comm])
  | cons x xs ih =>
    refine bind_ok.trans ⟨?_, ?_⟩
    · rintro ⟨_, s₁, hask, hrest⟩
      obtain ⟨hx, rfl⟩ := ask_ok.1 hask
      obtain ⟨hs, hxs⟩ := ih.1 hrest
      exact ⟨hs, List.forall_mem_cons.2 ⟨hx, hxs⟩⟩
    · rintro ⟨hs, hall⟩
      obtain ⟨hx, hxs⟩ := List.forall_mem_cons.1 hall
      exact ⟨(), s, ask_ok.2 ⟨hx, rfl⟩, ih.2 ⟨hs, hxs⟩⟩

theorem forM_ask_error {f : α → Store → Except Failure Unit} {xs : List α}
    (h : (xs.forM fun x => ask (f x)) s = .error e s') : s' = s := by
  induction xs generalizing s with
  | nil => cases h
  | cons x xs ih =>
    rcases bind_error.1 h with h | ⟨_, s₁, h₁, h₂⟩
    · exact (ask_error.1 h).2
    · obtain ⟨-, rfl⟩ := ask_ok.1 h₁
      exact ih h₂

theorem trail_of_forM {f : α → Step} {xs : List α}
    (h : (xs.forM fun x => (f x).edit) s = .ok () s') : Trail s (xs.map f) s' := by
  induction xs generalizing s with
  | nil =>
    obtain ⟨-, rfl⟩ := pure_ok.1 h
    exact .nil
  | cons x xs ih =>
    obtain ⟨_, s₁, h₁, h₂⟩ := bind_ok.1 h
    exact .cons h₁ (ih h₂)

/-- Writes that the store has agreed to do not fail, in whatever order they come. -/
theorem forM_write_not_error {f : α → Value} {g : α → Quark} {xs : List α}
    (hw : ∀ x ∈ xs, s.Writable (g x) t) :
    (xs.forM fun x => write t (f x) (g x)) s ≠ .error e s' := by
  intro h
  induction xs generalizing s with
  | nil => cases h
  | cons x xs ih =>
    have hx := hw x (by simp)
    rcases bind_error.1 h with h | ⟨_, s₁, h₁, h₂⟩
    · exact (write_error h).1 hx
    · obtain ⟨-, rfl⟩ := write_ok_iff.1 h₁
      exact ih (fun y hy => (hw y (by simp [hy])).wrote hx.covered) h₂

theorem forM_write_open {f : α → Value} {g : α → Quark} {xs : List α} (ho : s.Open t)
    (h : (xs.forM fun x => write t (f x) (g x)) s = .ok () s') : s'.Open t := by
  induction xs generalizing s with
  | nil =>
    obtain ⟨-, rfl⟩ := pure_ok.1 h
    exact ho
  | cons x xs ih =>
    obtain ⟨_, s₁, h₁, h₂⟩ := bind_ok.1 h
    obtain ⟨-, rfl⟩ := write_ok_iff.1 h₁
    exact ih (open_wrote ho) h₂

/-! ## Slots -/

theorem grow_slot (tree : Tree) (q : Quark) (height : Int) :
    (∃ c, tree.grow q (slotName height) = (c, tree)) ∨
      (tree.grow q (slotName height)).1.index = tree.size ∧
      (tree.grow q (slotName height)).2.size = tree.size + 1 := by
  simp only [slotName, Tree.grow]
  cases tree.child? q (toString height) with
  | some c => exact Or.inl ⟨c, rfl⟩
  | none => exact Or.inr ⟨rfl, Tree.size_addChild ..⟩

theorem Covered.grown_of_eq (h : s.Covered) {path : List String} {c : Quark}
    (hc : s.tree.grow q path = (c, s.tree)) : s.grown q path = s := by
  unfold Covered at h
  simp [grown, hc, cover, h]

/-- A slot that had to be added can be written whenever recording goes on. -/
theorem Covered.slot_cases (h : s.Covered) (q : Quark) (height : Int) (ho : s.Open t) :
    s.grown q (slotName height) = s ∨
      (s.grown q (slotName height)).Writable (s.tree.grow q (slotName height)).1 t := by
  rcases grow_slot s.tree q height with ⟨c, hc⟩ | ⟨hi, hs⟩
  · exact Or.inl (h.grown_of_eq hc)
  · refine Or.inr ⟨⟨ho.building, ho.start_le⟩, ?_, ?_⟩
    · rw [grown, size_timelines_cover, hi]
      change s.tree.size < s.timelines.size +
        ((s.tree.grow q (slotName height)).2.size - s.timelines.size)
      unfold Covered at h
      omega
    · rw [timelineOf_grown, timelineOf_outside (Nat.le_of_eq (h.trans hi.symm))]
      rfl

theorem Writable.grown {path : List String} {p : Quark} (h : s.Writable p t) :
    (s.grown q path).Writable p t := by
  refine ⟨⟨h.building, h.start_le⟩, ?_, by rw [timelineOf_grown]; exact h.onTime⟩
  have := h.covered
  rw [Store.grown, size_timelines_cover]
  simp only
  omega

/-! ## Stacks -/

theorem push_ok (h : push t v q s = .ok () s') : Trail s (Call.parts s (.push t v q)) s' := by
  simp only [push, bind_ok, ask_ok, add_ok_iff] at h
  obtain ⟨d, _, ⟨hd, rfl⟩, _, _, ⟨-, rfl⟩, _, _, ⟨hq, rfl, rfl⟩, _, _, ⟨-, rfl⟩, _, s₁,
      hchild, hdepth⟩ := h
  simp only [Call.parts, hd]
  exact .cons (Step.add_edit_ok_iff.2 ⟨hq, rfl⟩) (.cons hchild (.single hdepth))

theorem push_error (hs : s.Covered) (h : push t v q s = .error e s') : s' = s := by
  simp only [push, bind_error, ask_error, ask_ok, checkWritable_ok_iff, add_ok_iff] at h
  rcases h with ⟨-, rfl⟩ | ⟨d, _, ⟨-, rfl⟩, h⟩
  · rfl
  rcases h with ⟨-, rfl⟩ | ⟨_, _, ⟨hw, rfl⟩, h⟩
  · rfl
  rcases h with h | ⟨_, _, ⟨-, rfl, rfl⟩, h⟩
  · exact (add_error h).2
  rcases h with ⟨he, rfl⟩ | ⟨_, _, ⟨hwc, rfl⟩, h⟩
  · -- only a slot that was there already can refuse the write
    rcases hs.slot_cases q (d + 1) hw.toOpen with hsame | hnew
    · exact hsame
    · rw [checkWritable_ok_iff (u := ()) |>.2 hnew] at he
      cases he
  rcases h with h | ⟨_, _, hchild, h⟩
  · exact absurd hwc (write_error h).1
  · obtain ⟨-, rfl⟩ := write_ok_iff.1 hchild
    exact absurd (hw.grown.wrote hwc.covered) (write_error h).1

theorem pop_ok {top : Value} (h : pop t q s = .ok top s') :
    Trail s (Call.parts s (.pop t q)) s' := by
  simp only [pop, bind_ok, ask_ok] at h
  obtain ⟨d, _, ⟨hd, rfl⟩, h⟩ := h
  by_cases hle : d ≤ 0
  · simp only [hle, ↓reduceIte, bind_ok] at h
    obtain ⟨_, _, ⟨⟩, -⟩ := h
  simp only [hle, ↓reduceIte, bind_ok, ask_ok, get_ok, pure_ok] at h
  obtain ⟨child, _, ⟨hchild, rfl⟩, _, _, ⟨-, rfl⟩, _, _, ⟨-, rfl⟩, _, _, ⟨rfl, rfl⟩, _, s₁, hnull,
    _, _, hdepth, -, rfl⟩ := h
  simp only [Call.parts, hd, hchild]
  exact .cons hnull (.single hdepth)

theorem pop_error (h : pop t q s = .error e s') : s' = s := by
  simp only [pop, bind_error, ask_error, ask_ok] at h
  rcases h with ⟨-, rfl⟩ | ⟨d, _, ⟨-, rfl⟩, h⟩
  · rfl
  by_cases hle : d ≤ 0
  · simp only [hle, ↓reduceIte, bind_error] at h
    rcases h with h | ⟨_, _, h, -⟩ <;> cases h
    rfl
  simp only [hle, ↓reduceIte, bind_error, ask_error, ask_ok, get_ok, checkWritable_ok_iff] at h
  rcases h with ⟨-, rfl⟩ | ⟨child, _, ⟨-, rfl⟩, h⟩
  · rfl
  rcases h with ⟨-, rfl⟩ | ⟨_, _, ⟨hw, rfl⟩, h⟩
  · rfl
  rcases h with ⟨-, rfl⟩ | ⟨_, _, ⟨hwc, rfl⟩, h⟩
  · rfl
  rcases h with h | ⟨_, _, ⟨rfl, rfl⟩, h⟩
  · cases h
  rcases h with h | ⟨_, _, hnull, h⟩
  · exact absurd hwc (write_error h).1
  obtain ⟨-, rfl⟩ := write_ok_iff.1 hnull
  rcases h with h | ⟨_, _, _, h⟩
  · exact absurd (hw.wrote hwc.covered) (write_error h).1
  · cases h

/-! ## Counters -/

theorem guarded_ok {c : Bool} {f : Failure}
    (h : (if c then write t v q else throw f : Edit Unit) s = .ok () s') :
    write t v q s = .ok () s' := by
  cases c with
  | true => exact h
  | false => cases h

theorem guarded_error {c : Bool} {f : Failure}
    (h : (if c then write t v q else throw f : Edit Unit) s = .error e s') : s' = s := by
  cases c with
  | true => exact (write_error h).2
  | false => cases h; rfl

theorem addLong_ok {delta : Int64} (h : addLong t q delta s = .ok () s') :
    Trail s (Call.parts s (.addLong t q delta)) s' := by
  simp only [addLong, bind_ok, ask_ok] at h
  obtain ⟨n, _, ⟨hn, rfl⟩, h⟩ := h
  simp only [Call.parts, hn]
  exact .single (guarded_ok h)

theorem addLong_error {delta : Int64} (h : addLong t q delta s = .error e s') : s' = s := by
  simp only [addLong, bind_error, ask_error, ask_ok] at h
  rcases h with ⟨-, rfl⟩ | ⟨_, _, ⟨-, rfl⟩, h⟩
  · rfl
  · exact guarded_error h

theorem addInt_ok {delta : Int32} (h : addInt t q delta s = .ok () s') :
    Trail s (Call.parts s (.addInt t q delta)) s' := by
  simp only [addInt, bind_ok, ask_ok] at h
  obtain ⟨n, _, ⟨hn, rfl⟩, h⟩ := h
  simp only [Call.parts, hn]
  exact .single (guarded_ok h)

theorem addInt_error {delta : Int32} (h : addInt t q delta s = .error e s') : s' = s := by
  simp only [addInt, bind_error, ask_error, ask_ok] at h
  rcases h with ⟨-, rfl⟩ | ⟨_, _, ⟨-, rfl⟩, h⟩
  · rfl
  · exact guarded_error h

theorem addDouble_ok {delta : UInt64} (h : addDouble t q delta s = .ok () s') :
    Trail s (Call.parts s (.addDouble t q delta)) s' := by
  simp only [addDouble, bind_ok, ask_ok] at h
  obtain ⟨bits, _, ⟨hbits, rfl⟩, h⟩ := h
  simp only [Call.parts, hbits]
  exact .single h

theorem addDouble_error {delta : UInt64} (h : addDouble t q delta s = .error e s') : s' = s := by
  simp only [addDouble, bind_error, ask_error, ask_ok] at h
  rcases h with ⟨-, rfl⟩ | ⟨_, _, ⟨-, rfl⟩, h⟩
  · rfl
  · exact (write_error h).2

/-! ## Clearing -/

theorem clear_ok (h : clear t q s = .ok () s') : Trail s (Call.parts s (.clear t q)) s' := by
  simp only [clear, bind_ok, ask_ok, get_ok] at h
  obtain ⟨below, _, ⟨hbelow, rfl⟩, _, _, ⟨rfl, rfl⟩, _, _, hchecks, _, s₁, hwrites, hadvance⟩ := h
  obtain ⟨rfl, -⟩ := forM_ask_ok_iff.1 hchecks
  simp only [Call.parts, hbelow]
  exact (trail_of_forM (f := .write t .null) hwrites).append (.single hadvance)

theorem clear_error (h : clear t q s = .error e s') : s' = s := by
  simp only [clear, bind_error, ask_error, ask_ok, get_ok] at h
  rcases h with ⟨-, rfl⟩ | ⟨below, _, ⟨-, rfl⟩, h⟩
  · rfl
  rcases h with h | ⟨_, _, ⟨rfl, rfl⟩, h⟩
  · cases h
  rcases h with h | ⟨_, _, hchecks, h⟩
  · exact forM_ask_error h
  obtain ⟨rfl, hw⟩ := forM_ask_ok_iff.1 hchecks
  simp only [checkWritable_ok_iff] at hw
  rcases h with h | ⟨_, s₁, hwrites, h⟩
  · exact absurd h (forM_write_not_error (f := fun _ => .null) (g := id) hw)
  · -- with nothing to write the advance is the first to fail, with anything it cannot
    generalize (q :: below).filter _ = targets at hw hwrites
    cases targets with
    | nil =>
      obtain ⟨-, rfl⟩ := pure_ok.1 hwrites
      exact advance_error h
    | cons a targets =>
      have ho : s₁.Open t :=
        forM_write_open (f := fun _ => .null) (g := id) (hw a (by simp)).toOpen hwrites
      rw [advance_ok_iff.2 ⟨ho, rfl⟩] at h
      cases h

/-! ## Queues -/

theorem offer_ok (h : offer t v q s = .ok () s') : Trail s (Call.parts s (.offer t v q)) s' := by
  simp only [offer, bind_ok, ask_ok, get_ok, add_ok_iff] at h
  obtain ⟨_, _, ⟨-, rfl⟩, _, _, ⟨rfl, rfl⟩, _, _, ⟨hq, rfl, rfl⟩, hwrite⟩ := h
  exact .cons (Step.add_edit_ok_iff.2 ⟨hq, rfl⟩) (.single hwrite)

theorem offer_error (h : offer t v q s = .error e s') :
    Trail s (Call.leftover s (.offer t v q)) s' := by
  simp only [offer, bind_error, ask_error, ask_ok, get_ok, add_ok_iff, checkQuark_ok_iff] at h
  rcases h with ⟨he, rfl⟩ | ⟨_, _, ⟨hq, rfl⟩, h⟩
  · have hq : ¬ s'.tree.contains q = true := fun hq => by
      rw [checkQuark_ok_iff (u := ()) |>.2 hq] at he
      cases he
    simp only [Call.leftover, hq]
    exact .nil
  rcases h with h | ⟨_, _, ⟨rfl, rfl⟩, h⟩
  · cases h
  rcases h with h | ⟨_, _, ⟨-, rfl, rfl⟩, h⟩
  · rw [(add_error h).1] at hq
    cases hq
  obtain ⟨-, rfl⟩ := write_error h
  simp only [Call.leftover, hq, ↓reduceIte]
  exact .single (Step.add_edit_ok_iff.2 ⟨hq, rfl⟩)

theorem poll_ok {head : Value} (h : poll t q s = .ok head s') :
    Trail s (Call.parts s (.poll t q)) s' := by
  simp only [poll, bind_ok, ask_ok, get_ok, pure_ok] at h
  obtain ⟨_, _, ⟨-, rfl⟩, _, _, ⟨rfl, rfl⟩, _, _, hchecks, _, s₁, hwrites, -, rfl⟩ := h
  obtain ⟨rfl, -⟩ := forM_ask_ok_iff.1 hchecks
  exact trail_of_forM (f := fun (slot, v) => .write t v slot) hwrites

theorem poll_error (h : poll t q s = .error e s') : s' = s := by
  simp only [poll, bind_error, ask_error, ask_ok, get_ok] at h
  rcases h with ⟨-, rfl⟩ | ⟨_, _, ⟨-, rfl⟩, h⟩
  · rfl
  rcases h with h | ⟨_, _, ⟨rfl, rfl⟩, h⟩
  · cases h
  rcases h with h | ⟨_, _, hchecks, h⟩
  · exact forM_ask_error h
  obtain ⟨rfl, hw⟩ := forM_ask_ok_iff.1 hchecks
  simp only [checkWritable_ok_iff] at hw
  rcases h with h | ⟨_, _, _, h⟩
  · refine absurd h (forM_write_not_error (f := Prod.snd) (g := Prod.fst) ?_)
    exact fun x hx => hw _ (List.of_mem_zip hx).1
  · cases h

/-! ## All calls -/

theorem Call.trail_parts {c : Call} (h : c.edit s = .ok () s') : Trail s (c.parts s) s' := by
  cases c with
  | step a => exact .single h
  | push t v q => exact push_ok h
  | pop t q =>
    obtain ⟨_, _, hpop, hend⟩ := bind_ok.1 h
    obtain ⟨-, rfl⟩ := pure_ok.1 hend
    exact pop_ok hpop
  | addLong t q delta => exact addLong_ok h
  | addInt t q delta => exact addInt_ok h
  | addDouble t q delta => exact addDouble_ok h
  | clear t q => exact clear_ok h
  | offer t v q => exact offer_ok h
  | poll t q =>
    obtain ⟨_, _, hpoll, hend⟩ := bind_ok.1 h
    obtain ⟨-, rfl⟩ := pure_ok.1 hend
    exact poll_ok hpoll

theorem Call.trail_leftover_of_ne_push {c : Call} (hc : ∀ t v q, c ≠ .push t v q)
    (h : c.edit s = .error e s') :
    Trail s (c.leftover s) s' := by
  have unchanged : s' = s → Trail s [] s' := fun h => h ▸ .nil
  cases c with
  | step a => exact unchanged (Step.edit_error h)
  | push t v q => exact absurd rfl (hc t v q)
  | pop t q =>
    rcases bind_error.1 h with h | ⟨_, _, _, h⟩
    · exact unchanged (pop_error h)
    · cases h
  | addLong t q delta => exact unchanged (addLong_error h)
  | addInt t q delta => exact unchanged (addInt_error h)
  | addDouble t q delta => exact unchanged (addDouble_error h)
  | clear t q => exact unchanged (clear_error h)
  | offer t v q => exact offer_error h
  | poll t q =>
    rcases bind_error.1 h with h | ⟨_, _, _, h⟩
    · exact unchanged (poll_error h)
    · cases h

theorem Call.trail_leftover (hs : s.Covered) {c : Call} (h : c.edit s = .error e s') :
    Trail s (c.leftover s) s' := by
  by_cases hc : ∀ t v q, c ≠ .push t v q
  · exact Call.trail_leftover_of_ne_push hc h
  · push Not at hc
    obtain ⟨t, v, q, rfl⟩ := hc
    obtain rfl := push_error hs h
    exact .nil

/-- **A call comes down to its steps**: they all succeed, and lead to the store after the call. -/
theorem Call.trail (hs : s.Covered) (c : Call) : Trail s (c.steps s) (c.after s) := by
  unfold Call.steps Call.after Edit.after
  cases h : c.edit s with
  | ok u s' => exact Call.trail_parts h
  | error e s' => exact Call.trail_leftover hs h

/-- The steps that composed calls are made of. -/
def Step.Plain : Step → Prop
  | .add .. | .advance _ | .write .. => True
  | .amend .. | .close _ => False

/-- Composed calls neither amend nor close. -/
theorem Call.plain_of_mem_steps {c : Call} (hc : ∀ a, c ≠ .step a) {a : Step} (ha : a ∈ c.steps s) :
    a.Plain := by
  have hparts : ∀ a ∈ c.parts s, a.Plain := by
    cases c with
    | step a => exact absurd rfl (hc a)
    | clear t q =>
      intro a ha
      simp only [Call.parts] at ha
      split at ha
      · rcases List.mem_append.1 ha with ha | ha
        · obtain ⟨_, -, rfl⟩ := List.mem_map.1 ha
          trivial
        · obtain rfl := List.mem_singleton.1 ha
          trivial
      · cases ha
    | poll t q =>
      intro a ha
      obtain ⟨_, -, rfl⟩ := List.mem_map.1 ha
      trivial
    | _ =>
      simp only [Call.parts]
      repeat' split
      all_goals simp [Step.Plain]
  have hleft : ∀ a ∈ c.leftover s, a.Plain := by
    cases c <;> simp only [Call.leftover] <;> (repeat' split) <;> simp [Step.Plain]
  unfold Call.steps at ha
  split at ha
  · exact hparts a ha
  · exact hleft a ha

/-- What plain steps keep, wherever they are taken, holds after a call if the call is no other step
that breaks it. -/
theorem Call.induct {P : Store → Prop} (hs : s.Covered) (c : Call) (hP : P s)
    (hstep : ∀ {a : Step} {s₁ s₂ : Store}, a.Plain ∨ c = .step a ∧ s₁ = s → P s₁ →
      a.Takes s₁ s₂ → P s₂) :
    P (c.after s) := by
  cases c with
  | step a =>
    rcases Call.after_step a s with hok | ⟨-, hsame⟩
    · exact hstep (.inr ⟨rfl, rfl⟩) hP (Step.takes_of_edit hok)
    · rw [hsame]
      exact hP
  | _ =>
    refine (Call.trail hs _).induct_of (Q := Step.Plain) (fun ha => hstep (.inl ha)) ?_ hP
    exact fun a ha => Call.plain_of_mem_steps (by simp) ha

theorem Call.closed_after (hs : s.Covered) {c : Call} (hc : ∀ t, c ≠ .step (.close t)) :
    (c.after s).closed = s.closed := by
  refine Call.induct (P := fun s' => s'.closed = s.closed) hs c rfl ?_
  rintro a s₁ s₂ ha h ht
  refine (ht.closed_eq ?_).trans h
  rintro t rfl
  rcases ha with hplain | ⟨rfl, -⟩
  · exact hplain
  · exact hc t rfl

end

/-! ## Runs -/

theorem run_append (s : Store) :
    ∀ calls more : List Call, s.run (calls ++ more) = (s.run calls).run more
  | [], _ => rfl
  | c :: calls, more => run_append (c.after s) calls more

theorem Trail.covered {s s' : Store} {steps : List Step} (h : Trail s steps s') (hs : s.Covered) :
    s'.Covered :=
  h.induct Covered.takes hs

theorem trail_run :
    ∀ {s : Store} (_ : s.Covered) (calls : List Call), Trail s (s.trace calls) (s.run calls)
  | _, _, [] => .nil
  | _, hs, c :: calls =>
    have hc := Call.trail hs c
    hc.append (trail_run (hc.covered hs) calls)

/-- What the new store has and every step keeps holds after every run. -/
theorem run_induct {P : Store → Prop} (hnew : P new)
    (hstep : ∀ {s s' : Store} {a : Step}, P s → a.Takes s s' → P s') (calls : List Call) :
    P (new.run calls) :=
  (trail_run covered_new calls).induct hstep hnew

theorem covered_run (calls : List Call) : (new.run calls).Covered :=
  run_induct covered_new Covered.takes calls

/-! ## Failing calls -/

theorem Trail.eq_of_nil {s s' : Store} (h : Trail s [] s') : s' = s := by
  cases h
  rfl

theorem Call.leftover_eq_nil {s : Store} {c : Call} (hc : ∀ t v q, c ≠ .offer t v q) :
    c.leftover s = [] := by
  cases c with
  | offer t v q => exact absurd rfl (hc t v q)
  | _ => rfl

/-- **A call that fails changes nothing**: the store is the one before the call, its attributes, the
timeline of each of them, its bounds and its state of closing included. The one exception is an
offer, which leaves the slot that it has added. -/
theorem run_unchanged (calls : List Call) (c : Call) (hc : ∀ t v q, c ≠ .offer t v q) {e : Failure}
    {s' : Store} (h : c.edit (new.run calls) = .error e s') : s' = new.run calls := by
  have ht := Call.trail_leftover (covered_run calls) h
  rw [Call.leftover_eq_nil hc] at ht
  exact ht.eq_of_nil

/-- A stack whose first slot was written past the time that is pushed at: the depth could be
written, the slot cannot. -/
def slotAhead : List Call :=
  [.step (.add ⟨0⟩ ["s", "1"]), .step (.advance 10), .step (.write 50 (.int 9) ⟨2⟩)]

theorem run_unchanged_slotAhead :
    ∃ s', (Call.push 20 (.int 1) ⟨1⟩).edit (new.run slotAhead) =
      .error (.orderingViolation (some ⟨2⟩) 20 50) s' ∧
      s' = new.run slotAhead := by
  have h : (Call.push 20 (.int 1) ⟨1⟩).edit (new.run slotAhead) =
      .error (.orderingViolation (some ⟨2⟩) 20 50) (new.run slotAhead) := rfl
  exact ⟨_, h, run_unchanged slotAhead _ (by simp) h⟩

end StateHistory.Store
