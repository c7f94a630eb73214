import StateHistory.Proofs.Store.Attributes

/-!
# Stores of every origin

A store begins in one of three ways: new, with a timeline for the root; restored from an image; or
bare, without any timeline. Of these only the bare one has an attribute without a timeline, and it
stays like this until a call adds an attribute to the root (`Made.covered_run_iff`).
-/

namespace StateHistory

namespace Store

/-- The ways in which a store can begin. -/
inductive Made : Store → Prop
  | new : Made new
  | bare : Made bare
  | ofImage {i : Image} {s : Store} (h : ofImage i = .ok s) : Made s

/-- The call has the root get an attribute, if it is not refused. -/
def Call.AddsToRoot : Call → Prop
  | .step (.add base _) => base = .root
  | .offer _ _ q => q = .root
  | _ => False

/-- There is no attribute but the root, and no timeline. -/
structure Rootless (s : Store) : Prop where
  tree_eq : s.tree = .empty
  timelines_eq : s.timelines = #[]

section
variable {s s' : Store} {a : Step} {c : Call} {q : Quark}

theorem rootless_bare : bare.Rootless := ⟨rfl, rfl⟩

theorem Rootless.not_covered (h : s.Rootless) : ¬ s.Covered := by
  intro hc
  unfold Covered at hc
  rw [h.tree_eq, h.timelines_eq] at hc
  cases hc

theorem Rootless.contains_iff (h : s.Rootless) : s.tree.contains q = true ↔ q = .root := by
  obtain ⟨i⟩ := q
  rw [h.tree_eq]
  simp [Tree.contains, Tree.empty, Quark.root]

theorem Rootless.timeline_eq (h : s.Rootless) (q : Quark) :
    s.timeline q = .error (.invalidQuark q) := by
  simp [timeline, h.timelines_eq]

theorem Rootless.find?_eq (h : s.Rootless) (q : Quark) (name : String) :
    s.tree.find? q [name] = none := by
  unfold Tree.find?
  split
  · obtain rfl := h.contains_iff.1 ‹_›
    rw [h.tree_eq]
    rfl
  · rfl

/-! ## What a call does to a store without timelines -/

/-- Adding an attribute adds the timelines that are missing. -/
theorem covered_grown {base : Quark} {path : List String}
    (h : s.timelines.size ≤ (s.tree.grow base path).2.size) :
    (s.grown base path).Covered := by
  unfold Covered
  rw [grown, size_timelines_cover]
  change s.timelines.size + ((s.tree.grow base path).2.size - s.timelines.size) =
    (s.tree.grow base path).2.size
  omega

theorem Rootless.covered_grown (h : s.Rootless) (base : Quark) (path : List String) :
    (s.grown base path).Covered := by
  refine Store.covered_grown ?_
  rw [h.timelines_eq]
  exact Nat.zero_le _

theorem Rootless.takes (h : s.Rootless) (ha : a.Takes s s') (hno : ∀ path, a ≠ .add .root path) :
    s'.Rootless := by
  cases ha with
  | add hb =>
    obtain rfl := h.contains_iff.1 hb
    exact absurd rfl (hno _)
  | advance _ => exact ⟨by rw [tree_reach, h.tree_eq], by rw [timelines_reach, h.timelines_eq]⟩
  | write hw =>
    have hlt := hw.covered
    rw [h.timelines_eq] at hlt
    cases hlt
  | amend _ => exact ⟨h.tree_eq, by simp [amended, setTimeline, h.timelines_eq]⟩
  | close _ => exact ⟨h.tree_eq, by simp [ended, h.timelines_eq, closeAll]⟩

theorem Rootless.depth_eq (h : s.Rootless) (q : Quark) : depth q s = .error (.invalidQuark q) := by
  rw [depth, base, h.timeline_eq]
  rfl

theorem Rootless.push_eq (h : s.Rootless) (t : Time) (v : Value) (q : Quark) :
    push t v q s = .error (.invalidQuark q) s :=
  Edit.bind_error.2 (Or.inl (Edit.ask_error.2 ⟨h.depth_eq q, rfl⟩))

/-- A call comes down to its steps here too. -/
theorem Rootless.trail (h : s.Rootless) (c : Call) : Trail s (c.steps s) (c.after s) := by
  by_cases hc : ∀ t v q, c ≠ .push t v q
  · unfold Call.steps Call.after Edit.after
    cases he : c.edit s with
    | ok u s' => exact Call.trail_parts he
    | error e s' => exact Call.trail_leftover_of_ne_push hc he
  · push Not at hc
    obtain ⟨t, v, q, rfl⟩ := hc
    have he : (Call.push t v q).edit s = .error (.invalidQuark q) s := h.push_eq t v q
    unfold Call.steps Call.after Edit.after
    rw [he]
    exact .nil

theorem Rootless.covered_after (h : s.Rootless) (hc : c.AddsToRoot) : (c.after s).Covered := by
  have hsteps : ∃ path rest, c.steps s = .add .root path :: rest := by
    have hroot : s.tree.contains .root = true := h.contains_iff.2 rfl
    cases c with
    | step a =>
      cases a with
      | add base path =>
        obtain rfl : base = .root := hc
        have hok : (Call.step (.add .root path)).edit s = .ok () (s.grown .root path) :=
          Step.add_edit_ok_iff.2 ⟨hroot, rfl⟩
        exact ⟨path, [], by rw [Call.steps, hok]; rfl⟩
      | _ => exact hc.elim
    | offer t v q =>
      obtain rfl : q = .root := hc
      unfold Call.steps
      cases (Call.offer t v .root).edit s with
      | ok u s' => exact ⟨_, _, rfl⟩
      | error e s' =>
        exact ⟨Call.nextSlot s .root, [], by simp only [Call.leftover, hroot, ↓reduceIte]⟩
    | _ => exact hc.elim
  obtain ⟨path, rest, hsteps⟩ := hsteps
  have htrail := h.trail c
  rw [hsteps] at htrail
  cases htrail with
  | cons head rest =>
    obtain ⟨-, rfl⟩ := Step.add_edit_ok_iff.1 head
    exact rest.covered (h.covered_grown _ _)

/-- No other call comes to add an attribute to the root. -/
theorem Rootless.ne_add_of_mem_steps (h : s.Rootless) (hc : ¬ c.AddsToRoot) (ha : a ∈ c.steps s)
    (path : List String) :
    a ≠ .add .root path := by
  have hparts : ∀ a ∈ c.parts s, ∀ path, a ≠ .add .root path := by
    cases c with
    | step b =>
      rintro a ha path rfl
      obtain rfl := List.mem_singleton.1 ha
      exact hc rfl
    | push t v q => simp [Call.parts, h.depth_eq]
    | offer t v q =>
      have hq : q ≠ .root := hc
      simp [Call.parts, hq]
    | clear t q =>
      simp only [Call.parts]
      split
      · intro a ha path
        rcases List.mem_append.1 ha with ha | ha
        · obtain ⟨_, -, rfl⟩ := List.mem_map.1 ha
          simp
        · obtain rfl := List.mem_singleton.1 ha
          simp
      · simp
    | poll t q =>
      intro a ha path
      obtain ⟨_, -, rfl⟩ := List.mem_map.1 ha
      simp
    | _ =>
      simp only [Call.parts]
      repeat' split
      all_goals simp
  have hleft : ∀ a ∈ c.leftover s, ∀ path, a ≠ .add .root path := by
    cases c with
    | offer t v q =>
      have hq : q ≠ .root := hc
      simp only [Call.leftover]
      split <;> simp [hq]
    | _ => simp [Call.leftover]
  unfold Call.steps at ha
  split at ha
  · exact hparts a ha path
  · exact hleft a ha path

theorem Rootless.after (h : s.Rootless) (hc : ¬ c.AddsToRoot) : (c.after s).Rootless :=
  (h.trail c).induct_of (Q := fun a => ∀ path, a ≠ .add .root path) (fun hno h ha => h.takes ha hno)
    (fun _ ha => h.ne_add_of_mem_steps hc ha) h

/-! ## Runs -/

/-- What is known of a store of any origin: its tree has grown, and there are timelines for all
attributes or for none. -/
structure Kept (s : Store) : Prop where
  grown : s.tree.Grown
  laid : s.Covered ∨ s.Rootless

/-- An attribute has a timeline if there are timelines for all. -/
theorem Kept.lt_size_iff (h : s.Kept) :
    q.index < s.timelines.size ↔ s.tree.contains q = true ∧ s.Covered := by
  rcases h.laid with hcovered | hrootless
  · rw [← hcovered.contains_iff, and_iff_left hcovered]
  · rw [hrootless.timelines_eq]
    simpa using fun _ => hrootless.not_covered

theorem Kept.trail (h : s.Kept) (c : Call) : Trail s (c.steps s) (c.after s) := by
  rcases h.laid with hcovered | hrootless
  · exact Call.trail hcovered c
  · exact hrootless.trail c

theorem Kept.after (h : s.Kept) (c : Call) : (c.after s).Kept := by
  refine ⟨(h.trail c).induct (P := fun s => s.tree.Grown) (fun h ha => ha.grown h) h.grown, ?_⟩
  rcases h.laid with hcovered | hrootless
  · exact Or.inl ((Call.trail hcovered c).covered hcovered)
  · by_cases hc : c.AddsToRoot
    · exact Or.inl (hrootless.covered_after hc)
    · exact Or.inr (hrootless.after hc)

theorem Kept.run : ∀ {s : Store} (_ : s.Kept) (calls : List Call), (s.run calls).Kept
  | _, h, [] => h
  | _, h, c :: calls => (h.after c).run calls

theorem covered_run_of_covered (h : s.Covered) (calls : List Call) : (s.run calls).Covered :=
  (trail_run h calls).covered h

/-- The timelines come with the first attribute that is added to the root. -/
theorem Rootless.covered_run_iff : ∀ {s : Store} (_ : s.Rootless) (calls : List Call),
    (s.run calls).Covered ↔ ∃ c ∈ calls, c.AddsToRoot
  | s, h, [] => by simpa [run] using h.not_covered
  | s, h, c :: calls => by
    simp only [run, List.mem_cons, exists_eq_or_imp]
    by_cases hc : c.AddsToRoot
    · exact iff_of_true (covered_run_of_covered (h.covered_after hc) calls) (Or.inl hc)
    · rw [(h.after hc).covered_run_iff calls, or_iff_right hc]

theorem Made.kept (h : s.Made) : s.Kept := by
  cases h with
  | new => exact ⟨Tree.grown_empty, Or.inl covered_new⟩
  | bare => exact ⟨Tree.grown_empty, Or.inr rootless_bare⟩
  | ofImage h =>
    obtain ⟨tree, ht, -, rfl⟩ := eq_of_ofImage h
    exact ⟨Tree.grown_empty.extend ht, Or.inl (ofImage_ok h).2⟩

theorem Made.covered_run_iff (h : s.Made) (calls : List Call) :
    (s.run calls).Covered ↔ s ≠ Store.bare ∨ ∃ c ∈ calls, c.AddsToRoot := by
  rcases h.kept.laid with hcovered | hrootless
  · have hne : s ≠ Store.bare := by
      rintro rfl
      exact rootless_bare.not_covered hcovered
    exact iff_of_true (covered_run_of_covered hcovered calls) (Or.inl hne)
  · have heq : s = Store.bare := by
      cases h with
      | new => exact absurd covered_new hrootless.not_covered
      | bare => rfl
      | ofImage h => exact absurd (ofImage_ok h).2 hrootless.not_covered
    rw [hrootless.covered_run_iff calls, heq]
    simp

end

end Store

end StateHistory
