import StateHistory.Proofs.Attribute.Entries
import StateHistory.Proofs.Store.Composed
import StateHistory.Store.Image

/-!
# The attributes of a store

Only adding changes the tree of a store, and it takes nothing away: links go on to agree, and what a
path leads to stays where it is. So an image of a store is enough to restore one with the same image
(`ofImage_image`).
-/

namespace StateHistory.Store

section
variable {s s' : Store} {a : Step} {steps : List Step} {q c : Quark} {name : String}
  {path : List String}

@[simp] theorem tree_amended (s : Store) (v : Value) (q : Quark) : (s.amended v q).tree = s.tree :=
  rfl

/-- What growing keeps is kept by every step. -/
theorem Step.Takes.tree {P : Tree → Prop} (ha : a.Takes s s') (h : P s.tree)
    (hgrow : ∀ base path, s.tree.contains base = true → P (s.tree.grow base path).2) :
    P s'.tree := by
  cases ha with
  | add hb => exact hgrow _ _ hb
  | advance _ => rw [tree_reach]; exact h
  | write _ => rw [tree_wrote]; exact h
  | amend _ => exact h
  | close _ => exact h

theorem Step.Takes.linked (ha : a.Takes s s') (h : s.tree.Linked) : s'.tree.Linked :=
  ha.tree (P := Tree.Linked) h fun _ path hb => h.grow hb path

theorem Trail.linked (ht : Trail s steps s') (h : s.tree.Linked) : s'.tree.Linked :=
  ht.induct (P := fun s => s.tree.Linked) (fun h ha => ha.linked h) h

/-- What a linked tree has, a trail leaves where it is. -/
theorem Trail.kept {P : Tree → Prop} (ht : Trail s steps s') (h : s.tree.Linked) (hP : P s.tree)
    (hgrow : ∀ {t : Tree} {base : Quark} (path : List String), t.Linked →
      t.contains base = true → P t →
      P (t.grow base path).2) : P s'.tree := by
  refine (ht.induct (P := fun s => s.tree.Linked ∧ P s.tree) ?_ ⟨h, hP⟩).2
  rintro s s' a ⟨hl, hP⟩ ha
  exact ⟨ha.linked hl, ha.tree hP fun base path hb => hgrow path hl hb hP⟩

theorem Trail.contains (ht : Trail s steps s') (h : s.tree.Linked) (hq : s.tree.contains q = true) :
    s'.tree.contains q = true :=
  ht.kept (P := fun t => t.contains q = true) h hq fun path hl hb hq => hl.contains_grow hb path hq

theorem Trail.child? (ht : Trail s steps s') (h : s.tree.Linked)
    (hc : s.tree.child? q name = some c) :
    s'.tree.child? q name = some c :=
  ht.kept (P := fun t => t.child? q name = some c) h hc fun path hl hb hc =>
    hl.child?_grow hb path hc

theorem Trail.descend (ht : Trail s steps s') (h : s.tree.Linked)
    (hd : s.tree.descend q path = some c) :
    s'.tree.descend q path = some c :=
  ht.kept (P := fun t => t.descend q path = some c) h hd fun more hl hb hd =>
    hl.descend_grow hb more path q hd

/-- Children that come on the way are new attributes. -/
theorem Trail.mem_childrenOf (ht : Trail s steps s') (h : s.tree.Linked)
    (hc : c ∈ s'.tree.childrenOf q) :
    c ∈ s.tree.childrenOf q ∨ s.tree.size ≤ c.index := by
  refine (ht.kept (P := fun t => s.tree.size ≤ t.size ∧
    ∀ c ∈ t.childrenOf q, c ∈ s.tree.childrenOf q ∨ s.tree.size ≤ c.index) h ⟨Nat.le_refl _,
    fun _ => Or.inl⟩ ?_).2 c hc
  rintro t base path hl hb ⟨hle, hall⟩
  refine ⟨Nat.le_trans hle (Tree.size_le_grow t base path), fun c hc => ?_⟩
  rcases hl.mem_childrenOf_grow hb path hc with hc | hc
  · exact hall c hc
  · exact Or.inr (Nat.le_trans hle hc)

/-- What is found under a name only since then is a new attribute. -/
theorem Trail.child?_cases (ht : Trail s steps s') (h : s.tree.Linked)
    (hc : s'.tree.child? q name = some c) :
    s.tree.child? q name = some c ∨ s.tree.size ≤ c.index := by
  refine (ht.kept (P := fun t => s.tree.size ≤ t.size ∧
    ∀ c, t.child? q name = some c → s.tree.child? q name = some c ∨ s.tree.size ≤ c.index) h
    ⟨Nat.le_refl _, fun _ => Or.inl⟩ ?_).2 c hc
  rintro t base path hl hb ⟨hle, hall⟩
  refine ⟨Nat.le_trans hle (Tree.size_le_grow t base path), fun c hc => ?_⟩
  rcases hl.child?_grow_cases hb path hc with hc | hc
  · exact hall c hc
  · exact Or.inr (Nat.le_trans hle hc)

theorem linked_run (calls : List Call) : (new.run calls).tree.Linked :=
  run_induct (P := fun s => s.tree.Linked) Tree.linked_empty (fun h ha => ha.linked h) calls

theorem Step.Takes.grown (ha : a.Takes s s') (h : s.tree.Grown) : s'.tree.Grown :=
  ha.tree (P := Tree.Grown) h fun _ path hb => h.grow hb path

theorem grown_run (calls : List Call) : (new.run calls).tree.Grown :=
  run_induct (P := fun s => s.tree.Grown) Tree.grown_empty (fun h ha => ha.grown h) calls

/-! ## Images -/

/-- What a store is restored to from an image with as many lists of intervals as attributes. -/
theorem eq_of_ofImage {i : Image} (h : ofImage i = .ok s) :
    ∃ tree, Tree.ofEntries i.attributes = .ok tree ∧ i.intervals.length = tree.size ∧
      s = ⟨tree, (i.intervals.map fun ivs => { closed := ivs.toArray }).toArray, i.start,
        i.stop, true⟩ := by
  unfold ofImage at h
  cases ht : Tree.ofEntries i.attributes with
  | error e => rw [ht] at h; cases h
  | ok tree =>
    rw [ht] at h
    simp only [bind, Except.bind] at h
    split at h
    · cases h
    · rename_i hlen
      exact ⟨tree, rfl, not_not.1 hlen, (Except.ok.inj h).symm⟩

/-- Whatever image a store is restored from, its links agree and each attribute has a timeline. -/
theorem ofImage_ok {i : Image} (h : ofImage i = .ok s) : s.tree.Linked ∧ s.Covered := by
  obtain ⟨tree, ht, hlen, rfl⟩ := eq_of_ofImage h
  refine ⟨Tree.linked_empty.extend ht, ?_⟩
  unfold Covered
  simpa using hlen

/-- What an image is restored to, once its entries have led to a tree: the same timelines, with no
state ongoing. -/
theorem ofImage_of_entries {tree : Tree} (ht : Tree.ofEntries s.tree.entries = .ok tree)
    (hsize : s.timelines.size = tree.size) : ofImage s.image = .ok {
      tree
      timelines := s.timelines.map fun l => { l with ongoing := none }
      start := s.start
      stop := s.stop
      closed := true } := by
  have hlen : s.image.intervals.length = tree.size := by simpa [image] using hsize
  unfold ofImage
  rw [show s.image.attributes = s.tree.entries from rfl, ht]
  simp only [bind, Except.bind, hlen, ne_eq, not_true, ↓reduceIte]
  simp [image, pure, Except.pure, Function.comp_def, ← Array.toList_map]

/-- **A store can be restored from its image**: the store that it leads to has the same image. -/
theorem ofImage_image (h : s.tree.Linked) (hc : s.Covered) :
    ∃ s', ofImage s.image = .ok s' ∧ s'.image = s.image := by
  obtain ⟨tree, ht, hes⟩ := h.ofEntries_entries
  have hsize : s.timelines.size = tree.size := by
    rw [← Tree.length_entries, hes, Tree.length_entries]
    exact hc
  exact ⟨_, ofImage_of_entries ht hsize, by simp [image, hes, Function.comp_def]⟩

end

end StateHistory.Store
