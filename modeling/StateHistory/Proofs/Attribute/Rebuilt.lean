import StateHistory.Proofs.Attribute.Paths

/-!
# Trees from entries

Entries tell the names and the parents of attributes, and nothing of children or indexes. For a tree
that has grown this is enough: it is built again from its entries with children, their order and the
indexes as they were, and whatever is asked of it later is answered as before
(`Indexes.answers_eq`). Entries that come from elsewhere are accepted just if each but the first has
a parent before it (`ofEntries_ok_iff`). The first then counts as the root's, whatever it says, and
the others come back as they are (`entries_of_ofEntries`); what is refused names the first entry
without such a parent (`extend_error`).
-/

namespace StateHistory

/-- The parent of the entry at place `i` comes before it. -/
def Entry.Follows (i : Nat) (e : Entry) : Prop := ∃ p, e.parent = some p ∧ p.index < i

/-- What is said of the entry at place `i` when it has no parent, or none that comes before it. -/
def Entry.complaint (i : Nat) (e : Entry) : Failure :=
  match e.parent with
  | none => .persistence ("attribute " ++ toString i ++ " has no parent")
  | some p => .persistence ("attribute " ++ toString i ++ " precedes its parent " ++ p.text)

namespace IndexedTree

/-- The nodes without their children and indexes, in the order of their quarks. -/
def entries (x : IndexedTree) : List Entry :=
  x.nodes.toList.map fun n => ⟨n.node.name, n.node.parent⟩

/-- Adds the entries of the quarks from the number of nodes on. Each needs a parent that is there
already. -/
def extend (x : IndexedTree) : List Entry → Except Failure IndexedTree
  | [] => .ok x
  | e :: rest =>
    match e.parent with
    | none => .error (e.complaint x.nodes.size)
    | some parent =>
      if x.nodes.size ≤ parent.index then .error (e.complaint x.nodes.size)
      else (x.addChild parent e.name).2.extend rest

/-- The tree with the given entries. The first stands for the root, whatever it says. -/
def ofEntries (entries : List Entry) : Except Failure IndexedTree := empty.extend (entries.drop 1)

/-- What some requests for attributes at paths, made one after the other, are answered. -/
def answers (x : IndexedTree) : List (Quark × List String) → List (Except Failure Quark)
  | [] => []
  | (base, path) :: rest =>
    match x.ensure base path with
    | .ok (q, x) => .ok q :: x.answers rest
    | .error e => .error e :: x.answers rest

end IndexedTree

/-- Trees are built alike, with indexes and without, or refused alike. -/
inductive Agrees : Except Failure IndexedTree → Except Failure Tree → Prop
  | ok {x : IndexedTree} {t : Tree} (h : Indexes x t) : Agrees (.ok x) (.ok t)
  | error (e : Failure) : Agrees (.error e) (.error e)

namespace Tree

/-- What some requests for attributes at paths, made one after the other, are answered. -/
def answers (t : Tree) : List (Quark × List String) → List (Except Failure Quark)
  | [] => []
  | (base, path) :: rest =>
    match t.ensure base path with
    | .ok (q, t) => .ok q :: t.answers rest
    | .error e => .error e :: t.answers rest

section
variable {t t' : Tree} {es : List Entry} {e : Entry} {f : Failure}

theorem extend_cons (t : Tree) (e : Entry) (es : List Entry) : t.extend (e :: es) =
    match e.parent with
    | none => .error (e.complaint t.size)
    | some p =>
      if t.size ≤ p.index then .error (e.complaint t.size)
      else (t.addChild p e.name).2.extend es := by
  rw [Tree.extend, Entry.complaint]
  cases e.parent <;> rfl

theorem extend_cons_of_follows {p : Quark} (hp : e.parent = some p) (hlt : p.index < t.size) :
    t.extend (e :: es) = (t.addChild p e.name).2.extend es := by
  rw [extend_cons, hp]
  exact if_neg (by omega)

theorem extend_cons_of_not_follows (h : ¬ e.Follows t.size) :
    t.extend (e :: es) = .error (e.complaint t.size) := by
  rw [extend_cons]
  split
  · rfl
  · rename_i p hp
    refine if_pos (Nat.le_of_not_lt fun hlt => h ⟨p, hp, hlt⟩)

/-- What is refused has a first entry whose parent does not come before it. -/
theorem extend_error : ∀ (es : List Entry) {t : Tree}, t.extend es = .error f →
    ∃ (i : Nat) (e : Entry), es[i]? = some e ∧ ¬ e.Follows (t.size + i) ∧
    f = e.complaint (t.size + i) ∧
      ∀ j < i, ∀ d : Entry, es[j]? = some d → d.Follows (t.size + j)
  | [], _, h => by cases h
  | e :: es, t, h => by
    by_cases hfollows : e.Follows t.size
    · obtain ⟨p, hp, hlt⟩ := hfollows
      rw [extend_cons_of_follows hp hlt] at h
      obtain ⟨i, d, hd, hnot, hf, hfirst⟩ := extend_error es h
      simp only [size_addChild, Nat.add_assoc, Nat.add_comm 1] at hnot hf hfirst
      refine ⟨i + 1, d, hd, hnot, hf, fun j hj d' hd' => ?_⟩
      cases j with
      | zero => exact Option.some.inj hd' ▸ ⟨p, hp, hlt⟩
      | succ j => exact hfirst j (by omega) d' hd'
    · rw [extend_cons_of_not_follows hfollows] at h
      exact ⟨0, e, rfl, hfollows, (Except.error.inj h).symm, nofun⟩

theorem extend_ok_iff :
    (∃ t', t.extend es = .ok t') ↔ ∀ (i : Nat) (e : Entry), es[i]? = some e →
      e.Follows (t.size + i) := by
  constructor
  · induction es generalizing t with
    | nil => simp
    | cons e es ih =>
      rintro ⟨t', h⟩ i d hd
      by_cases hfollows : e.Follows t.size
      · obtain ⟨p, hp, hlt⟩ := hfollows
        rw [extend_cons_of_follows hp hlt] at h
        cases i with
        | zero => exact Option.some.inj hd ▸ ⟨p, hp, hlt⟩
        | succ i =>
          have hnext := ih ⟨t', h⟩ i d hd
          rwa [size_addChild, Nat.add_assoc, Nat.add_comm 1] at hnext
      · rw [extend_cons_of_not_follows hfollows] at h
        cases h
  · intro h
    obtain ⟨t', ht', -⟩ := extend_eq_ok es t h
    exact ⟨t', ht'⟩

theorem entries_of_extend (h : t.extend es = .ok t') : t'.entries = t.entries ++ es := by
  obtain ⟨t'', ht'', hes⟩ := extend_eq_ok es t (extend_ok_iff.1 ⟨t', h⟩)
  obtain rfl := Except.ok.inj (h.symm.trans ht'')
  exact hes

/-! ## Entries from anywhere -/

/-- **Entries make a tree just if every parent comes before its children.** -/
theorem ofEntries_ok_iff :
    (∃ t, ofEntries es = .ok t) ↔ ∀ (i : Nat) (e : Entry), 0 < i → es[i]? = some e →
      e.Follows i := by
  have hsize : empty.size = 1 := rfl
  rw [ofEntries, extend_ok_iff]
  simp only [List.getElem?_drop, hsize]
  constructor
  · intro h i e hi he
    obtain ⟨i, rfl⟩ : ∃ k, i = 1 + k := ⟨i - 1, by omega⟩
    exact h i e he
  · exact fun h i e he => h (1 + i) e (by omega) he

theorem entries_of_ofEntries (h : ofEntries es = .ok t) : t.entries = ⟨"", none⟩ :: es.drop 1 :=
  entries_of_extend h

theorem ofEntries_error (h : ofEntries es = .error f) :
    ∃ (i : Nat) (e : Entry), 0 < i ∧ es[i]? = some e ∧ ¬ e.Follows i ∧ f = e.complaint i ∧
      ∀ (j : Nat) (d : Entry), 0 < j → j < i → es[j]? = some d → d.Follows j := by
  obtain ⟨i, e, he, hnot, hf, hfirst⟩ := extend_error _ h
  rw [List.getElem?_drop] at he
  refine ⟨1 + i, e, by omega, he, hnot, hf, fun j d hj hji hd => ?_⟩
  obtain ⟨j, rfl⟩ : ∃ k, j = 1 + k := ⟨j - 1, by omega⟩
  exact hfirst j (by omega) d (by rwa [List.getElem?_drop])

theorem grown_ensureAll (requests : List (Quark × List String)) :
    (empty.ensureAll requests).Grown :=
  ensureAll_induct (P := Grown) (fun path hb h => h.grow hb path) requests grown_empty

end

end Tree

/-! ## Indexes -/

theorem Indexes.entries_eq {x : IndexedTree} {t : Tree} (h : Indexes x t) :
    x.entries = t.entries := by
  rw [Tree.entries, ← h.nodes_eq, Array.toList_map, List.map_map]
  rfl

/-- Entries bring trees with indexes and without to the same. -/
theorem Indexes.extend :
    ∀ {x : IndexedTree} {t : Tree} (_ : Indexes x t) (_ : t.Linked) (es : List Entry),
    Agrees (x.extend es) (t.extend es)
  | _, _, h, _, [] => .ok h
  | x, t, h, hl, e :: es => by
    rw [IndexedTree.extend, Tree.extend_cons, h.size_eq]
    split
    · exact .error _
    · rename_i p hp
      split
      · exact .error _
      · rename_i hlt
        have hin : t.contains p = true := decide_eq_true (Nat.not_le.1 hlt)
        exact (h.addChild hl hin e.name).extend (hl.addChild hin e.name) es

/-- **The same requests get the same answers.** -/
theorem Indexes.answers_eq : ∀ {x : IndexedTree} {t : Tree} (_ : Indexes x t) (_ : t.Linked)
    (requests : List (Quark × List String)), x.answers requests = t.answers requests
  | _, _, _, _, [] => rfl
  | x, t, h, hl, (base, path) :: rest => by
    simp only [IndexedTree.answers, Tree.answers, IndexedTree.ensure, Tree.ensure, h.contains_iff]
    by_cases hb : t.contains base = true
    · obtain ⟨hq, hnext⟩ := h.grow hl hb path
      simp only [hb, ↓reduceIte, hq]
      rw [hnext.answers_eq (hl.grow hb path) rest]
    · simp only [hb, Bool.false_eq_true, ↓reduceIte]
      rw [h.answers_eq hl rest]

namespace Tree

/-- **Entries are enough to build a tree again.** A tree that has grown from its root by requests
for paths is built again from its entries as it was, with its nodes, their names, parents and
children in order, and with indexes that find the same children; later requests get the same answers
from both. Whatever entries there are, they are accepted just if each but the first has a parent
that comes before it, and then they are the entries of the tree that is built, the first being the
root's; otherwise the first of them without such a parent is named. -/
theorem rebuilt_ensureAll (requests : List (Quark × List String)) (entries : List Entry) :
    let t := empty.ensureAll requests
    let x := IndexedTree.empty.ensureAll requests
    Indexes x t ∧ ofEntries t.entries = .ok t ∧
    (∃ x', IndexedTree.ofEntries x.entries = .ok x' ∧ x'.nodes.map (·.node) = x.nodes.map (·.node) ∧
      (∀ q name, x'.child? q name = x.child? q name) ∧ ∀ later,
      x'.answers later = x.answers later) ∧
    Agrees (IndexedTree.ofEntries entries) (ofEntries entries) ∧
    ((∃ t', ofEntries entries = .ok t') ↔ ∀ (i : Nat) (e : Entry), 0 < i → entries[i]? = some e →
      e.Follows i) ∧
    (∀ t', ofEntries entries = .ok t' → t'.entries = ⟨"", none⟩ :: entries.drop 1) ∧
    ∀ f, ofEntries entries = .error f → ∃ (i : Nat) (e : Entry), 0 < i ∧ entries[i]? = some e ∧
    ¬ e.Follows i ∧
      f = e.complaint i ∧ ∀ (j : Nat) (d : Entry), 0 < j → j < i → entries[j]? = some d →
      d.Follows j := by
  intro t x
  have hgrown : t.Grown := grown_ensureAll requests
  have hindexes : Indexes x t := .ensureAll requests indexes_empty linked_empty
  have hrebuilt := hgrown.ofEntries_entries
  have hagrees : ∀ es, Agrees (IndexedTree.ofEntries es) (ofEntries es) := fun es =>
    indexes_empty.extend linked_empty _
  refine ⟨hindexes, hrebuilt, ?_, hagrees entries, ofEntries_ok_iff, fun t' => entries_of_ofEntries,
    fun f => ofEntries_error⟩
  have hagree := hagrees t.entries
  rw [hrebuilt, ← hindexes.entries_eq] at hagree
  cases hx' : IndexedTree.ofEntries x.entries with
  | error e =>
    rw [hx'] at hagree
    cases hagree
  | ok x' =>
    rw [hx'] at hagree
    cases hagree with
    | ok h =>
      refine ⟨x', rfl, h.nodes_eq.trans hindexes.nodes_eq.symm, fun q name => ?_, fun later => ?_⟩
      · rw [h.child?_eq, hindexes.child?_eq]
      · rw [h.answers_eq hgrown.toLinked, hindexes.answers_eq hgrown.toLinked]

example : ofEntries [⟨"", none⟩, ⟨"a", some ⟨0⟩⟩, ⟨"b", some ⟨2⟩⟩] =
    .error (.persistence "attribute 2 precedes its parent #2") := by cbv

end Tree

end StateHistory
