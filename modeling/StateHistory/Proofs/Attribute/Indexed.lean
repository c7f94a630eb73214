import StateHistory.Proofs.Attribute.Linked

/-!
# Trees that index their children

The nodes of a tree may keep, besides the list of their children, an index that finds a child by its
name without a search. The tree then tells its shape three times: by parents, by lists and by
indexes. Growing keeps the three in step (`Indexes.grow`), so whoever looks into an index finds what
a search finds, and `Indexes.ensureAll` says so for trees however they have grown.
-/

namespace StateHistory

/-- A node with an index of its children. -/
structure IndexedNode where
  node : Node
  index : Std.HashMap String Quark

/-- A tree whose nodes have indexes. -/
structure IndexedTree where
  nodes : Array IndexedNode

namespace IndexedTree

/-- The tree that holds only the root. -/
def empty : IndexedTree := ⟨#[⟨⟨"", none, []⟩, ∅⟩]⟩

/-- The child of `q` that its index has under a name. -/
def child? (x : IndexedTree) (q : Quark) (name : String) : Option Quark :=
  match x.nodes[q.index]? with
  | some n => n.index[name]?
  | none => none

/-- Follows a path down from `q`. -/
def descend (x : IndexedTree) (q : Quark) : List String → Option Quark
  | [] => some q
  | name :: path =>
    match x.child? q name with
    | some c => x.descend c path
    | none => none

/-- Adds a node under `parent`, to its list and to its index. -/
def addChild (x : IndexedTree) (parent : Quark) (name : String) : Quark × IndexedTree :=
  let q : Quark := ⟨x.nodes.size⟩
  let nodes := x.nodes.push ⟨⟨name, some parent, []⟩, ∅⟩
  (q, ⟨nodes.modify parent.index fun n =>
    { node := { n.node with children := n.node.children ++ [q] }, index := n.index.insert name q }⟩)

/-- Follows a path down from `q`, adding the nodes it lacks. -/
def grow (x : IndexedTree) (q : Quark) : List String → Quark × IndexedTree
  | [] => (q, x)
  | name :: path =>
    match x.child? q name with
    | some c => x.grow c path
    | none =>
      let (c, x) := x.addChild q name
      x.grow c path

/-- The attribute at the path `path` below `base`, created where it is missing. -/
def ensure (x : IndexedTree) (base : Quark) (path : List String) :
    Except Failure (Quark × IndexedTree) :=
  if base.index < x.nodes.size then .ok (x.grow base path) else .error (.invalidQuark base)

/-- The tree after some requests for attributes at paths, whether they are granted or refused. -/
def ensureAll (x : IndexedTree) : List (Quark × List String) → IndexedTree
  | [] => x
  | (base, path) :: rest =>
    match x.ensure base path with
    | .ok (_, x) => x.ensureAll rest
    | .error _ => x.ensureAll rest

end IndexedTree

/-- The tree after some requests for attributes at paths, whether they are granted or refused. -/
def Tree.ensureAll (t : Tree) : List (Quark × List String) → Tree
  | [] => t
  | (base, path) :: rest =>
    match t.ensure base path with
    | .ok (_, t) => t.ensureAll rest
    | .error _ => t.ensureAll rest

namespace Tree

/-- What growing keeps holds after all requests. -/
theorem ensureAll_induct {P : Tree → Prop}
    (hgrow : ∀ {t : Tree} {base : Quark} (path : List String),
    t.contains base = true → P t → P (t.grow base path).2) :
    ∀ (requests : List (Quark × List String)) {t : Tree}, P t → P (t.ensureAll requests)
  | [], _, h => h
  | (base, path) :: rest, t, h => by
    by_cases hb : t.contains base = true
    · simp only [ensureAll, ensure, hb, ↓reduceIte]
      exact ensureAll_induct hgrow rest (hgrow path hb h)
    · simp only [ensureAll, ensure, hb, Bool.false_eq_true, ↓reduceIte]
      exact ensureAll_induct hgrow rest h

end Tree

/-- An indexed tree has the nodes of a tree, and its indexes have what a search in the tree
finds. -/
structure Indexes (x : IndexedTree) (t : Tree) : Prop where
  nodes_eq : x.nodes.map (·.node) = t.nodes
  child?_eq : ∀ q name, x.child? q name = t.child? q name

section
variable {x : IndexedTree} {t : Tree} {p q : Quark} {name : String}

theorem indexes_empty : Indexes .empty .empty := by
  refine ⟨by simp [IndexedTree.empty, Tree.empty], fun q name => ?_⟩
  have hchildren : Tree.empty.childrenOf q = [] := by
    cases hc : Tree.empty.contains q with
    | false => exact Tree.childrenOf_of_not_contains hc
    | true =>
      have hq : q = .root := by
        cases q
        simp_all [Tree.contains, Tree.empty, Quark.root]
      rw [hq]
      rfl
  have hsearch : Tree.empty.child? q name = none := by rw [Tree.child?, hchildren]; rfl
  rw [hsearch, IndexedTree.child?]
  cases hn : IndexedTree.empty.nodes[q.index]? with
  | none => rfl
  | some n =>
    have hmem := Array.mem_of_getElem? hn
    simp only [IndexedTree.empty, List.mem_toArray, List.mem_singleton] at hmem
    simp [hmem]

theorem Indexes.size_eq (h : Indexes x t) : x.nodes.size = t.size := by
  rw [Tree.size, ← h.nodes_eq, Array.size_map]

theorem Indexes.contains_iff (h : Indexes x t) (q : Quark) :
    q.index < x.nodes.size ↔ t.contains q = true := by
  rw [h.size_eq, Tree.contains, decide_eq_true_eq]
  exact Iff.rfl

theorem Indexes.node?_eq (h : Indexes x t) (q : Quark) :
    t.node? q = x.nodes[q.index]?.map (·.node) := by
  rw [Tree.node?, ← h.nodes_eq, Array.getElem?_map]

theorem IndexedTree.getElem?_addChild (hp : p.index < x.nodes.size) (i : Nat) :
    (x.addChild p name).2.nodes[i]? =
    if i = x.nodes.size then some ⟨⟨name, some p, []⟩, ∅⟩
    else if i = p.index then x.nodes[i]?.map fun n =>
      { node := { n.node with children := n.node.children ++ [⟨x.nodes.size⟩] }
        index := n.index.insert name ⟨x.nodes.size⟩ }
    else x.nodes[i]? := by
  unfold addChild
  simp only [Array.getElem?_modify, Array.getElem?_push]
  by_cases hi : i = x.nodes.size
  · have hne : p.index ≠ i := by omega
    simp [hi, hi ▸ hne]
  · by_cases hpi : p.index = i
    · simp [hi, hpi]
    · simp [hi, hpi, Ne.symm hpi]

/-- A new child goes into the list and the index of its parent, and nowhere else. -/
theorem Indexes.addChild (h : Indexes x t) (hl : t.Linked) (hp : t.contains p = true)
    (name : String) :
    Indexes (x.addChild p name).2 (t.addChild p name).2 := by
  have hlt : p.index < x.nodes.size := by
    rw [h.size_eq]
    exact of_decide_eq_true hp
  constructor
  · refine Array.ext_getElem? fun i => ?_
    have hnode : (t.addChild p name).2.node? ⟨i⟩ = _ := Tree.node?_addChild
    have hquark : (⟨i⟩ : Quark) = p ↔ i = p.index := by cases p; simp
    rw [Array.getElem?_map, IndexedTree.getElem?_addChild hlt]
    rw [Tree.node?, h.node?_eq] at hnode
    simp only [h.size_eq, hquark] at hnode ⊢
    rw [hnode]
    by_cases hi : i = t.size
    · simp [hi]
    · by_cases hip : i = p.index
      · simp [hip, hip ▸ hi, Function.comp_def]
      · simp only [hi, hip, ↓reduceIte, Option.map_map]
        rfl
  · intro q n
    have hold := h.child?_eq q n
    rw [hl.child?_addChild hp, ← hold]
    unfold IndexedTree.child?
    rw [IndexedTree.getElem?_addChild hlt, ← h.size_eq]
    by_cases hq : q.index = x.nodes.size
    · have hne : q ≠ p := by
        rintro rfl
        omega
      simp [hq, hne]
    · by_cases hqp : q = p
      · subst hqp
        rw [Array.getElem?_eq_getElem hlt]
        simp [hq, Std.HashMap.getElem?_insert]
      · have hindex : q.index ≠ p.index := fun hi => hqp (by cases p; cases q; simp_all)
        simp [hq, hqp, hindex]

/-- A path leads to the same attribute with indexes and without. -/
theorem Indexes.descend_eq (h : Indexes x t) :
    ∀ (path : List String) (q : Quark), x.descend q path = t.descend q path
  | [], _ => rfl
  | name :: path, q => by
    simp only [IndexedTree.descend, Tree.descend, h.child?_eq]
    cases t.child? q name with
    | none => rfl
    | some c => exact h.descend_eq path c

/-- Trees that grow along the same path, one with indexes and one without, come to the same
attribute. -/
theorem Indexes.grow : ∀ {x : IndexedTree} {t : Tree} (_ : Indexes x t) (_ : t.Linked) {q : Quark}
    (_ : t.contains q = true) (path : List String),
    (x.grow q path).1 = (t.grow q path).1 ∧ Indexes (x.grow q path).2 (t.grow q path).2
  | _, _, h, _, _, _, [] => ⟨rfl, h⟩
  | x, t, h, hl, q, hq, name :: path => by
    simp only [IndexedTree.grow, Tree.grow, h.child?_eq]
    cases hc : t.child? q name with
    | some c => exact h.grow hl (hl.contains_of_mem (Tree.mem_of_child? hc).1) path
    | none =>
      have hnew : (x.addChild q name).1 = (t.addChild q name).1 := congrArg Quark.mk h.size_eq
      have hin : (t.addChild q name).2.contains (t.addChild q name).1 = true := by
        rw [Tree.contains_iff, Tree.node?_addChild]
        exact ⟨_, if_pos rfl⟩
      simp only [hnew]
      exact (h.addChild hl hq name).grow (hl.addChild hq name) hin path

/-- **Indexes stay in step**, whatever is asked for: the nodes are those of the tree without
indexes, and looking a name up finds what a search finds. -/
theorem Indexes.ensureAll :
    ∀ (requests : List (Quark × List String)) {x : IndexedTree} {t : Tree}, Indexes x t →
    t.Linked → Indexes (x.ensureAll requests) (t.ensureAll requests)
  | [], _, _, h, _ => h
  | (base, path) :: rest, x, t, h, hl => by
    simp only [IndexedTree.ensureAll, Tree.ensureAll, IndexedTree.ensure, Tree.ensure,
      h.contains_iff]
    by_cases hb : t.contains base = true
    · simp only [hb, ↓reduceIte]
      exact Indexes.ensureAll rest (h.grow hl hb path).2 (hl.grow hb path)
    · simp only [hb, Bool.false_eq_true, ↓reduceIte]
      exact Indexes.ensureAll rest h hl

end

end StateHistory
