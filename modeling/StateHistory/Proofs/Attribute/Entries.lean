import Mathlib.Data.List.Nodup
import Mathlib.Data.List.Sort
import StateHistory.Proofs.Attribute.Linked

/-!
# What the entries of a tree tell

An entry tells the name and the parent of an attribute, and a tree that grows only gets more
entries: so an attribute keeps its name, its parent and its path (`Linked.path_of_isPrefix`).
Entries say nothing about children, but nothing is lost by that: in a tree that has grown, children
stand in the order of their quarks, so their lists can be recovered from the parents
(`Grown.eq_of_entries`). Restoring a grown tree from its entries therefore leads to the tree itself,
`Grown.ofEntries_entries`.
-/

namespace StateHistory.Tree

/-- The links agree, and the children of each attribute stand in the order of their quarks. -/
structure Grown (t : Tree) : Prop extends t.Linked where
  ascending : ∀ q, (t.childrenOf q).Pairwise fun a b => a.index < b.index

section
variable {t t' : Tree} {p q c : Quark} {name : String}

/-! ## Names, parents and paths -/

theorem node_eq_ok_iff {n : Node} : t.node q = .ok n ↔ t.node? q = some n := by
  unfold node
  cases t.node? q <;> simp

theorem getElem?_entries (t : Tree) (i : Nat) :
    t.entries[i]? = (t.node? ⟨i⟩).map fun n => ⟨n.name, n.parent⟩ := by
  simp [entries, node?]

/-- A node keeps its name and its parent as entries are added. -/
theorem node?_of_isPrefix (h : t.entries <+: t'.entries) {n : Node} (hn : t.node? q = some n) :
    ∃ n', t'.node? q = some n' ∧ n'.name = n.name ∧ n'.parent = n.parent := by
  have hold : t.entries[q.index]? = some ⟨n.name, n.parent⟩ := by rw [getElem?_entries, hn]; rfl
  obtain ⟨hlt, hget⟩ := List.getElem?_eq_some_iff.1 hold
  have hnew := List.prefix_iff_getElem?.1 h q.index hlt
  rw [hget, getElem?_entries] at hnew
  obtain ⟨n', hn', heq⟩ := Option.map_eq_some_iff.1 hnew
  rw [Entry.mk.injEq] at heq
  exact ⟨n', hn', heq.1, heq.2⟩

theorem contains_of_isPrefix (h : t.entries <+: t'.entries) (hq : t.contains q = true) :
    t'.contains q = true := by
  obtain ⟨n, hn⟩ := contains_iff.1 hq
  obtain ⟨n', hn', -⟩ := node?_of_isPrefix h hn
  exact contains_iff.2 ⟨n', hn'⟩

/-- Different attributes are no more than there are. -/
theorem length_le_size {qs : List Quark} (hnodup : qs.Nodup) (hin : ∀ q ∈ qs, t.contains q = true) :
    qs.length ≤ t.size := by
  have hsub : qs.map (·.index) ⊆ List.range t.size := by
    intro i hi
    obtain ⟨q, hq, rfl⟩ := List.mem_map.1 hi
    exact List.mem_range.2 (of_decide_eq_true (hin q hq))
  have hnodup : (qs.map (·.index)).Nodup := hnodup.map fun a b hab => by
    cases a
    cases b
    exact congrArg _ hab
  have hle := (List.subperm_of_subset hnodup hsub).length_le
  rwa [List.length_map, List.length_range] at hle

theorem Linked.contains_parent (h : t.Linked) {n : Node} (hn : t.node? q = some n)
    (hp : n.parent = some p) :
    t.contains p = true := by
  have hmem : q ∈ t.childrenOf p := h.mem_childrenOf.2 ⟨n, hn, hp⟩
  cases hc : t.contains p with
  | true => rfl
  | false =>
    rw [childrenOf_of_not_contains hc] at hmem
    cases hmem

theorem Linked.climb_of_isPrefix (h : t.Linked) (hpre : t.entries <+: t'.entries) :
    ∀ (fuel : Nat) {q : Quark} (below : List String), t.contains q = true →
      t'.climb fuel q below = t.climb fuel q below
  | 0, _, _, _ => rfl
  | fuel + 1, q, below, hq => by
    obtain ⟨⟨name, parent, children⟩, hn⟩ := contains_iff.1 hq
    obtain ⟨⟨name', parent', children'⟩, hn', hname, hparent⟩ := node?_of_isPrefix hpre hn
    simp only at hname hparent
    subst hname hparent
    simp only [climb, hn, hn']
    cases parent' with
    | none => rfl
    | some p => exact h.climb_of_isPrefix hpre fuel _ (h.contains_parent hn rfl)

/-- The path of an attribute stays as entries are added. -/
theorem Linked.path_of_isPrefix (h : t.Linked) (hpre : t.entries <+: t'.entries)
    (hq : t.contains q = true) :
    t'.path q = t.path q := by
  unfold path
  rw [if_pos hq, if_pos (contains_of_isPrefix hpre hq), h.climb_of_isPrefix hpre _ _ hq]

theorem Linked.entries_grow (h : t.Linked) (hq : t.contains q = true) (path : List String) :
    t.entries <+: (t.grow q path).2.entries := by
  have hgrow :=
    h.grow_induct (P := fun t' => t.entries <+: t'.entries) ?_ hq path (List.prefix_refl _)
  · exact hgrow.2
  · intro t' p name _ _ _ hpre
    rw [entries_addChild]
    exact hpre.trans (List.prefix_append _ _)

/-! ## Trees that have grown -/

theorem grown_empty : empty.Grown := by
  refine ⟨linked_empty, ?_⟩
  intro q
  by_cases hq : q = .root
  · subst hq
    exact List.Pairwise.nil
  · have hout : empty.contains q = false := by
      cases q with
      | mk i => simpa [contains, empty, Quark.root] using hq
    rw [childrenOf_of_not_contains hout]
    exact List.Pairwise.nil

theorem Grown.addChild (h : t.Grown) (hp : t.contains p = true) (name : String) :
    (t.addChild p name).2.Grown := by
  refine ⟨h.toLinked.addChild hp name, ?_⟩
  intro q
  rw [childrenOf_addChild hp]
  by_cases hqp : q = p
  · rw [if_pos hqp, List.pairwise_append]
    refine ⟨h.ascending p, by simp, ?_⟩
    intro a ha b hb
    obtain rfl := List.mem_singleton.1 hb
    have hlt : t.contains a = true := h.contains_of_mem ha
    simpa [contains, size] using hlt
  · rw [if_neg hqp]
    exact h.ascending q

theorem Grown.grow (h : t.Grown) (hq : t.contains q = true) (path : List String) :
    (t.grow q path).2.Grown := by
  have hgrow := h.toLinked.grow_induct (P := Grown) (fun _ hp _ h => h.addChild hp _) hq path h
  exact hgrow.2

theorem Grown.extend :
    ∀ {t : Tree} (_ : t.Grown) {es : List Entry} {t' : Tree}, t.extend es = .ok t' → t'.Grown
  | _, h, [], _, he => by
    obtain rfl := Except.ok.inj he
    exact h
  | t, h, e :: es, t', he => by
    unfold Tree.extend at he
    split at he
    · cases he
    · split at he
      · cases he
      · rename_i p _ hp
        exact (h.addChild (decide_eq_true (Nat.not_le.1 hp)) e.name).extend he

/-! ## Children from parents -/

theorem node?_of_entries (he : t.entries = t'.entries) {n : Node} (hn : t.node? q = some n) :
    ∃ n', t'.node? q = some n' ∧ n'.name = n.name ∧ n'.parent = n.parent :=
  node?_of_isPrefix ⟨[], by simp [he]⟩ hn

theorem Linked.mem_childrenOf_of_entries (h : t.Linked) (h' : t'.Linked)
    (he : t.entries = t'.entries) (hc : c ∈ t.childrenOf q) : c ∈ t'.childrenOf q := by
  obtain ⟨n, hn, hq⟩ := h.mem_childrenOf.1 hc
  obtain ⟨n', hn', -, hparent⟩ := node?_of_entries he hn
  exact h'.mem_childrenOf.2 ⟨n', hn', hparent.trans hq⟩

theorem Grown.childrenOf_of_entries (h : t.Grown) (h' : t'.Grown) (he : t.entries = t'.entries)
    (q : Quark) :
    t.childrenOf q = t'.childrenOf q := by
  have : Std.Irrefl fun a b : Quark => a.index < b.index := ⟨fun a => Nat.lt_irrefl a.index⟩
  have : Std.Antisymm fun a b : Quark => a.index < b.index :=
    ⟨fun a b hab hba => absurd hab (Nat.lt_asymm hba)⟩
  apply (h.ascending q).eq_of_mem_iff (h'.ascending q)
  intro c
  constructor
  · intro hc
    exact h.mem_childrenOf_of_entries h'.toLinked he hc
  · intro hc
    exact h'.mem_childrenOf_of_entries h.toLinked he.symm hc

/-- **A grown tree is determined by its entries.** -/
theorem Grown.eq_of_entries (h : t.Grown) (h' : t'.Grown) (he : t.entries = t'.entries) :
    t = t' := by
  have hnode : ∀ q, t.node? q = t'.node? q := by
    intro q
    cases hn : t.node? q with
    | none =>
      cases hn' : t'.node? q with
      | none => rfl
      | some n' =>
        obtain ⟨n, hn'', -⟩ := node?_of_entries he.symm hn'
        rw [hn] at hn''
        cases hn''
    | some n =>
      obtain ⟨n', hn', hname, hparent⟩ := node?_of_entries he hn
      have hchildren := h.childrenOf_of_entries h' he q
      simp only [childrenOf, hn, hn'] at hchildren
      rw [hn', Option.some.injEq]
      cases n
      cases n'
      simp_all
  have hnodes : t.nodes = t'.nodes := by
    apply Array.ext_getElem?
    intro i
    exact hnode ⟨i⟩
  cases t
  cases t'
  rw [Tree.mk.injEq]
  exact hnodes

/-- **A grown tree comes back from its entries**, with its children in the same order and under the
same names. -/
theorem Grown.ofEntries_entries (h : t.Grown) : ofEntries t.entries = .ok t := by
  obtain ⟨t', ht', hes⟩ := h.toLinked.ofEntries_entries
  have h' : t'.Grown := grown_empty.extend ht'
  rw [ht', h'.eq_of_entries h hes]

end

end StateHistory.Tree
