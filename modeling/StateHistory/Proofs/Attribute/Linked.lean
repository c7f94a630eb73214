import Mathlib.Data.List.Basic
import Mathlib.Data.List.Find
import Mathlib.Data.List.Induction
import StateHistory.Attribute.Tree

/-!
# Trees whose links agree

A tree tells the shape twice: every node names its parent, and every node lists its children. In a
linked tree the two say the same, and every parent comes before its children; growing keeps this
(`Linked.grow`), and so does restoring a tree from its entries (`Linked.extend`). A path then leads
to one attribute, and only one path does (`Linked.descend_inj`).
-/

namespace StateHistory.Tree

/-- Parents come before their children and have them in their lists; only the root has none. -/
structure Linked (t : Tree) : Prop where
  root_eq : ∃ children, t.node? .root = some ⟨"", none, children⟩
  parent_lt : ∀ {q n}, t.node? q = some n → q ≠ .root → ∃ p, n.parent = some p ∧ p.index < q.index
  mem_childrenOf : ∀ {q c}, c ∈ t.childrenOf q ↔ ∃ n, t.node? c = some n ∧ n.parent = some q

section
variable {t t' : Tree} {p q c base : Quark} {name : String} {path : List String}

theorem contains_iff : t.contains q = true ↔ ∃ n, t.node? q = some n := by
  unfold contains node?
  rw [decide_eq_true_eq]
  constructor
  · exact fun h => ⟨_, Array.getElem?_eq_getElem h⟩
  · rintro ⟨n, hn⟩
    exact (Array.getElem?_eq_some_iff.1 hn).1

/-! ## A new child -/

theorem addChild_fst : (t.addChild p name).1 = ⟨t.size⟩ := rfl

theorem size_addChild (t : Tree) (q : Quark) (name : String) :
    (t.addChild q name).2.size = t.size + 1 := by
  simp [addChild, size]

theorem node?_addChild : (t.addChild p name).2.node? q =
    if q.index = t.size then some ⟨name, some p, []⟩
    else (t.node? q).map fun n =>
      if q = p then { n with children := n.children ++ [⟨t.size⟩] } else n := by
  unfold addChild node? size
  simp only [Array.getElem?_push, Array.size_modify]
  by_cases hq : q.index = t.nodes.size
  · simp [hq]
  · rw [if_neg hq, if_neg hq, Array.getElem?_modify]
    by_cases hqp : q = p
    · simp [hqp]
    · have : p.index ≠ q.index := fun hi => hqp (by cases p; cases q; simp_all)
      simp [hqp, this]

theorem contains_addChild (h : t.contains q = true) : (t.addChild p name).2.contains q = true := by
  obtain ⟨n, hn⟩ := contains_iff.1 h
  rw [contains_iff, node?_addChild]
  split
  · exact ⟨_, rfl⟩
  · exact ⟨_, by rw [hn]; rfl⟩

theorem index_ne_size (h : t.contains q = true) : q.index ≠ t.size := by
  unfold contains at h
  unfold size
  exact Nat.ne_of_lt (of_decide_eq_true h)

theorem childrenOf_of_not_contains (h : t.contains q = false) : t.childrenOf q = [] := by
  unfold childrenOf
  cases hn : t.node? q with
  | none => rfl
  | some n => rw [contains_iff.2 ⟨n, hn⟩] at h; cases h

theorem childrenOf_addChild (hp : t.contains p = true) : (t.addChild p name).2.childrenOf q =
    if q = p then t.childrenOf p ++ [⟨t.size⟩] else t.childrenOf q := by
  have hnew : ¬ p.index = t.size := index_ne_size hp
  by_cases hqp : q = p
  · subst hqp
    obtain ⟨n, hn⟩ := contains_iff.1 hp
    simp [childrenOf, node?_addChild, hnew, hn]
  · rw [if_neg hqp]
    by_cases hq : q.index = t.size
    · have hout : t.contains q = false := by
        unfold contains
        unfold size at hq
        simp [hq]
      rw [childrenOf_of_not_contains hout]
      simp [childrenOf, node?_addChild, hq]
    · simp only [childrenOf, node?_addChild, hq, hqp, ↓reduceIte, Option.map_id_fun', id_eq]

theorem childrenOf_addChild_self (hp : t.contains p = true) :
    (t.addChild p name).2.childrenOf ⟨t.size⟩ = [] := by
  have hne : (⟨t.size⟩ : Quark) ≠ p := by
    rintro rfl
    exact index_ne_size hp rfl
  rw [childrenOf_addChild hp, if_neg hne]
  exact childrenOf_of_not_contains (by simp [contains, size])

theorem isNamed_addChild {n : String} : (t.addChild p name).2.isNamed n q =
    if q.index = t.size then name == n else t.isNamed n q := by
  unfold isNamed
  rw [node?_addChild]
  by_cases hq : q.index = t.size
  · rw [if_pos hq, if_pos hq]
  · rw [if_neg hq, if_neg hq]
    cases t.node? q with
    | none => rfl
    | some m =>
      by_cases hqp : q = p
      · simp [hqp]
      · simp [hqp]

theorem entries_addChild : (t.addChild p name).2.entries = t.entries ++ [⟨name, some p⟩] := by
  unfold entries addChild
  simp only [Array.toList_push, List.map_append, List.map_cons, List.map_nil]
  congr 1
  refine List.ext_getElem? fun i => ?_
  simp only [List.getElem?_map, Array.getElem?_toList, Array.getElem?_modify]
  split
  · cases t.nodes[i]? <;> rfl
  · rfl

theorem Linked.contains_of_mem (h : t.Linked) (hc : c ∈ t.childrenOf q) : t.contains c = true := by
  obtain ⟨n, hn, -⟩ := h.mem_childrenOf.1 hc
  exact contains_iff.2 ⟨n, hn⟩

theorem Linked.lt_of_mem (h : t.Linked) (hc : c ∈ t.childrenOf q) : q.index < c.index := by
  obtain ⟨n, hn, hq⟩ := h.mem_childrenOf.1 hc
  have hroot : c ≠ .root := by
    rintro rfl
    obtain ⟨children, hr⟩ := h.root_eq
    rw [hr, Option.some.injEq] at hn
    subst hn
    cases hq
  obtain ⟨p, hp, hlt⟩ := h.parent_lt hn hroot
  rw [hq, Option.some.injEq] at hp
  exact hp ▸ hlt

theorem Linked.ne_of_mem (h : t.Linked) (hc : c ∈ t.childrenOf q) : c ≠ q := by
  rintro rfl
  exact Nat.lt_irrefl _ (h.lt_of_mem hc)

theorem Linked.addChild (h : t.Linked) (hp : t.contains p = true) (name : String) :
    (t.addChild p name).2.Linked := by
  have hlt : p.index < t.size := of_decide_eq_true hp
  have hpos : 0 < t.size := by omega
  refine ⟨?_, ?_, ?_⟩
  · obtain ⟨children, hr⟩ := h.root_eq
    rw [node?_addChild, if_neg (by simp only [Quark.root]; omega), hr]
    simp only [Option.map_some, Option.some.injEq]
    split <;> exact ⟨_, rfl⟩
  · intro q n hn hq
    rw [node?_addChild] at hn
    split at hn
    · obtain rfl := Option.some.inj hn
      exact ⟨p, rfl, by omega⟩
    · obtain ⟨m, hm, rfl⟩ := Option.map_eq_some_iff.1 hn
      obtain ⟨r, hr, hrlt⟩ := h.parent_lt hm hq
      refine ⟨r, ?_, hrlt⟩
      split <;> exact hr
  · intro q c
    rw [childrenOf_addChild hp, node?_addChild]
    by_cases hc : c.index = t.size
    · -- the new node has one parent, and no old list holds it
      have hcnew : c = ⟨t.size⟩ := by cases c; simp_all
      have hold : ∀ r, c ∉ t.childrenOf r := fun r hr => index_ne_size (h.contains_of_mem hr) hc
      rw [if_pos hc]
      by_cases hqp : q = p
      · simp [hqp, hcnew]
      · rw [if_neg hqp]
        constructor
        · exact fun hm => absurd hm (hold q)
        · rintro ⟨n, hn, hq⟩
          obtain rfl := Option.some.inj hn
          exact absurd (Option.some.inj hq).symm hqp
    · have hcold : c ≠ ⟨t.size⟩ := fun he => hc (by rw [he])
      have hmem : (c ∈ if q = p then t.childrenOf p ++ [⟨t.size⟩] else t.childrenOf q) ↔
          c ∈ t.childrenOf q := by
        split
        · subst q
          simp [hcold]
        · exact Iff.rfl
      rw [hmem, if_neg hc, h.mem_childrenOf]
      constructor
      · rintro ⟨n, hn, hq⟩
        refine ⟨_, by rw [hn]; rfl, ?_⟩
        split <;> exact hq
      · rintro ⟨n, hn, hq⟩
        obtain ⟨m, hm, rfl⟩ := Option.map_eq_some_iff.1 hn
        refine ⟨m, hm, ?_⟩
        split at hq <;> exact hq

theorem linked_empty : empty.Linked := by
  have hnode : ∀ q n, empty.node? q = some n → q = .root ∧ n = ⟨"", none, []⟩ := by
    intro q n hn
    obtain ⟨hlt, hn⟩ := Array.getElem?_eq_some_iff.1 hn
    have hq : q.index = 0 := by simpa [empty] using hlt
    refine ⟨by cases q; simp_all [Quark.root], ?_⟩
    simpa [empty, hq] using hn.symm
  refine ⟨⟨[], rfl⟩, fun hn hq => absurd (hnode _ _ hn).1 hq, fun {q c} => ?_⟩
  constructor
  · intro hc
    unfold childrenOf at hc
    split at hc
    · rename_i n hn
      rw [(hnode q n hn).2] at hc
      cases hc
    · cases hc
  · rintro ⟨n, hn, hq⟩
    rw [(hnode c n hn).2] at hq
    cases hq

/-! ## Children by name -/

theorem mem_of_child? (h : t.child? q name = some c) :
    c ∈ t.childrenOf q ∧ t.isNamed name c = true :=
  ⟨List.mem_reverse.1 (List.mem_of_find?_eq_some h), List.find?_some h⟩

/-- A child is found by its own name only. -/
theorem name_unique {n m : String} (hn : t.isNamed n q = true) (hm : t.isNamed m q = true) :
    n = m := by
  unfold isNamed at hn hm
  cases hq : t.node? q with
  | none => rw [hq] at hn; cases hn
  | some node =>
    rw [hq] at hn hm
    exact (eq_of_beq hn).symm.trans (eq_of_beq hm)

theorem Linked.child?_addChild (h : t.Linked) (hp : t.contains p = true) {n : String} :
    (t.addChild p name).2.child? q n = if q = p ∧
      name = n then some ⟨t.size⟩ else t.child? q n := by
  have hold : ∀ r ∈ t.childrenOf q, (t.addChild p name).2.isNamed n r = t.isNamed n r := by
    intro r hr
    rw [isNamed_addChild, if_neg (index_ne_size (h.contains_of_mem hr))]
  have hfind : (t.childrenOf q).reverse.find? ((t.addChild p name).2.isNamed n) = t.child? q n :=
    List.find?_congr fun r hr => hold r (List.mem_reverse.1 hr)
  unfold child? at hfind ⊢
  rw [childrenOf_addChild hp]
  by_cases hqp : q = p
  · subst hqp
    have hnew : (t.addChild q name).2.isNamed n ⟨t.size⟩ = (name == n) := by
      rw [isNamed_addChild]
      simp
    rw [if_pos rfl, List.reverse_append, List.reverse_singleton, List.singleton_append,
      List.find?_cons, hnew]
    by_cases hn : name = n
    · simp [hn]
    · simp only [beq_eq_false_iff_ne.2 hn, hn, and_false, ↓reduceIte]
      exact hfind
  · rw [if_neg hqp, if_neg (fun hh => hqp hh.1)]
    exact hfind

/-! ## Growing -/

theorem size_le_grow :
    ∀ (t : Tree) (q : Quark) (path : List String), t.size ≤ (t.grow q path).2.size
  | _, _, [] => Nat.le_refl _
  | t, q, name :: path => by
    simp only [Tree.grow]
    cases t.child? q name with
    | some c => exact size_le_grow t c path
    | none =>
      have := size_le_grow (t.addChild q name).2 (t.addChild q name).1 path
      rw [size_addChild] at this
      exact Nat.le_of_succ_le this

/-- What adding one missing child keeps holds after growing along a path. -/
theorem Linked.grow_induct {P : Tree → Prop}
    (hstep : ∀ {t p name}, t.Linked → t.contains p = true → t.child? p name = none → P t →
      P (t.addChild p name).2) :
    ∀ {t : Tree} (_ : t.Linked) {q : Quark} (_ : t.contains q = true) (path : List String), P t →
      (t.grow q path).2.Linked ∧ P (t.grow q path).2
  | _, h, _, _, [], hP => ⟨h, hP⟩
  | t, h, q, hq, name :: path, hP => by
    simp only [Tree.grow]
    cases hc : t.child? q name with
    | some c => exact Linked.grow_induct hstep h (h.contains_of_mem (mem_of_child? hc).1) path hP
    | none =>
      refine Linked.grow_induct hstep (h.addChild hq name) ?_ path (hstep h hq hc hP)
      rw [contains_iff, node?_addChild]
      exact ⟨_, if_pos rfl⟩

theorem Linked.grow (h : t.Linked) (hq : t.contains q = true) (path : List String) :
    (t.grow q path).2.Linked :=
  (h.grow_induct (P := fun _ => True) (fun _ _ _ _ => trivial) hq path trivial).1

/-- What is found stays found. -/
theorem Linked.child?_grow (h : t.Linked) (hb : t.contains base = true) (path : List String)
    (hc : t.child? q name = some c) : (t.grow base path).2.child? q name = some c := by
  refine (h.grow_induct (P := fun t => t.child? q name = some c) ?_ hb path hc).2
  intro t p n ht hp hnone hc
  rw [ht.child?_addChild hp, if_neg]
  · exact hc
  · rintro ⟨rfl, rfl⟩
    rw [hnone] at hc
    cases hc

theorem Linked.contains_grow (h : t.Linked) (hb : t.contains base = true) (path : List String)
    (hq : t.contains q = true) : (t.grow base path).2.contains q = true :=
  (h.grow_induct (P := fun t => t.contains q = true)
    (fun _ _ _ hq => contains_addChild hq) hb path hq).2

/-- Children that come with growing are new attributes. -/
theorem Linked.mem_childrenOf_grow (h : t.Linked) (hb : t.contains base = true) (path : List String)
    (hc : c ∈ (t.grow base path).2.childrenOf q) : c ∈ t.childrenOf q ∨ t.size ≤ c.index := by
  refine (h.grow_induct (P := fun t' => t.size ≤ t'.size ∧ ∀ c ∈ t'.childrenOf q,
    c ∈ t.childrenOf q ∨ t.size ≤ c.index) ?_ hb path ⟨Nat.le_refl _, fun _ => Or.inl⟩).2.2 c hc
  rintro t' p n ht hp - ⟨hle, hall⟩
  refine ⟨by rw [size_addChild]; omega, fun r hr => ?_⟩
  rw [childrenOf_addChild hp] at hr
  by_cases hqp : q = p
  · rw [if_pos hqp] at hr
    rcases List.mem_append.1 hr with hr | hr
    · exact hall r (hqp ▸ hr)
    · rw [List.mem_singleton.1 hr]
      exact Or.inr hle
  · rw [if_neg hqp] at hr
    exact hall r hr

/-- What is found under a name only since growing is a new attribute. -/
theorem Linked.child?_grow_cases (h : t.Linked) (hb : t.contains base = true) (path : List String)
    (hc : (t.grow base path).2.child? q name = some c) :
    t.child? q name = some c ∨ t.size ≤ c.index := by
  refine (h.grow_induct (P := fun t' => t.size ≤ t'.size ∧
    ∀ c, t'.child? q name = some c → t.child? q name = some c ∨ t.size ≤ c.index) ?_ hb path
    ⟨Nat.le_refl _, fun _ => Or.inl⟩).2.2 c hc
  rintro t' p n ht hp - ⟨hle, hall⟩
  refine ⟨by rw [size_addChild]; omega, fun r hr => ?_⟩
  rw [ht.child?_addChild hp] at hr
  split at hr
  · obtain rfl := Option.some.inj hr
    exact Or.inr hle
  · exact hall r hr

/-! ## Paths -/

theorem descend_append : ∀ (path more : List String) (q : Quark),
    t.descend q (path ++ more) = (t.descend q path).bind (t.descend · more)
  | [], _, _ => rfl
  | name :: path, more, q => by
    simp only [List.cons_append, descend]
    cases t.child? q name with
    | none => rfl
    | some c => exact descend_append path more c

/-- The last name of a path is that of a child of the attribute before it. -/
theorem descend_concat :
    t.descend q (path ++ [name]) = (t.descend q path).bind (t.child? · name) := by
  rw [descend_append]
  congr 1
  funext m
  simp only [descend]
  cases t.child? m name <;> rfl

theorem Linked.descend_grow (h : t.Linked) (hb : t.contains base = true) (more : List String) :
    ∀ (path : List String) (q : Quark), t.descend q path = some c →
      (t.grow base more).2.descend q path = some c
  | [], _, hd => hd
  | name :: path, q, hd => by
    simp only [descend] at hd ⊢
    cases hc : t.child? q name with
    | none => rw [hc] at hd; cases hd
    | some m =>
      rw [hc] at hd
      rw [h.child?_grow hb more hc]
      exact h.descend_grow hb more path m hd

/-- Growing leads where the path then leads. -/
theorem Linked.descend_grow_self : ∀ {t : Tree} (_ : t.Linked) {q : Quark} (_ : t.contains q = true)
    (path : List String), (t.grow q path).2.descend q path = some (t.grow q path).1
  | _, _, _, _, [] => rfl
  | t, h, q, hq, name :: path => by
    simp only [Tree.grow, descend]
    cases hc : t.child? q name with
    | some c =>
      have hcin := h.contains_of_mem (mem_of_child? hc).1
      rw [h.child?_grow hcin path hc]
      exact h.descend_grow_self hcin path
    | none =>
      have h' := h.addChild hq name
      have hnew : (t.addChild q name).2.contains (t.addChild q name).1 = true := by
        rw [contains_iff, node?_addChild]
        exact ⟨_, if_pos rfl⟩
      have hchild : (t.addChild q name).2.child? q name = some (t.addChild q name).1 := by
        rw [h.child?_addChild hq, if_pos ⟨rfl, rfl⟩]
        rfl
      simp only
      rw [h'.child?_grow hnew path hchild]
      exact h'.descend_grow_self hnew path

/-- What is there already needs no growing. -/
theorem grow_of_descend :
    ∀ (path : List String) {q : Quark}, t.descend q path = some c → t.grow q path = (c, t)
  | [], _, hd => by
    obtain rfl := Option.some.inj hd
    rfl
  | name :: path, q, hd => by
    simp only [descend] at hd
    simp only [Tree.grow]
    cases hc : t.child? q name with
    | none => rw [hc] at hd; cases hd
    | some m =>
      rw [hc] at hd
      exact grow_of_descend path hd

/-- Growing can begin further down on its way. -/
theorem grow_append :
    ∀ (path : List String) {q : Quark} (more : List String), t.descend q path = some c →
    t.grow q (path ++ more) = t.grow c more
  | [], _, _, hd => by
    obtain rfl := Option.some.inj hd
    rfl
  | name :: path, q, more, hd => by
    simp only [descend] at hd
    simp only [List.cons_append, Tree.grow]
    cases hc : t.child? q name with
    | none => rw [hc] at hd; cases hd
    | some m =>
      rw [hc] at hd
      exact grow_append path more hd

theorem Linked.contains_descend (h : t.Linked) :
    ∀ (path : List String) {q : Quark}, t.contains q = true →
    t.descend q path = some c → t.contains c = true
  | [], _, hq, hd => by
    obtain rfl := Option.some.inj hd
    exact hq
  | name :: path, q, hq, hd => by
    simp only [descend] at hd
    cases hc : t.child? q name with
    | none => rw [hc] at hd; cases hd
    | some m =>
      rw [hc] at hd
      exact h.contains_descend path (h.contains_of_mem (mem_of_child? hc).1) hd

theorem Linked.contains_root (h : t.Linked) : t.contains .root = true := by
  obtain ⟨children, hr⟩ := h.root_eq
  exact contains_iff.2 ⟨_, hr⟩

/-- An attribute is a child of one attribute only. -/
theorem Linked.parent_unique (h : t.Linked) (hp : c ∈ t.childrenOf p) (hq : c ∈ t.childrenOf q) :
    p = q := by
  obtain ⟨n, hn, hnp⟩ := h.mem_childrenOf.1 hp
  obtain ⟨m, hm, hmq⟩ := h.mem_childrenOf.1 hq
  rw [hn, Option.some.injEq] at hm
  subst hm
  exact Option.some.inj (hnp.symm.trans hmq)

/-- **Only one path leads to an attribute.** -/
theorem Linked.descend_inj (h : t.Linked) {a b : List String} (ha : t.descend .root a = some q)
    (hb : t.descend .root b = some q) : a = b := by
  induction a using List.reverseRecOn generalizing b q with
  | nil =>
    obtain rfl := Option.some.inj ha
    rcases List.eq_nil_or_concat' b with rfl | ⟨b, n, rfl⟩
    · rfl
    · rw [descend_concat] at hb
      obtain ⟨m, -, hc⟩ := Option.bind_eq_some_iff.1 hb
      exact absurd (h.lt_of_mem (mem_of_child? hc).1) (Nat.not_lt_zero _)
  | append_singleton a n ih =>
    rw [descend_concat] at ha
    obtain ⟨m, hm, hc⟩ := Option.bind_eq_some_iff.1 ha
    rcases List.eq_nil_or_concat' b with rfl | ⟨b, n', rfl⟩
    · obtain rfl := Option.some.inj hb
      exact absurd (h.lt_of_mem (mem_of_child? hc).1) (Nat.not_lt_zero _)
    · rw [descend_concat] at hb
      obtain ⟨m', hm', hc'⟩ := Option.bind_eq_some_iff.1 hb
      obtain ⟨hmem, hn⟩ := mem_of_child? hc
      obtain ⟨hmem', hn'⟩ := mem_of_child? hc'
      obtain rfl := h.parent_unique hmem hmem'
      rw [ih hm hm', name_unique hn hn']

/-- The attributes of two paths of the same length lie apart, each with its children. -/
theorem Linked.apart (h : t.Linked) {a b : List String} (hlen : a.length = b.length) (hne : a ≠ b)
    (hp : t.descend .root a = some p) (hq : t.descend .root b = some q) :
    p ≠ q ∧ p ∉ t.childrenOf q ∧ ∀ c ∈ t.childrenOf p, c ≠ q ∧ c ∉ t.childrenOf q := by
  -- a child of one path's attribute has a longer path than the other's
  have hchild : ∀ {a b : List String} {p q : Quark}, a.length = b.length →
    t.descend .root a = some p →
      t.descend .root b = some q → p ∉ t.childrenOf q := by
    intro a b p q hlen hp hq hmem
    rcases List.eq_nil_or_concat' a with rfl | ⟨a, n, rfl⟩
    · obtain rfl := Option.some.inj hp
      exact Nat.not_lt_zero _ (h.lt_of_mem hmem)
    · rw [descend_concat] at hp
      obtain ⟨m, hm, hc⟩ := Option.bind_eq_some_iff.1 hp
      obtain rfl := h.parent_unique (mem_of_child? hc).1 hmem
      rw [← h.descend_inj hm hq, List.length_append] at hlen
      simp at hlen
  have hpq : p ≠ q := by
    rintro rfl
    exact hne (h.descend_inj hp hq)
  refine ⟨hpq, hchild hlen hp hq, fun c hc => ⟨?_, fun hc' => hpq (h.parent_unique hc hc')⟩⟩
  rintro rfl
  exact hchild hlen.symm hq hp hc

/-! ## What growing adds -/

/-- A path leads to the new child or where it led before. -/
theorem Linked.descend_addChild (h : t.Linked) (hp : t.contains p = true) :
    ∀ (path : List String) (q : Quark), t.contains q = true →
      (t.addChild p name).2.descend q path = some c →
      t.descend q path = some c ∨ c = ⟨t.size⟩
  | [], _, _, hd => Or.inl hd
  | n :: path, q, hq, hd => by
    simp only [descend] at hd ⊢
    rw [h.child?_addChild hp] at hd
    by_cases hnew : q = p ∧ name = n
    · rw [if_pos hnew] at hd
      cases path with
      | nil => exact Or.inr (Option.some.inj hd).symm
      | cons n' path =>
        have hnil : (t.addChild p name).2.childrenOf ⟨t.size⟩ = [] := childrenOf_addChild_self hp
        simp only [descend, child?, hnil] at hd
        cases hd
    · rw [if_neg hnew] at hd
      cases hc : t.child? q n with
      | none => rw [hc] at hd; cases hd
      | some m =>
        rw [hc] at hd
        exact h.descend_addChild hp path m (h.contains_of_mem (mem_of_child? hc).1) hd

/-- Growing along a path adds only what this path leads through. -/
theorem Linked.descend_grow_cases : ∀ {t : Tree} (_ : t.Linked) {base : Quark} {way : List String}
    (_ : t.descend .root way = some base) (more : List String) {path : List String} {c : Quark},
    (t.grow base more).2.descend .root path = some c → t.descend .root path = some c ∨
    path <+: way ++ more
  | _, _, _, _, _, [], _, _, hd => Or.inl hd
  | t, h, base, way, hway, name :: more, path, c, hd => by
    have hbase := h.contains_descend way h.contains_root hway
    simp only [Tree.grow] at hd
    cases hc : t.child? base name with
    | some m =>
      rw [hc] at hd
      have hway' : t.descend .root (way ++ [name]) = some m := by
        rw [descend_concat, hway]; exact hc
      simpa using h.descend_grow_cases hway' more hd
    | none =>
      rw [hc] at hd
      have h' := h.addChild hbase name
      have hway' : (t.addChild base name).2.descend .root (way ++ [name]) =
          some (t.addChild base name).1 := by
        have hold := h.descend_grow_self hbase [name]
        simp only [Tree.grow, hc] at hold
        have hkept : (t.addChild base name).2.descend .root way = some base := by
          have := h.descend_grow hbase [name] way .root hway
          simpa only [Tree.grow, hc] using this
        rw [descend_append, hkept]
        exact hold
      rcases h'.descend_grow_cases hway' more hd with hd | hd
      · rcases h.descend_addChild hbase path .root h.contains_root hd with hd | rfl
        · exact Or.inl hd
        · rw [h'.descend_inj hd hway']
          exact Or.inr ⟨more, by simp⟩
      · exact Or.inr (by simpa using hd)

/-- An attribute that growing adds at the end of a path is new and has no children. -/
theorem Linked.grow_new :
    ∀ {t : Tree} (_ : t.Linked) {base : Quark} (_ : t.contains base = true) (path : List String),
    t.descend base path = none →
      t.size ≤ (t.grow base path).1.index ∧
      (t.grow base path).2.childrenOf (t.grow base path).1 = []
  | _, _, _, _, [], hd => by cases hd
  | t, h, base, hbase, name :: path, hd => by
    simp only [Tree.grow]
    simp only [descend] at hd
    cases hc : t.child? base name with
    | some m =>
      rw [hc] at hd
      exact h.grow_new (h.contains_of_mem (mem_of_child? hc).1) path hd
    | none =>
      have hnil : (t.addChild base name).2.childrenOf ⟨t.size⟩ = [] :=
        childrenOf_addChild_self hbase
      cases path with
      | nil => exact ⟨Nat.le_refl _, hnil⟩
      | cons n path =>
        have hin : (t.addChild base name).2.contains (t.addChild base name).1 = true := by
          rw [contains_iff, node?_addChild]
          exact ⟨_, if_pos rfl⟩
        have hout : (t.addChild base name).2.descend (t.addChild base name).1 (n :: path) =
            none := by
          simp only [descend, child?, addChild_fst, hnil]
          rfl
        obtain ⟨hle, hempty⟩ := (h.addChild hbase name).grow_new hin (n :: path) hout
        rw [size_addChild] at hle
        exact ⟨Nat.le_of_succ_le hle, hempty⟩

/-! ## Entries -/

theorem length_entries : t.entries.length = t.size := by simp [entries, size]

/-- The entries of a linked tree are the root's and then only such as have an earlier parent. -/
theorem Linked.entries_eq (h : t.Linked) : t.entries = ⟨"", none⟩ :: t.entries.drop 1 := by
  obtain ⟨children, hr⟩ := h.root_eq
  have hget : t.entries[0]? = some ⟨"", none⟩ := by
    unfold entries
    rw [List.getElem?_map, Array.getElem?_toList]
    unfold node? Quark.root at hr
    rw [hr]
    rfl
  cases hes : t.entries with
  | nil => rw [hes] at hget; cases hget
  | cons e es =>
    rw [hes] at hget
    obtain rfl := Option.some.inj hget
    rfl

theorem Linked.extend :
    ∀ {t : Tree} (_ : t.Linked) {es : List Entry} {t' : Tree}, t.extend es = .ok t' → t'.Linked
  | _, h, [], _, he => by
    obtain rfl := Except.ok.inj he
    exact h
  | t, h, e :: es, t', he => by
    unfold Tree.extend at he
    split at he
    · cases he
    · split at he
      · cases he
      · rename_i p _ hp
        exact (h.addChild (decide_eq_true (Nat.not_le.1 hp)) e.name).extend he

theorem extend_eq_ok : ∀ (es : List Entry) (t : Tree),
    (∀ i e, es[i]? = some e → ∃ p, e.parent = some p ∧ p.index < t.size + i) →
      ∃ t', t.extend es = .ok t' ∧ t'.entries = t.entries ++ es
  | [], t, _ => ⟨t, rfl, (List.append_nil _).symm⟩
  | e :: es, t, h => by
    obtain ⟨p, hp, hlt⟩ := h 0 e rfl
    have hsize := t.size_addChild p e.name
    obtain ⟨t', ht', hes⟩ := extend_eq_ok es (t.addChild p e.name).2 fun i e' he' => by
      obtain ⟨p', hp', hlt'⟩ := h (i + 1) e' he'
      exact ⟨p', hp', by omega⟩
    refine ⟨t', ?_, ?_⟩
    · unfold Tree.extend
      simp only [hp]
      rw [if_neg (by omega)]
      exact ht'
    · rw [hes, entries_addChild, List.append_assoc, ← hp]
      rfl

/-- **A tree can be built again from its entries**, which then are the same. -/
theorem Linked.ofEntries_entries (h : t.Linked) :
    ∃ t', ofEntries t.entries = .ok t' ∧ t'.entries = t.entries := by
  obtain ⟨t', ht', hes⟩ := extend_eq_ok (t.entries.drop 1) empty fun i e he => by
    rw [List.getElem?_drop] at he
    unfold entries at he
    rw [List.getElem?_map, Array.getElem?_toList] at he
    obtain ⟨n, hn, rfl⟩ := Option.map_eq_some_iff.1 he
    have hne : (⟨1 + i⟩ : Quark) ≠ .root := by simp [Quark.root]
    exact h.parent_lt (q := ⟨1 + i⟩) hn hne
  refine ⟨t', ht', ?_⟩
  rw [hes, h.entries_eq]
  rfl

end

end StateHistory.Tree
