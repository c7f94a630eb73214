import StateHistory.Proofs.Attribute.Entries
import StateHistory.Proofs.Attribute.Indexed

/-!
# Attributes and their paths

A tree that only grows along paths never has two children of the same name in one place (`Named`).
Then attributes and paths tell the same: the names on the way up from an attribute are those of the
one path that leads down to it (`Named.path_eq_ok_iff`), and it makes no difference from which
attribute on the way a path is followed or grown. What growing adds is just what the path lacks
(`Named.grow_splits`), and what is there stays as it is (`Named.keeps_grow`); `paths_ensureAll` puts
this together for trees grown from the root.
-/

namespace StateHistory.Tree

/-- The links agree, and siblings have different names. -/
structure Named (t : Tree) : Prop extends t.Linked where
  name_inj : ∀ {q a b : Quark} {name : String}, a ∈ t.childrenOf q → b ∈ t.childrenOf q →
    t.isNamed name a = true → t.isNamed name b = true → a = b

section
variable {t : Tree} {p q c d base : Quark} {name : String} {path way more : List String}

/-! ## Siblings with different names -/

theorem isNamed_iff : t.isNamed name q = true ↔ ∃ n, t.node? q = some n ∧ n.name = name := by
  unfold isNamed
  cases t.node? q <;> simp

theorem named_empty : empty.Named := by
  refine ⟨linked_empty, fun {q a b name} ha _ _ _ => ?_⟩
  have hlt := linked_empty.lt_of_mem ha
  have hin : a.index < empty.size := of_decide_eq_true (linked_empty.contains_of_mem ha)
  have hsize : empty.size = 1 := rfl
  omega

/-- A child is found under its name. -/
theorem Named.child?_of_mem (h : t.Named) (hc : c ∈ t.childrenOf q) (hn : t.isNamed name c = true) :
    t.child? q name = some c := by
  cases hfound : t.child? q name with
  | some d =>
    obtain ⟨hd, hdn⟩ := mem_of_child? hfound
    rw [h.name_inj hd hc hdn hn]
  | none =>
    unfold child? at hfound
    exact absurd hn (List.find?_eq_none.1 hfound c (List.mem_reverse.2 hc))

theorem Named.addChild (h : t.Named) (hp : t.contains p = true) (hnone : t.child? p name = none) :
    (t.addChild p name).2.Named := by
  refine ⟨h.toLinked.addChild hp name, fun {q a b n} ha hb hna hnb => ?_⟩
  have hold : ∀ r ∈ t.childrenOf q, (t.addChild p name).2.isNamed n r = true →
      t.isNamed n r = true := by
    intro r hr hn
    rwa [isNamed_addChild, if_neg (index_ne_size (h.contains_of_mem hr))] at hn
  have hnew : (t.addChild p name).2.isNamed n ⟨t.size⟩ = true → name = n := by
    intro hn
    rw [isNamed_addChild, if_pos rfl] at hn
    exact eq_of_beq hn
  rw [childrenOf_addChild hp] at ha hb
  by_cases hqp : q = p
  · subst hqp
    rw [if_pos rfl, List.mem_append, List.mem_singleton] at ha hb
    -- the name of the new child was free
    have hfree : ∀ r ∈ t.childrenOf q, t.isNamed n r = true → name ≠ n := by
      rintro r hr hn rfl
      rw [h.child?_of_mem hr hn] at hnone
      cases hnone
    rcases ha with ha | rfl
    · rcases hb with hb | rfl
      · exact h.name_inj ha hb (hold a ha hna) (hold b hb hnb)
      · exact absurd (hnew hnb) (hfree a ha (hold a ha hna))
    · rcases hb with hb | rfl
      · exact absurd (hnew hna) (hfree b hb (hold b hb hnb))
      · rfl
  · rw [if_neg hqp] at ha hb
    exact h.name_inj ha hb (hold a ha hna) (hold b hb hnb)

theorem Named.grow (h : t.Named) (hq : t.contains q = true) (path : List String) :
    (t.grow q path).2.Named :=
  (h.toLinked.grow_induct (P := Named) (fun _ hp hnone h => h.addChild hp hnone) hq path h).2

theorem named_ensureAll (requests : List (Quark × List String)) :
    (empty.ensureAll requests).Named :=
  ensureAll_induct (P := Named) (fun path hb h => h.grow hb path) requests named_empty

/-! ## Down and up -/

theorem Linked.find?_root (h : t.Linked) (path : List String) :
    t.find? .root path = t.descend .root path := by
  rw [find?, if_pos h.contains_root]

theorem find?_eq_some_iff :
    t.find? base path = some q ↔ t.contains base = true ∧ t.descend base path = some q := by
  unfold find?
  split <;> simp [*]

/-- The walk up from an attribute passes the names of the path that leads down to it. -/
theorem Linked.climb_of_descend (h : t.Linked) :
    ∀ {fuel : Nat} {q : Quark} (way below : List String),
    t.descend .root way = some q → q.index ≤ fuel → t.climb fuel q below = way ++ below := by
  intro fuel q way
  induction way using List.reverseRecOn generalizing fuel q with
  | nil =>
    intro below hd _
    obtain rfl := Option.some.inj hd
    obtain ⟨children, hroot⟩ := h.root_eq
    cases fuel with
    | zero => rfl
    | succ fuel => simp only [climb, hroot, List.nil_append]
  | append_singleton way name ih =>
    intro below hd hle
    rw [descend_concat] at hd
    obtain ⟨p, hp, hc⟩ := Option.bind_eq_some_iff.1 hd
    obtain ⟨hmem, hname⟩ := mem_of_child? hc
    have hlt := h.lt_of_mem hmem
    obtain ⟨⟨name', parent, children⟩, hn, hparent⟩ := h.mem_childrenOf.1 hmem
    obtain rfl : parent = some p := hparent
    obtain ⟨n', hn', hname'⟩ := isNamed_iff.1 hname
    obtain rfl := Option.some.inj (hn.symm.trans hn')
    obtain rfl : name' = name := hname'
    obtain ⟨fuel, rfl⟩ : ∃ k, fuel = k + 1 := ⟨fuel - 1, by omega⟩
    have hclimb : t.climb (fuel + 1) q below = t.climb fuel p (name' :: below) := by
      simp only [climb, hn]
    rw [hclimb, ih (name' :: below) hp (by omega), List.append_assoc, List.singleton_append]

theorem Linked.path_of_descend (h : t.Linked) (hd : t.descend .root way = some q) :
    t.path q = .ok way := by
  rw [path, if_pos (h.contains_descend way h.contains_root hd),
    h.climb_of_descend way [] hd (Nat.le_refl _), List.append_nil]

/-- Some path leads to every attribute. -/
theorem Named.exists_way (h : t.Named) {q : Quark} (hq : t.contains q = true) :
    ∃ way, t.descend .root way = some q := by
  -- from the parent, which has a smaller quark
  induction hi : q.index using Nat.strongRecOn generalizing q with
  | ind i ih =>
    by_cases hroot : q = .root
    · exact ⟨[], by rw [hroot]; rfl⟩
    · obtain ⟨n, hn⟩ := contains_iff.1 hq
      obtain ⟨p, hp, hlt⟩ := h.parent_lt hn hroot
      obtain ⟨way, hway⟩ := ih p.index (by omega) (h.contains_parent hn hp) rfl
      have hmem : q ∈ t.childrenOf p := h.mem_childrenOf.2 ⟨n, hn, hp⟩
      have hchild := h.child?_of_mem hmem (isNamed_iff.2 ⟨n, hn, rfl⟩)
      refine ⟨way ++ [n.name], ?_⟩
      rw [descend_concat, hway, Option.bind_some, hchild]

/-- **The names on the way up are those of the path down.** -/
theorem Named.path_eq_ok_iff (h : t.Named) : t.path q = .ok way ↔ t.descend .root way = some q := by
  refine ⟨fun hp => ?_, h.path_of_descend⟩
  have hq : t.contains q = true := by
    unfold path at hp
    split at hp
    · rename_i hq
      exact hq
    · cases hp
  obtain ⟨way', hway'⟩ := h.exists_way hq
  rw [h.path_of_descend hway', Except.ok.injEq] at hp
  rwa [← hp]

theorem Named.contains_of_path (h : t.Named) (hp : t.path q = .ok way) : t.contains q = true :=
  h.contains_descend way h.contains_root (h.path_eq_ok_iff.1 hp)

/-- Below an attribute its path goes on. -/
theorem Named.path_descend (h : t.Named) (hbase : t.path base = .ok way)
    (hd : t.descend base path = some q) :
    t.path q = .ok (way ++ path) := by
  rw [h.path_eq_ok_iff] at hbase ⊢
  rw [descend_append, hbase]
  exact hd

/-- An attribute whose path goes on from that of another lies below it. -/
theorem Named.descend_of_path (h : t.Named) (hbase : t.path base = .ok way)
    (hq : t.path q = .ok (way ++ path)) :
    t.descend base path = some q := by
  rw [h.path_eq_ok_iff] at hbase hq
  rwa [descend_append, hbase] at hq

/-! ## What is missing -/

/-- Of a path below `base` the part `known` can be followed, and no name more. -/
structure Splits (t : Tree) (base : Quark) (path known missing : List String) : Prop where
  eq_append : path = known ++ missing
  found : ∃ c, t.find? base known = some c
  lost : ∀ name rest, missing = name :: rest → t.find? base (known ++ [name]) = none

theorem exists_splits (hbase : t.contains base = true) (path : List String) :
    ∃ known missing, t.Splits base path known missing := by
  induction path using List.reverseRecOn with
  | nil => exact ⟨[], [], rfl, ⟨base, find?_eq_some_iff.2 ⟨hbase, rfl⟩⟩, by simp⟩
  | append_singleton path name ih =>
    obtain ⟨known, missing, rfl, hfound, hlost⟩ := ih
    cases missing with
    | cons n rest =>
      refine ⟨known, n :: rest ++ [name], by simp, hfound, fun n' rest' heq => ?_⟩
      obtain ⟨rfl, -⟩ := List.cons.inj heq
      exact hlost n rest rfl
    | nil =>
      rw [List.append_nil]
      cases hnext : t.find? base (known ++ [name]) with
      | some c => exact ⟨known ++ [name], [], by simp, ⟨c, hnext⟩, by simp⟩
      | none =>
        refine ⟨known, [name], rfl, hfound, fun n' rest' heq => ?_⟩
        obtain ⟨rfl, -⟩ := List.cons.inj heq
        exact hnext

/-- Growing where nothing is there adds one attribute for each name, each below the one before
it. -/
theorem Linked.grow_missing :
    ∀ {t : Tree} (_ : t.Linked) {q : Quark} (_ : t.contains q = true) (missing : List String),
    (∀ name rest, missing = name :: rest → t.child? q name = none) →
      (t.grow q missing).2.size = t.size + missing.length ∧
      ∀ i < missing.length, (t.grow q missing).2.descend q (missing.take (i + 1)) =
        some ⟨t.size + i⟩
  | _, _, _, _, [], _ => ⟨rfl, fun i hi => absurd hi (Nat.not_lt_zero i)⟩
  | t, h, q, hq, name :: rest, hnone => by
    have h' := h.addChild hq name
    have hin : (t.addChild q name).2.contains ⟨t.size⟩ = true := by
      rw [contains_iff, node?_addChild]
      exact ⟨_, if_pos rfl⟩
    have hgrow : t.grow q (name :: rest) = (t.addChild q name).2.grow ⟨t.size⟩ rest := by
      simp only [Tree.grow, hnone name rest rfl]
      rfl
    have hchild : (t.addChild q name).2.child? q name = some ⟨t.size⟩ := by
      rw [h.child?_addChild hq, if_pos ⟨rfl, rfl⟩]
    have hnone' : ∀ name' rest', rest = name' :: rest' →
        (t.addChild q name).2.child? ⟨t.size⟩ name' = none := by
      intro name' _ _
      rw [child?, childrenOf_addChild_self hq]
      rfl
    obtain ⟨hsize, hnew⟩ := h'.grow_missing hin rest hnone'
    rw [hgrow]
    refine ⟨by rw [hsize, size_addChild, List.length_cons]; omega, fun i hi => ?_⟩
    rw [List.take_succ_cons, descend, h'.child?_grow hin rest hchild]
    cases i with
    | zero => rfl
    | succ i =>
      have hdescend := hnew i (Nat.lt_of_succ_lt_succ hi)
      rwa [size_addChild, Nat.add_right_comm] at hdescend

/-- **Growing adds the missing attributes**, each at its place on the path, and no other. -/
theorem Named.grow_splits (h : t.Named) (hway : t.path base = .ok way) {known missing : List String}
    (hsplit : t.Splits base path known missing) :
    (t.grow base path).2.size = t.size + missing.length ∧
    ∀ i < missing.length, (t.grow base path).2.path ⟨t.size + i⟩ =
      .ok (way ++ known ++ missing.take (i + 1)) := by
  obtain ⟨rfl, ⟨c, hfound⟩, hlost⟩ := hsplit
  obtain ⟨hbase, hknown⟩ := find?_eq_some_iff.1 hfound
  have hc := h.contains_descend known hbase hknown
  have hnone : ∀ name rest, missing = name :: rest → t.child? c name = none := by
    intro name rest heq
    have hnext := hlost name rest heq
    rwa [find?, if_pos hbase, descend_concat, hknown] at hnext
  obtain ⟨hsize, hnew⟩ := h.grow_missing hc missing hnone
  rw [← grow_append known missing hknown] at hsize hnew
  refine ⟨hsize, fun i hi => ?_⟩
  have h' := h.grow hbase (known ++ missing)
  have hkept : ∀ (q : Quark) (way : List String) {c}, t.descend q way = some c →
      (t.grow base (known ++ missing)).2.descend q way = some c :=
    fun q way => h.descend_grow hbase (known ++ missing) way q
  have hway' := h'.path_of_descend (hkept .root way (h.path_eq_ok_iff.1 hway))
  have hbelow : (t.grow base (known ++ missing)).2.descend base (known ++ missing.take (i + 1)) =
      some ⟨t.size + i⟩ := by
    rw [descend_append, hkept base known hknown]
    exact hnew i hi
  rw [h'.path_descend hway' hbelow, List.append_assoc]

/-! ## What stays -/

/-- The attributes of `t` are in `t'` what they were, with their names, parents and paths, and the
ways from one to another are the same. -/
structure Keeps (t t' : Tree) : Prop where
  node_eq : ∀ c n, t.node c = .ok n → ∃ n', t'.node c = .ok n' ∧ n'.name = n.name ∧
    n'.parent = n.parent
  path_eq : ∀ c, t.contains c = true → t'.path c = t.path c
  find?_iff : ∀ c d path, t.contains c = true → t.contains d = true →
    (t'.find? c path = some d ↔ t.find? c path = some d)

/-- A way between attributes that were there before leads where it led before. -/
theorem Named.descend_grow_iff (h : t.Named) (hbase : t.contains base = true) (more : List String)
    (hc : t.contains c = true) (hd : t.contains d = true) :
    (t.grow base more).2.descend c path = some d ↔ t.descend c path = some d := by
  have hkept : ∀ (q : Quark) (way : List String) {c}, t.descend q way = some c →
      (t.grow base more).2.descend q way = some c :=
    fun q way => h.descend_grow hbase more way q
  refine ⟨fun hnew => ?_, hkept c path⟩
  obtain ⟨way, hway⟩ := h.exists_way hc
  obtain ⟨way', hway'⟩ := h.exists_way hd
  -- both ways from the root lead to `d` in the grown tree, so they are one
  have hlong : (t.grow base more).2.descend .root (way ++ path) = some d := by
    rw [descend_append, hkept .root way hway]
    exact hnew
  obtain rfl := (h.toLinked.grow hbase more).descend_inj hlong (hkept .root way' hway')
  rwa [descend_append, hway] at hway'

theorem Named.keeps_grow (h : t.Named) (hbase : t.contains base = true) (path : List String) :
    t.Keeps (t.grow base path).2 := by
  have hentries := h.entries_grow hbase path
  refine ⟨fun c n hn => ?_, fun c hc => h.path_of_isPrefix hentries hc, fun c d more hc hd => ?_⟩
  · obtain ⟨n', hn', hname, hparent⟩ := node?_of_isPrefix hentries (node_eq_ok_iff.1 hn)
    exact ⟨n', node_eq_ok_iff.2 hn', hname, hparent⟩
  · rw [find?_eq_some_iff, find?_eq_some_iff, h.descend_grow_iff hbase path hc hd]
    simp [hc, h.contains_grow hbase path hc]

end

/-- **Attributes are named by their paths**, in every tree that has grown from its root by requests
for paths below given attributes. The indexes of nodes agree with the lists of children, so it makes
no difference which of them a path is followed by. Each attribute is found under its path, and what
is found below an attribute has the path that goes on from it. A request is as good as one from the
root; it adds an attribute for each name that was missing and no other, it adds nothing when it is
made again, and it leaves the attributes that were there what they were. -/
theorem paths_ensureAll (requests : List (Quark × List String)) :
    let t := empty.ensureAll requests
    Indexes (IndexedTree.empty.ensureAll requests) t ∧
    (∀ q path, (IndexedTree.empty.ensureAll requests).descend q path = t.descend q path) ∧
    (∀ q, t.contains q = true → ∃ way, t.path q = .ok way ∧ t.find? .root way = some q) ∧
    (∀ base path q, t.find? base path = some q → ∃ way,
      t.path base = .ok way ∧ t.path q = .ok (way ++ path)) ∧
    ∀ base way path, t.path base = .ok way → ∃ q t', t.ensure base path = .ok (q, t') ∧
      t.ensure .root (way ++ path) = .ok (q, t') ∧
      t'.find? base path = some q ∧ t'.ensure base path = .ok (q, t') ∧
      (∃ known missing, t.Splits base path known missing ∧ t'.size = t.size + missing.length ∧
        ∀ i < missing.length, t'.path ⟨t.size + i⟩ = .ok (way ++ known ++ missing.take (i + 1))) ∧
      t.Keeps t' := by
  intro t
  have h : t.Named := named_ensureAll requests
  have hindexes : Indexes (IndexedTree.empty.ensureAll requests) t :=
    .ensureAll requests indexes_empty linked_empty
  refine ⟨hindexes, fun q path => hindexes.descend_eq path q, fun q hq => ?_,
    fun base path q hfind => ?_, fun base way path hway => ?_⟩
  · obtain ⟨way, hway⟩ := h.exists_way hq
    exact ⟨way, h.path_of_descend hway, (h.find?_root way).trans hway⟩
  · obtain ⟨hbase, hd⟩ := find?_eq_some_iff.1 hfind
    obtain ⟨way, hway⟩ := h.exists_way hbase
    exact ⟨way, h.path_of_descend hway, h.path_descend (h.path_of_descend hway) hd⟩
  · have hbase := h.contains_of_path hway
    have hin := h.contains_grow hbase path hbase
    have hself := h.descend_grow_self hbase path
    obtain ⟨known, missing, hsplit⟩ := exists_splits hbase path
    refine ⟨_, _, if_pos hbase, ?_, find?_eq_some_iff.2 ⟨hin, hself⟩, ?_,
      ⟨known, missing, hsplit, h.grow_splits hway hsplit⟩, h.keeps_grow hbase path⟩
    · rw [ensure, if_pos h.contains_root, grow_append way path (h.path_eq_ok_iff.1 hway)]
    · rw [ensure, if_pos hin, grow_of_descend path hself]

end StateHistory.Tree
