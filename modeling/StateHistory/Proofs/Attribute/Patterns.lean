import StateHistory.Proofs.Attribute.Below

/-!
# Patterns of attributes

A pattern is walked segment by segment: to any child, to the parent, or to the child of a name. A
selection takes all such walks at once, keeping after each segment the attributes that some walk has
come to, in ascending order. So what is selected are just the attributes at the ends of walks
(`Named.mem_walked_iff`), each of them once (`walked_ascending`), and it makes no difference whether
a child is searched for or taken from an index (`Indexes.select_eq`).
-/

namespace StateHistory

namespace IndexedTree

/-- The attributes one step of a pattern away from `q`. -/
def follow (x : IndexedTree) (segment : String) (q : Quark) : List Quark :=
  match x.nodes[q.index]? with
  | none => []
  | some n =>
    if segment = Tree.anyChild then n.node.children
    else if segment = Tree.toParent then n.node.parent.toList
    else n.index[segment]?.toList

/-- The attributes that some walk along `pattern` reaches from `base`, in ascending order. -/
def select (x : IndexedTree) (base : Quark) (pattern : List String) : Except Failure (List Quark) :=
  if base.index < x.nodes.size then
    .ok (pattern.foldl (fun qs segment => Tree.sorted (qs.flatMap (x.follow segment))) [base])
  else .error (.invalidQuark base)

end IndexedTree

namespace Tree

/-- One step along a segment of a pattern: to a child, to the parent, or to the child of a name. -/
inductive Step (t : Tree) : String → Quark → Quark → Prop
  | child {q c : Quark} (h : t.ParentOf q c) : Step t anyChild q c
  | parent {q p : Quark} (h : t.ParentOf p q) : Step t toParent q p
  | named {q c : Quark} {name : String} (not_child : name ≠ anyChild) (not_parent : name ≠ toParent)
    (h : t.ParentOf q c) (isNamed : t.isNamed name c = true) : Step t name q c

/-- A walk that takes one step for each segment of a pattern. -/
inductive Walk (t : Tree) : Quark → List String → Quark → Prop
  | nil {q : Quark} : Walk t q [] q
  | cons {q c d : Quark} {segment : String} {pattern : List String} (step : t.Step segment q c)
    (rest : Walk t c pattern d) :
    Walk t q (segment :: pattern) d

/-- Where all walks along a pattern lead that begin at one of some attributes. -/
def walked (t : Tree) (pattern : List String) (qs : List Quark) : List Quark :=
  pattern.foldl (fun qs segment => sorted (qs.flatMap (t.follow segment))) qs

section
variable {t : Tree} {q c d : Quark} {segment : String}

/-! ## Steps -/

theorem follow_toParent : t.follow toParent q = ((t.node? q).bind (·.parent)).toList := by
  have hne : toParent ≠ anyChild := by decide
  rw [follow, if_neg hne, if_pos rfl]

/-- A step follows the links of an attribute. -/
theorem Named.mem_follow_iff (h : t.Named) : c ∈ t.follow segment q ↔ t.Step segment q c := by
  unfold follow
  constructor
  · intro hc
    split at hc
    · rename_i hany
      subst hany
      exact .child (h.mem_childrenOf.1 hc)
    · rename_i hany
      split at hc
      · rename_i hparent
        subst hparent
        exact .parent (Option.bind_eq_some_iff.1 (Option.mem_toList.1 hc))
      · rename_i hparent
        obtain ⟨hmem, hname⟩ := mem_of_child? (Option.mem_toList.1 hc)
        exact .named hany hparent (h.mem_childrenOf.1 hmem) hname
  · intro hstep
    cases hstep with
    | child hc =>
      rw [if_pos rfl]
      exact h.mem_childrenOf.2 hc
    | parent hp =>
      change c ∈ t.follow toParent q
      rw [follow_toParent]
      exact Option.mem_toList.2 (Option.bind_eq_some_iff.2 hp)
    | named hany hparent hc hname =>
      rw [if_neg hany, if_neg hparent]
      exact Option.mem_toList.2 (h.child?_of_mem (h.mem_childrenOf.2 hc) hname)

/-- Only a step to any child can lead to more than one attribute. -/
theorem Named.step_unique (h : t.Named) (hany : segment ≠ anyChild) (hc : t.Step segment q c)
    (hd : t.Step segment q d) :
    c = d := by
  obtain ⟨o, ho⟩ : ∃ o : Option Quark, t.follow segment q = o.toList := by
    rw [follow, if_neg hany]
    split
    · exact ⟨_, rfl⟩
    · exact ⟨_, rfl⟩
  rw [← h.mem_follow_iff, ho, Option.mem_toList] at hc hd
  exact Option.some.inj (hc.symm.trans hd)

/-- No step leads up from the root. -/
theorem Named.not_step_root (h : t.Named) : ¬ t.Step toParent .root c := by
  obtain ⟨children, hroot⟩ := h.root_eq
  rw [← h.mem_follow_iff, follow_toParent, hroot]
  exact List.not_mem_nil

/-! ## Walks -/

theorem sorted_ascending (qs : List Quark) : (sorted qs).Pairwise fun a b => a.index < b.index := by
  have hinj : Function.Injective Quark.index := fun a b hab => by
    cases a; exact congrArg Quark.mk hab
  refine Store.eraseReps_ascending hinj ?_
  have h : (qs.mergeSort fun a b => decide (a.index ≤ b.index)).Pairwise fun a b =>
      decide (a.index ≤ b.index) = true := by
    refine List.pairwise_mergeSort ?_ ?_ qs
    · intro a b c hab hbc
      exact decide_eq_true (Nat.le_trans (of_decide_eq_true hab) (of_decide_eq_true hbc))
    · intro a b
      simpa only [Bool.or_eq_true, decide_eq_true_eq] using Nat.le_total a.index b.index
  exact h.imp of_decide_eq_true

/-- However walks part and meet again, each of their ends is there once, in its place. -/
theorem walked_ascending :
    ∀ (pattern : List String) {qs : List Quark}, (qs.Pairwise fun a b => a.index < b.index) →
    (t.walked pattern qs).Pairwise fun a b => a.index < b.index
  | [], _, hqs => hqs
  | segment :: pattern, qs, _ =>
    walked_ascending pattern (sorted_ascending (qs.flatMap (t.follow segment)))

/-- **What is come to are the ends of walks**, and nothing else. -/
theorem Named.mem_walked_iff (h : t.Named) : ∀ (pattern : List String) {qs : List Quark},
    d ∈ t.walked pattern qs ↔ ∃ q ∈ qs, t.Walk q pattern d
  | [], qs => by
    constructor
    · exact fun hd => ⟨d, hd, .nil⟩
    · rintro ⟨q, hq, hwalk⟩
      cases hwalk
      exact hq
  | segment :: pattern, qs => by
    have hwalked : t.walked (segment :: pattern) qs =
        t.walked pattern (sorted (qs.flatMap (t.follow segment))) := rfl
    rw [hwalked, h.mem_walked_iff pattern]
    constructor
    · rintro ⟨c, hc, hrest⟩
      obtain ⟨q, hq, hstep⟩ := List.mem_flatMap.1 (Guarded.mem_sorted.1 hc)
      exact ⟨q, hq, .cons (h.mem_follow_iff.1 hstep) hrest⟩
    · rintro ⟨q, hq, hwalk⟩
      cases hwalk with
      | @cons _ c _ _ _ hstep hrest =>
        exact ⟨c, Guarded.mem_sorted.2 (List.mem_flatMap.2 ⟨q, hq, h.mem_follow_iff.2 hstep⟩),
          hrest⟩

theorem select_eq (t : Tree) (base : Quark) (pattern : List String) : t.select base pattern =
    if t.contains base then .ok (t.walked pattern [base]) else .error (.invalidQuark base) := rfl

end

end Tree

section
variable {x : IndexedTree} {t : Tree}

theorem Indexes.follow_eq (h : Indexes x t) (segment : String) (q : Quark) :
    x.follow segment q = t.follow segment q := by
  have hchild := h.child?_eq q segment
  unfold IndexedTree.follow Tree.follow
  unfold IndexedTree.child? at hchild
  rw [Tree.childrenOf, h.node?_eq, ← hchild]
  cases x.nodes[q.index]? <;> simp

/-- A selection that looks children up gives what one that searches for them gives. -/
theorem Indexes.select_eq (h : Indexes x t) (base : Quark) (pattern : List String) :
    x.select base pattern = t.select base pattern := by
  have hfollow : x.follow = t.follow := funext fun segment => funext fun q => h.follow_eq segment q
  simp only [IndexedTree.select, Tree.select, hfollow, h.contains_iff]

end

namespace Tree

/-- **A pattern selects the ends of its walks.** In every tree that has grown from its root by
requests for paths, and from every attribute of it, a selection succeeds and gives in strictly
ascending order the attributes that a walk along the pattern comes to, and no other; it makes no
difference whether children are looked up in the indexes of nodes. A step to the parent or to the
child of a name leads to one attribute at most, and none leads up from the root. -/
theorem select_ensureAll (requests : List (Quark × List String)) (base : Quark)
    (pattern : List String) :
    let t := empty.ensureAll requests
    (IndexedTree.empty.ensureAll requests).select base pattern = t.select base pattern ∧
    (t.contains base = true → ∃ qs, t.select base pattern = .ok qs ∧
      (qs.Pairwise fun a b => a.index < b.index) ∧
      ∀ q, q ∈ qs ↔ t.Walk base pattern q) ∧
    (t.contains base = false → t.select base pattern = .error (.invalidQuark base)) ∧
    (∀ segment q c d, segment ≠ anyChild → t.Step segment q c → t.Step segment q d → c = d) ∧
    ∀ p, ¬ t.Step toParent .root p := by
  intro t
  have h : t.Named := named_ensureAll requests
  have hindexes : Indexes (IndexedTree.empty.ensureAll requests) t :=
    .ensureAll requests indexes_empty linked_empty
  refine ⟨hindexes.select_eq base pattern, fun hbase => ?_, fun hbase => ?_,
    fun segment q c d hany hc hd => ?_, fun p hp => ?_⟩
  · refine ⟨t.walked pattern [base], ?_, walked_ascending pattern (List.pairwise_singleton ..),
      fun q => ?_⟩
    · rw [select_eq, if_pos hbase]
    · rw [h.mem_walked_iff]
      simp
  · rw [select_eq, if_neg (by simp [hbase])]
  · exact h.step_unique hany hc hd
  · exact h.not_step_root hp

example :
    let t :=
      empty.ensureAll [(.root, ["Processes", "1234", "CallStack"]),
      (.root, ["Processes", "5678", "CallStack"]), (.root, ["Counters", "mem"])]
    t.select .root ["Processes", "*", "CallStack", ".."] = .ok [⟨2⟩, ⟨4⟩] := by cbv

end Tree

end StateHistory
