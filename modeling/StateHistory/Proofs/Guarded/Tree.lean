import StateHistory.Proofs.Attribute.Entries
import StateHistory.Proofs.Guarded.Basic
import StateHistory.Proofs.Store.Sweep

/-!
# Guarded walks in a tree

Whatever links an attribute to others leads to attributes of the tree, and every attribute is below
its parent. So walks along paths and patterns fetch no node that is not there, the way up to the
root ends after as many steps as there are attributes at most, and so does the visit of all
attributes below one, which comes to each just once (`Visiting`).
-/

namespace StateHistory.Guarded

/-! ## Operations -/

/-- Follows a path down from `q`. -/
def descend (t : Tree) (q : Quark) : List String → Guarded (Option Quark)
  | [] => .ok (some q)
  | name :: path => do
    let _ ← fetch t.nodes q.index
    match t.child? q name with
    | some c => descend t c path
    | none => return none

/-- The attribute at the path `path` below `base`. -/
def find (t : Tree) (base : Quark) (path : List String) : Guarded (Option Quark) :=
  if t.contains base then descend t base path else return none

/-- The names from the root down to a node, with those below it. -/
def climb (t : Tree) (fuel : Nat) (n : Node) (below : List String) : Guarded (List String) :=
  match n.parent with
  | none => .ok below
  | some parent =>
    match fuel with
    | 0 => .error .endless
    | fuel + 1 => do climb t fuel (← fetch t.nodes parent.index) (n.name :: below)

/-- The path of `q` from the root. -/
def path (t : Tree) (q : Quark) : Checked (List String) := do
  let n ← plain (t.node q)
  climb t t.size n []

/-- Visits the quarks of a worklist, putting the children of each in front of the rest. -/
def visit (t : Tree) : Nat → List Quark → Guarded (List Quark)
  | _, [] => .ok []
  | 0, _ :: _ => .error .endless
  | fuel + 1, q :: pending => do
    let n ← fetch t.nodes q.index
    return q :: (← visit t fuel (n.children ++ pending))

/-- The children of `q`, or every attribute below it. -/
def below (t : Tree) (q : Quark) (recursive : Bool) : Checked (List Quark) := do
  let n ← plain (t.node q)
  if recursive then visit t t.size n.children else return n.children

/-- The attributes one step of a pattern away from `q`. -/
def follow (t : Tree) (segment : String) (q : Quark) : Guarded (List Quark) := do
  let _ ← fetch t.nodes q.index
  return t.follow segment q

/-- The attributes that some walk along a pattern reaches from some of the given ones. -/
def walk (t : Tree) : List String → List Quark → Guarded (List Quark)
  | [], qs => .ok qs
  | segment :: pattern, qs => do
    let next ← qs.mapM (follow t segment)
    walk t pattern (Tree.sorted next.flatten)

/-- The attributes that some walk along `pattern` reaches from `base`. -/
def select (t : Tree) (base : Quark) (pattern : List String) : Checked (List Quark) := do
  let _ ← plain (t.node base)
  walk t pattern [base]

section
variable {t : Tree} {q c base : Quark} {n : Node} {exact : Prop}

theorem fetch_of_node? (h : t.node? q = some n) : fetch t.nodes q.index = .ok n :=
  fetch_of_getElem? h

/-- What is asked of an attribute fails only as its node does. -/
theorem bind_node {α : Type} (t : Tree) (q : Quark) (a : α) :
    (t.node q >>= fun _ => .ok a) = if t.contains q then .ok a else .error (.invalidQuark q) := by
  split
  · obtain ⟨n, hn⟩ := Tree.contains_iff.1 ‹t.contains q = true›
    rw [Tree.node_eq_ok_iff.2 hn]
    rfl
  · rename_i hq
    cases hn : t.node? q with
    | some n => exact absurd (Tree.contains_iff.2 ⟨n, hn⟩) hq
    | none =>
      simp only [Tree.node, hn]
      rfl

theorem node?_of_run (h : (plain (t.node q)).run = .ok (.ok n)) : t.node? q = some n :=
  Tree.node_eq_ok_iff.1 (Except.ok.inj h)

theorem childrenOf_eq (h : t.node? q = some n) : t.childrenOf q = n.children := by
  simp only [Tree.childrenOf, h]

/-! ## Paths -/

/-- Going down a path fetches only nodes of the tree. -/
theorem descend_eq (h : t.Linked) : ∀ (path : List String) {q : Quark}, t.contains q = true →
    descend t q path = .ok (t.descend q path)
  | [], _, _ => rfl
  | name :: path, q, hq => by
    obtain ⟨n, hn⟩ := Tree.contains_iff.1 hq
    rw [descend, fetch_of_node? hn, Tree.descend]
    cases hc : t.child? q name with
    | none => rfl
    | some c => exact descend_eq h path (h.contains_of_mem (Tree.mem_of_child? hc).1)

theorem find_eq (h : t.Linked) (base : Quark) (path : List String) :
    find t base path = .ok (t.find? base path) := by
  unfold find Tree.find?
  split
  · exact descend_eq h path ‹_›
  · rfl

/-- Every parent has a smaller quark, so the way up ends. -/
theorem climb_eq (h : t.Linked) :
    ∀ {fuel bound : Nat} {q : Quark} {n : Node} (below : List String), t.node? q = some n →
    q.index ≤ fuel → q.index ≤ bound → climb t fuel n below = .ok (t.climb bound q below)
  | fuel, bound, q, n, below, hn, hfuel, hbound => by
    unfold climb
    cases hp : n.parent with
    | none =>
      cases bound with
      | zero => rfl
      | succ bound =>
        obtain ⟨name, parent, children⟩ := n
        obtain rfl : parent = none := hp
        simp only [Tree.climb, hn]
    | some p =>
      have hne : q ≠ .root := by
        rintro rfl
        obtain ⟨children, hroot⟩ := h.root_eq
        rw [hroot, Option.some.injEq] at hn
        subst hn
        cases hp
      obtain ⟨p', hp', hlt⟩ := h.parent_lt hn hne
      obtain rfl : p = p' := Option.some.inj (hp.symm.trans hp')
      obtain ⟨m, hm⟩ := Tree.contains_iff.1 (h.contains_parent hn hp)
      obtain ⟨fuel, rfl⟩ : ∃ k, fuel = k + 1 := ⟨fuel - 1, by omega⟩
      obtain ⟨bound, rfl⟩ : ∃ k, bound = k + 1 := ⟨bound - 1, by omega⟩
      obtain ⟨name, parent, children⟩ := n
      obtain rfl : parent = some p := hp
      have hclimb : t.climb (bound + 1) q below = t.climb bound p (name :: below) := by
        simp only [Tree.climb, hn]
      rw [hclimb]
      simp only [fetch_of_node? hm]
      exact climb_eq h (name :: below) hm (by omega) (by omega)

theorem runs_path (h : t.Linked) (q : Quark) : Runs exact (path t q).run (t.path q) := by
  rw [Tree.path, ← bind_node]
  refine (runs_plain (t.node q)).andThen fun n hn => ?_
  have hn := node?_of_run hn
  have hlt : q.index < t.size := of_decide_eq_true (Tree.contains_iff.2 ⟨n, hn⟩)
  exact (runs_of_eq (climb_eq h [] hn (Nat.le_of_lt hlt) (Nat.le_refl _))).lift

/-! ## Attributes below others -/

/-- A visit of what is below `base` has come to some attributes and is to come to others: each of
them once, and each after its parent. -/
structure Visiting (t : Tree) (base : Quark) (done pending : List Quark) : Prop where
  nodup : (done ++ pending).Nodup
  after : ∀ c ∈ done ++ pending, base.index < c.index
  parent : ∀ c ∈ done ++ pending, ∃ p, c ∈ t.childrenOf p ∧ (p = base ∨ p ∈ done)

/-- A visit begins with the children. -/
theorem visiting_children (h : t.Grown) (base : Quark) :
    Visiting t base [] (t.childrenOf base) where
  nodup := (h.ascending base).imp fun hlt heq => by
    rw [heq] at hlt
    exact Nat.lt_irrefl _ hlt
  after c hc := h.toLinked.lt_of_mem hc
  parent c hc := ⟨base, hc, .inl rfl⟩

/-- What is visited makes room for its children, none of which is known yet. -/
theorem Visiting.step (h : t.Grown) {done pending : List Quark}
    (hv : Visiting t base done (q :: pending)) :
    Visiting t base (done ++ [q]) (t.childrenOf q ++ pending) := by
  have hmem : q ∈ done ++ q :: pending := by simp
  have hknown : (done ++ q :: pending).Perm (done ++ [q] ++ pending) := by simp
  have hnew : ∀ c ∈ t.childrenOf q, c ∉ done ++ q :: pending := by
    intro c hc hold
    obtain ⟨p, hp, hp'⟩ := hv.parent c hold
    obtain rfl := h.toLinked.parent_unique hp hc
    rcases hp' with rfl | hdone
    · exact Nat.lt_irrefl _ (hv.after p hmem)
    · exact (List.nodup_append.1 hv.nodup).2.2 p hdone p (by simp) rfl
  have hparts : ∀ c ∈ done ++ [q] ++ (t.childrenOf q ++ pending), c ∈ t.childrenOf q ∨
      c ∈ done ++ q :: pending := by
    intro c hc
    simp only [List.mem_append, List.mem_cons, List.not_mem_nil, or_false] at hc ⊢
    tauto
  refine ⟨?_, fun c hc => ?_, fun c hc => ?_⟩
  · have hperm : (done ++ [q] ++ (t.childrenOf q ++ pending)).Perm
        (t.childrenOf q ++ (done ++ q :: pending)) := by
      refine List.perm_append_comm_assoc _ _ _ |>.trans ?_
      exact List.Perm.append_left _ hknown.symm
    rw [hperm.nodup_iff]
    refine List.nodup_append.2 ⟨(visiting_children h q).nodup, hv.nodup, ?_⟩
    rintro c hc _ hold rfl
    exact hnew c hc hold
  · rcases hparts c hc with hc | hc
    · exact Nat.lt_trans (hv.after q hmem) (h.toLinked.lt_of_mem hc)
    · exact hv.after c hc
  · rcases hparts c hc with hc | hc
    · exact ⟨q, hc, .inr (by simp)⟩
    · obtain ⟨p, hp, hp'⟩ := hv.parent c hc
      exact ⟨p, hp, hp'.imp_right fun hdone => List.mem_append_left _ hdone⟩

/-- There are no more attributes to come to than there are in the tree. -/
theorem Visiting.length_le (h : t.Grown) {done pending : List Quark}
    (hv : Visiting t base done pending) :
    (done ++ pending).length ≤ t.size := by
  refine Tree.length_le_size hv.nodup fun c hc => ?_
  obtain ⟨p, hp, -⟩ := hv.parent c hc
  exact h.toLinked.contains_of_mem hp

/-- A visit ends after as many rounds as there are attributes left. -/
theorem visit_eq (h : t.Grown) :
    ∀ {fuel : Nat} {done pending : List Quark}, Visiting t base done pending →
    t.size ≤ done.length + fuel → visit t fuel pending = .ok (t.visit fuel pending)
  | fuel, _, [], _, _ => by
    unfold visit
    cases fuel <;> rfl
  | 0, done, q :: pending, hv, hfuel => by
    have hle := hv.length_le h
    simp only [List.length_append, List.length_cons] at hle
    omega
  | fuel + 1, done, q :: pending, hv, hfuel => by
    obtain ⟨p, hp, -⟩ := hv.parent q (by simp)
    obtain ⟨n, hn⟩ := Tree.contains_iff.1 (h.toLinked.contains_of_mem hp)
    have hchildren := childrenOf_eq hn
    have hleft : t.size ≤ (done ++ [q]).length + fuel := by
      rw [List.length_append, List.length_singleton]
      omega
    have hrest := visit_eq h (hv.step h) hleft
    rw [hchildren] at hrest
    rw [visit, fetch_of_node? hn, Tree.visit, hchildren]
    change (visit t fuel (n.children ++ pending) >>= fun qs => Except.ok (q :: qs)) = _
    rw [hrest]
    rfl

theorem runs_below (h : t.Grown) (q : Quark) (recursive : Bool) :
    Runs exact (below t q recursive).run (t.below q recursive) := by
  refine (runs_plain (t.node q)).andThen fun n hn => ?_
  have hchildren := childrenOf_eq (node?_of_run hn)
  cases recursive with
  | false => exact runs_pure _
  | true =>
    have hleft : t.size ≤ ([] : List Quark).length + t.size := by simp
    have hvisit := visit_eq h (visiting_children h q) hleft
    rw [hchildren] at hvisit
    exact (runs_of_eq hvisit).lift

/-! ## Patterns -/

theorem contains_of_mem_follow (h : t.Linked) {segment : String} (hc : c ∈ t.follow segment q) :
    t.contains c = true := by
  unfold Tree.follow at hc
  split at hc
  · exact h.contains_of_mem hc
  · split at hc
    · obtain ⟨n, hn, hp⟩ := Option.bind_eq_some_iff.1 (Option.mem_toList.1 hc)
      exact h.contains_parent hn hp
    · exact h.contains_of_mem (Tree.mem_of_child? (Option.mem_toList.1 hc)).1

theorem mem_sorted {qs : List Quark} : c ∈ Tree.sorted qs ↔ c ∈ qs := by
  rw [Tree.sorted, Store.mem_eraseReps, List.mem_mergeSort]

theorem walk_eq (h : t.Linked) :
    ∀ (pattern : List String) {qs : List Quark}, (∀ q ∈ qs, t.contains q = true) →
    walk t pattern qs =
      .ok (pattern.foldl (fun qs segment => Tree.sorted (qs.flatMap (t.follow segment))) qs)
  | [], _, _ => rfl
  | segment :: pattern, qs, hqs => by
    have hfollow : ∀ q ∈ qs, Runs True (follow t segment q) (t.follow segment q) := by
      intro q hq
      obtain ⟨n, hn⟩ := Tree.contains_iff.1 (hqs q hq)
      rw [follow, fetch_of_node? hn]
      exact runs_ok _
    obtain ⟨next, hnext, hexact⟩ := Runs.mapM hfollow
    obtain rfl := hexact trivial
    rw [walk, hnext, List.foldl_cons]
    change walk t pattern (Tree.sorted (qs.map (t.follow segment)).flatten) = _
    rw [← List.flatMap_def]
    refine walk_eq h pattern fun c hc => ?_
    obtain ⟨q, -, hc⟩ := List.mem_flatMap.1 (mem_sorted.1 hc)
    exact contains_of_mem_follow h hc

theorem runs_select (h : t.Linked) (base : Quark) (pattern : List String) :
    Runs exact (select t base pattern).run (t.select base pattern) := by
  rw [Tree.select, ← bind_node]
  refine (runs_plain (t.node base)).andThen fun n hn => ?_
  refine (runs_of_eq (walk_eq h pattern fun q hq => ?_)).lift
  obtain rfl := List.mem_singleton.1 hq
  exact Tree.contains_iff.2 ⟨n, node?_of_run hn⟩

end

end StateHistory.Guarded
