import StateHistory.Proofs.Attribute.Below

/-!
# The order in which attributes are found

What lies below an attribute is a matter of recursion: its children, each followed by what lies
below that (`Linked.preorder`). The recursion ends because a child has a greater quark than its
parent. The attributes are found without recursion, by a loop with a stack of attributes that are
still to be visited, which has the children of a visited attribute put on it in reverse; the loop
ends as well and visits the same attributes in the same order (`Linked.unstacks_preorder`). From the
recursion one reads off that all that lies below another attribute stands right behind it
(`Linked.preorder_split`), and children in the order of their creation
(`Linked.children_sublist_preorder`).
-/

namespace StateHistory.Tree

open Relation (TransGen)

/-- The trees there are: they begin with a root or are restored from entries, and grow by requests
for paths. -/
inductive Built : Tree → Prop
  | empty : Built empty
  | restored {entries : List Entry} {t : Tree} (h : ofEntries entries = .ok t) : Built t
  | grown {t t' : Tree} {base q : Quark} {path : List String} (ht : Built t)
      (h : t.ensure base path = .ok (q, t')) : Built t'

/-- A loop ends that takes an attribute from the top of a stack, which is at its end, and puts the
children on it in reverse, as long as there is one to take. These are the attributes that it
visits. -/
inductive Unstacks (t : Tree) : List Quark → List Quark → Prop
  | done : Unstacks t [] []
  | pop {stack visited : List Quark} {q : Quark}
    (rest : Unstacks t (stack ++ (t.childrenOf q).reverse) visited) :
    Unstacks t (stack ++ [q]) (q :: visited)

section
variable {t : Tree} {q a c p base : Quark}

theorem Built.toGrown (h : t.Built) : t.Grown := by
  induction h with
  | empty => exact grown_empty
  | restored h => exact grown_empty.extend h
  | @grown t t' base q path _ h ih =>
    unfold ensure at h
    split at h
    · rename_i hbase
      obtain rfl : (t.grow base path).2 = t' := congrArg Prod.snd (Except.ok.inj h)
      exact ih.grow hbase path
    · cases h

/-! ## Recursion -/

/-- What holds of an attribute when it holds of its children holds of all. -/
theorem Linked.children_induct (h : t.Linked) {P : Quark → Prop}
    (hstep : ∀ q, (∀ c ∈ t.childrenOf q, P c) → P q) (q : Quark) :
    P q := by
  induction hleft : t.size - q.index using Nat.strongRecOn generalizing q with
  | ind left ih =>
    refine hstep q fun c hc => ih (t.size - c.index) ?_ c rfl
    have hlt := h.lt_of_mem hc
    have hin : c.index < t.size := of_decide_eq_true (h.contains_of_mem hc)
    omega

/-- The attributes below `q`: each of its children, followed by what lies below that. -/
def Linked.preorder (h : t.Linked) (q : Quark) : List Quark :=
  (t.childrenOf q).attach.flatMap fun c => c.1 :: h.preorder c.1
termination_by t.size - q.index
decreasing_by
  have hlt := h.lt_of_mem c.2
  have hin : c.1.index < t.size := of_decide_eq_true (h.contains_of_mem c.2)
  omega

theorem Linked.preorder_eq (h : t.Linked) (q : Quark) :
    h.preorder q = (t.childrenOf q).flatMap fun c => c :: h.preorder c := by
  rw [preorder, List.flatMap_subtype (g := fun c => c :: h.preorder c) (fun _ _ => rfl),
    List.unattach_attach]

/-- What lies below are the attributes that parents lead up from. -/
theorem Linked.mem_preorder_iff (h : t.Linked) : a ∈ h.preorder q ↔ TransGen t.ParentOf q a := by
  constructor
  · induction q using h.children_induct with
    | hstep q ih =>
      intro ha
      rw [h.preorder_eq] at ha
      obtain ⟨c, hc, ha⟩ := List.mem_flatMap.1 ha
      have hqc : t.ParentOf q c := h.mem_childrenOf.1 hc
      rcases List.mem_cons.1 ha with rfl | ha
      · exact .single hqc
      · exact .head hqc (ih c hc ha)
  · intro ha
    induction ha using TransGen.head_induction_on with
    | single hqa =>
      rw [h.preorder_eq]
      exact List.mem_flatMap.2 ⟨a, h.mem_childrenOf.2 hqa, List.mem_cons_self ..⟩
    | head hqc _ ih =>
      rw [h.preorder_eq]
      exact List.mem_flatMap.2 ⟨_, h.mem_childrenOf.2 hqc, List.mem_cons_of_mem _ ih⟩

/-- **All that lies below an attribute stands right behind it.** -/
theorem Linked.preorder_split (h : t.Linked) (ha : a ∈ h.preorder q) :
    ∃ before after, h.preorder q = before ++ a :: (h.preorder a ++ after) := by
  induction q using h.children_induct with
  | hstep q ih =>
    rw [h.preorder_eq] at ha
    obtain ⟨c, hc, ha⟩ := List.mem_flatMap.1 ha
    obtain ⟨left, right, hchildren⟩ := List.append_of_mem hc
    have hq : h.preorder q = left.flatMap (fun c => c :: h.preorder c) ++
        (c :: h.preorder c ++ right.flatMap fun c => c :: h.preorder c) := by
      rw [h.preorder_eq, hchildren, List.flatMap_append, List.flatMap_cons]
    rcases List.mem_cons.1 ha with rfl | ha
    · exact ⟨_, _, hq⟩
    · obtain ⟨before, after, hsplit⟩ := ih c hc ha
      refine ⟨left.flatMap (fun c => c :: h.preorder c) ++ c :: before,
        after ++ right.flatMap fun c => c :: h.preorder c, ?_⟩
      rw [hq, hsplit]
      simp

theorem sublist_flatMap_cons (f : Quark → List Quark) :
    ∀ l : List Quark, l.Sublist (l.flatMap fun c => c :: f c)
  | [] => .slnil
  | c :: l => by
    rw [List.flatMap_cons, List.cons_append]
    exact ((sublist_flatMap_cons f l).trans (List.sublist_append_right _ _)).cons_cons c

/-- Children stand in the order of their creation. -/
theorem Linked.children_sublist_preorder (h : t.Linked) (hp : p = q ∨ p ∈ h.preorder q) :
    (t.childrenOf p).Sublist (h.preorder q) := by
  have hself : ∀ p, (t.childrenOf p).Sublist (h.preorder p) := fun p => by
    rw [h.preorder_eq]
    exact sublist_flatMap_cons _ _
  rcases hp with rfl | hp
  · exact hself p
  · obtain ⟨before, after, hsplit⟩ := h.preorder_split hp
    rw [hsplit]
    exact (hself p).trans (((List.sublist_append_left _ _).cons p).trans
      (List.sublist_append_right _ _))

/-! ## The loop -/

/-- Whatever the loop does with what is below on the stack, it first visits what lies below the
attribute on top. -/
theorem Linked.unstacks_append (h : t.Linked) {stack visited : List Quark}
    (hrest : t.Unstacks stack visited) :
    t.Unstacks (stack ++ (t.childrenOf q).reverse) (h.preorder q ++ visited) := by
  induction q using h.children_induct generalizing stack visited with
  | hstep q ih =>
    rw [h.preorder_eq]
    -- the children left to visit, the first of them on top
    have hleft : ∀ l ⊆ t.childrenOf q,
        t.Unstacks (stack ++ l.reverse) (l.flatMap (fun c => c :: h.preorder c) ++ visited) := by
      intro l
      induction l with
      | nil => simpa using hrest
      | cons c l ihl =>
        intro hl
        have hc := hl (List.mem_cons_self ..)
        have hnext := ihl fun d hd => hl (List.mem_cons_of_mem _ hd)
        rw [List.reverse_cons, List.flatMap_cons, ← List.append_assoc, List.append_assoc (c :: _)]
        exact .pop (ih c hc hnext)
    exact hleft _ fun c hc => hc

/-- **The loop ends and visits what the recursion gives.** -/
theorem Linked.unstacks_preorder (h : t.Linked) (q : Quark) :
    t.Unstacks (t.childrenOf q).reverse (h.preorder q) := by
  have hloop := h.unstacks_append (q := q) .done
  rwa [List.nil_append, List.append_nil] at hloop

theorem Unstacks.visit_eq {stack visited : List Quark} (h : t.Unstacks stack visited) :
    ∀ {fuel : Nat}, visited.length ≤ fuel → t.visit fuel stack.reverse = visited := by
  induction h with
  | done =>
    intro fuel _
    cases fuel <;> rfl
  | @pop stack visited q rest ih =>
    intro fuel hfuel
    obtain ⟨fuel, rfl⟩ : ∃ k, fuel = k + 1 := ⟨fuel - 1, by simp at hfuel; omega⟩
    have hnext := ih (Nat.le_of_succ_le_succ hfuel)
    rw [List.reverse_append, List.reverse_reverse] at hnext
    rw [List.reverse_append, List.reverse_singleton, List.singleton_append, visit, hnext]

/-- No attribute lies below another twice. -/
theorem Grown.nodup_preorder (h : t.Grown) (q : Quark) : (h.preorder q).Nodup := by
  have hvisit := (h.unstacks_preorder q).visit_eq (Nat.le_max_left _ t.size)
  rw [List.reverse_reverse] at hvisit
  have hleft : t.size ≤ ([] : List Quark).length + max (h.preorder q).length t.size := by simp
  obtain ⟨hv, -⟩ := visiting_visit h (Guarded.visiting_children h q) hleft
  rw [hvisit] at hv
  simpa using hv.nodup

/-- As many visits as there are attributes are enough. -/
theorem Grown.below_eq (h : t.Grown) (hq : t.contains q = true) :
    t.below q true = .ok (h.preorder q) := by
  have hlength : (h.preorder q).length ≤ t.size := by
    refine length_le_size (h.nodup_preorder q) fun a ha => ?_
    obtain ⟨p, -, n, hn, -⟩ := TransGen.tail'_iff.1 (h.mem_preorder_iff.1 ha)
    exact contains_iff.2 ⟨n, hn⟩
  have hvisit := (h.unstacks_preorder q).visit_eq hlength
  rw [List.reverse_reverse] at hvisit
  exact below_ok_iff.2 ⟨hq, hvisit.symm⟩

end

/-- **Attributes are found in depth-first pre-order.** In every tree that has grown from its root or
from entries, and below every attribute, the loop ends, and gives what the recursion over the
children gives: just the attributes that have this one above them, each of them once, right before
all that lies below it, and children in the order of their creation. -/
theorem below_built {t : Tree} (h : t.Built) {q : Quark} (hq : t.contains q = true) :
    let preorder := h.toGrown.preorder
    (∀ p, preorder p = (t.childrenOf p).flatMap fun c => c :: preorder c) ∧
    t.Unstacks (t.childrenOf q).reverse (preorder q) ∧ t.below q true = .ok (preorder q) ∧
    (preorder q).Nodup ∧ (∀ a, a ∈ preorder q ↔ TransGen t.ParentOf q a) ∧
    (∀ a ∈ preorder q, ∃ before after, preorder q = before ++ a :: (preorder a ++ after)) ∧
    ∀ p, (p = q ∨ p ∈ preorder q) →
      (t.childrenOf p).Sublist (preorder q) ∧ (t.childrenOf p).Pairwise fun a b =>
        a.index < b.index := by
  intro preorder
  have hgrown := h.toGrown
  exact ⟨hgrown.preorder_eq, hgrown.unstacks_preorder q, hgrown.below_eq hq,
    hgrown.nodup_preorder q, fun a => hgrown.mem_preorder_iff, fun a => hgrown.preorder_split,
    fun p hp => ⟨hgrown.children_sublist_preorder hp, hgrown.ascending p⟩⟩

/-- Entries with siblings of one name, and with a branch that goes on behind its siblings. -/
def twins : List Entry :=
  [⟨"", none⟩, ⟨"a", some ⟨0⟩⟩, ⟨"b", some ⟨0⟩⟩, ⟨"c", some ⟨1⟩⟩, ⟨"a", some ⟨0⟩⟩, ⟨"d", some ⟨3⟩⟩]

theorem below_built_twins : ∃ t t', ofEntries twins = .ok t ∧ t.ensure ⟨1⟩ ["e"] = .ok (⟨6⟩, t') ∧
    t'.contains .root = true ∧ t'.below .root true = .ok [⟨1⟩, ⟨3⟩, ⟨5⟩, ⟨6⟩, ⟨2⟩, ⟨4⟩] ∧
    t'.Unstacks (t'.childrenOf .root).reverse [⟨1⟩, ⟨3⟩, ⟨5⟩, ⟨6⟩, ⟨2⟩, ⟨4⟩] ∧
    ∀ a, TransGen t'.ParentOf .root a ↔ a ∈ ([⟨1⟩, ⟨3⟩, ⟨5⟩, ⟨6⟩, ⟨2⟩, ⟨4⟩] : List Quark) := by
  obtain ⟨t, ht⟩ : ∃ t, ofEntries twins = .ok t := ⟨_, rfl⟩
  obtain ⟨t', ht', hbelow⟩ : ∃ t', t.ensure ⟨1⟩ ["e"] = .ok (⟨6⟩, t') ∧
      t'.below .root true = .ok [⟨1⟩, ⟨3⟩, ⟨5⟩, ⟨6⟩, ⟨2⟩, ⟨4⟩] := by
    obtain rfl := Except.ok.inj ht
    exact ⟨_, rfl, rfl⟩
  have hbuilt : t'.Built := .grown (.restored ht) ht'
  have hroot := hbuilt.toGrown.contains_root
  obtain ⟨-, hloop, heq, -, hmem, -⟩ := below_built hbuilt hroot
  rw [Except.ok.inj (heq.symm.trans hbelow)] at hloop hmem
  exact ⟨t, t', ht, ht', hroot, hbelow, hloop, fun a => (hmem a).symm⟩

end StateHistory.Tree
