import StateHistory.Proofs.Attribute.Paths
import StateHistory.Proofs.Guarded.Tree

/-!
# The attributes below another

The attributes below `base` are found by a walk that puts the children of each visited attribute on
its worklist. The walk comes to each of them just once, and misses none: the attributes it gives,
with `base` itself, are those that some path from `base` leads to (`Named.mem_below_iff`), and those
whose own path goes on from that of `base` (`Named.mem_below_iff_under`).
-/

namespace StateHistory.Tree

open Guarded (Visiting visiting_children)

/-- `c` was created under `p`. -/
def ParentOf (t : Tree) (p c : Quark) : Prop := ∃ n, t.node? c = some n ∧ n.parent = some p

/-- The path of `a` goes on from that of `q`, or is the same. -/
def Under (t : Tree) (q a : Quark) : Prop :=
  ∃ way more, t.path q = .ok way ∧ t.path a = .ok (way ++ more)

section
variable {t : Tree} {base q a c : Quark} {below : List Quark}

/-- A visit comes to all that is pending, and to the children of whatever it comes to. -/
theorem visiting_visit (h : t.Grown) :
    ∀ {fuel : Nat} {done pending : List Quark}, Visiting t base done pending →
    t.size ≤ done.length + fuel → Visiting t base (done ++ t.visit fuel pending) [] ∧
      pending ⊆ t.visit fuel pending ∧ ∀ p ∈ t.visit fuel pending,
      t.childrenOf p ⊆ t.visit fuel pending
  | fuel, done, [], hv, _ => by
    have hvisit : t.visit fuel [] = [] := by
      unfold visit
      cases fuel <;> rfl
    rw [hvisit]
    refine ⟨?_, List.nil_subset _, by simp⟩
    rwa [List.append_nil]
  | 0, done, q :: pending, hv, hfuel => by
    have hle := hv.length_le h
    simp only [List.length_append, List.length_cons] at hle
    omega
  | fuel + 1, done, q :: pending, hv, hfuel => by
    have hleft : t.size ≤ (done ++ [q]).length + fuel := by
      rw [List.length_append, List.length_singleton]
      omega
    obtain ⟨hdone, hpending, hchildren⟩ := visiting_visit h (hv.step h) hleft
    rw [List.append_assoc, List.singleton_append] at hdone
    simp only [visit]
    refine ⟨hdone, fun c hc => ?_, fun p hp c hc => ?_⟩
    · rcases List.mem_cons.1 hc with rfl | hc
      · exact List.mem_cons_self ..
      · exact List.mem_cons_of_mem _ (hpending (List.mem_append_right _ hc))
    · rcases List.mem_cons.1 hp with rfl | hp
      · exact List.mem_cons_of_mem _ (hpending (List.mem_append_left _ hc))
      · exact List.mem_cons_of_mem _ (hchildren p hp hc)

theorem below_ok_iff : t.below base true = .ok below ↔
    t.contains base = true ∧ below = t.visit t.size (t.childrenOf base) := by
  unfold Tree.below node childrenOf
  rw [contains_iff]
  cases t.node? base with
  | none => simp [bind, Except.bind]
  | some n => simp [bind, Except.bind, pure, Except.pure, eq_comm]

/-- What is found below an attribute is a visit that has come to its end, and holds the children of
all its attributes. -/
theorem visiting_below (h : t.Grown) (hb : t.below base true = .ok below) :
    Visiting t base below [] ∧ t.childrenOf base ⊆ below ∧ ∀ p ∈ below, t.childrenOf p ⊆ below := by
  obtain ⟨-, rfl⟩ := below_ok_iff.1 hb
  have hleft : t.size ≤ ([] : List Quark).length + t.size := by simp
  exact visiting_visit h (visiting_children h base) hleft

/-- No attribute is found twice. -/
theorem nodup_below (h : t.Grown) (hb : t.below base true = .ok below) : (base :: below).Nodup := by
  obtain ⟨hv, -⟩ := visiting_below h hb
  refine List.nodup_cons.2 ⟨fun hmem => ?_, by simpa using hv.nodup⟩
  exact Nat.lt_irrefl _ (hv.after base (by simpa using hmem))

/-- **All that lies below is found**, and nothing else. -/
theorem Named.mem_below_iff (hn : t.Named) (h : t.Grown) (hb : t.below base true = .ok below) :
    a ∈ base :: below ↔ ∃ path, t.descend base path = some a := by
  obtain ⟨hv, hchildren, hall⟩ := visiting_below h hb
  constructor
  · -- from the parent, which has a smaller quark
    intro ha
    induction hi : a.index using Nat.strongRecOn generalizing a with
    | ind i ih =>
      rcases List.mem_cons.1 ha with rfl | ha
      · exact ⟨[], rfl⟩
      · obtain ⟨p, hp, hp'⟩ := hv.parent a (by simpa using ha)
        have hmem : p ∈ base :: below := List.mem_cons.2 hp'
        obtain ⟨path, hpath⟩ := ih p.index (hi ▸ hn.lt_of_mem hp) hmem rfl
        obtain ⟨n, hnode, -⟩ := hn.mem_childrenOf.1 hp
        have hchild := hn.child?_of_mem hp (isNamed_iff.2 ⟨n, hnode, rfl⟩)
        exact ⟨path ++ [n.name], by rw [descend_concat, hpath, Option.bind_some, hchild]⟩
  · rintro ⟨path, hpath⟩
    induction path using List.reverseRecOn generalizing a with
    | nil =>
      obtain rfl := Option.some.inj hpath
      exact List.mem_cons_self ..
    | append_singleton path name ih =>
      rw [descend_concat] at hpath
      obtain ⟨p, hp, hc⟩ := Option.bind_eq_some_iff.1 hpath
      have hmem := (mem_of_child? hc).1
      rcases List.mem_cons.1 (ih hp) with rfl | hp
      · exact List.mem_cons_of_mem _ (hchildren hmem)
      · exact List.mem_cons_of_mem _ (hall p hp hmem)

theorem Named.under_iff (hn : t.Named) (hbase : t.contains base = true) :
    t.Under base a ↔ ∃ path, t.descend base path = some a := by
  constructor
  · rintro ⟨way, more, hway, ha⟩
    exact ⟨more, hn.descend_of_path hway ha⟩
  · rintro ⟨path, hpath⟩
    obtain ⟨way, hway⟩ := hn.exists_way hbase
    have hway := hn.path_of_descend hway
    exact ⟨way, path, hway, hn.path_descend hway hpath⟩

/-- The attributes below another are those whose paths go on from its own. -/
theorem Named.mem_below_iff_under (hn : t.Named) (h : t.Grown)
    (hb : t.below base true = .ok below) :
    a ∈ base :: below ↔ t.Under base a := by
  rw [hn.under_iff (below_ok_iff.1 hb).1, hn.mem_below_iff h hb]

end

end StateHistory.Tree
