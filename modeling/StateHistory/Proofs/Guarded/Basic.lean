import StateHistory.Failure
import StateHistory.Proofs.Bisection

/-!
# Guarded operations

The reading operations of a store never fail on an index that is not there or a number that is too
large: where they could, they are given a default. A guarded operation ends with a fault there
instead. It `Runs` if it comes to no fault; that it gives the same as the plain operation may depend
on a condition, such as which search it uses.
-/

namespace StateHistory

/-- What a guarded operation ends with instead of a result. -/
inductive Fault where
  /-- An index that is not there. -/
  | outOfRange
  /-- A number that 64 bits cannot hold. -/
  | overflow
  /-- A round of a loop that brings the loop no further. -/
  | stuck
  /-- More rounds of a loop than there can be. -/
  | endless
deriving DecidableEq, Repr

/-- An operation that can come to a fault. -/
abbrev Guarded := Except Fault

/-- An operation that can come to a fault, and can fail otherwise. -/
abbrev Checked := ExceptT Failure Guarded

/-- A search among positions, like that for the boundary of a predicate. -/
abbrev Search := (Nat → Bool) → Nat → Nat

/-- The position is a boundary of the predicate below `size`: the position before it, if any,
satisfies the predicate, and it does not itself, if it is one. -/
structure Boundary (p : Nat → Bool) (size i : Nat) : Prop where
  le : i ≤ size
  before : i = 0 ∨ p (i - 1) = true
  here : i = size ∨ p i = false

theorem boundary_partitionPoint (p : Nat → Bool) (size : Nat) :
    Boundary p size (partitionPoint p size) :=
  let ⟨hle, hbefore, hhere⟩ := partitionPoint_boundary p size
  ⟨hle, hbefore, hhere⟩

namespace Guarded

variable {α β : Type} {exact : Prop}

/-! ## Operations -/

/-- The element at an index. -/
def fetch (xs : Array α) (i : Nat) : Guarded α :=
  match xs[i]? with
  | some a => .ok a
  | none => .error .outOfRange

/-- The elements from one index up to another. -/
def slice (xs : Array α) (first last : Nat) : Guarded (List α) :=
  if first ≤ last ∧ last ≤ xs.size then .ok (xs.extract first last).toList else .error .outOfRange

/-- A time that was calculated. -/
def calculated (t : Int) : Guarded Time := if Time.InRange t then .ok t else .error .overflow

/-- An operation without anything that could come to a fault. -/
def plain (m : Except Failure α) : Checked α := ExceptT.mk (.ok m)

/-! ## Runs -/

/-- The operation comes to no fault; under the condition it gives `a`. -/
def Runs (exact : Prop) (x : Guarded α) (a : α) : Prop := ∃ b, x = .ok b ∧ (exact → b = a)

theorem runs_ok (a : α) : Runs exact (.ok a) a := ⟨a, rfl, fun _ => rfl⟩

theorem runs_of_eq {x : Guarded α} {a : α} (h : x = .ok a) : Runs exact x a := ⟨a, h, fun _ => rfl⟩

/-- An operation runs after another if it does with whatever that gives. -/
theorem Runs.bind {x : Guarded α} {a : α} {f : α → Guarded β} {g : α → β} (h : Runs exact x a)
    (hf : ∀ b, x = .ok b → Runs exact (f b) (g b)) : Runs exact (x >>= f) (g a) := by
  obtain ⟨b, hx, hb⟩ := h
  obtain ⟨c, hc, hexact⟩ := hf b hx
  refine ⟨c, ?_, fun he => (hexact he).trans (congrArg g (hb he))⟩
  rw [hx]
  exact hc

theorem Runs.mapM {f : α → Guarded β} {g : α → β} :
    ∀ {l : List α}, (∀ a ∈ l, Runs exact (f a) (g a)) →
    Runs exact (l.mapM f) (l.map g)
  | [], _ => runs_ok []
  | a :: l, h => by
    rw [List.mapM_cons]
    refine (h a (List.mem_cons_self ..)).bind (g := fun b => b :: l.map g) fun b _ => ?_
    refine (Runs.mapM fun a' ha' => h a' (List.mem_cons_of_mem _ ha')).bind (g := fun bs =>
      b :: bs) fun bs _ => ?_
    exact runs_ok _

/-- An operation that can fail too runs after another if it does with whatever that gives. -/
theorem Runs.andThen {x : Checked α} {m : Except Failure α} {f : α → Checked β}
    {g : α → Except Failure β} (h : Runs exact x.run m)
    (hf : ∀ a, x.run = .ok (.ok a) → Runs exact (f a).run (g a)) :
    Runs exact (x >>= f).run (m >>= g) := by
  refine Runs.bind (f := ExceptT.bindCont f) (g := fun r => r >>= g) h fun r hr => ?_
  cases r with
  | ok a => exact hf a hr
  | error e => exact runs_ok _

theorem runs_plain (m : Except Failure α) : Runs exact (plain m).run m := runs_ok m

theorem runs_pure (a : α) : Runs exact (pure a : Checked α).run (.ok a) := runs_ok _

/-- What runs without failing can be part of what can fail. -/
theorem Runs.lift {x : Guarded α} {a : α} (h : Runs exact x a) :
    Runs exact (liftM x : Checked α).run (.ok a) := by
  obtain ⟨b, rfl, hb⟩ := h
  exact ⟨.ok b, rfl, fun he => congrArg Except.ok (hb he)⟩

theorem Runs.forM {f : α → Checked Unit} {g : α → Except Failure Unit} : ∀ {l : List α},
    (∀ a ∈ l, Runs exact (f a).run (g a)) → Runs exact (l.forM f).run (l.forM g)
  | [], _ => runs_ok _
  | a :: _, h => (h a (List.mem_cons_self ..)).andThen fun _ _ => Runs.forM fun a' ha' =>
    h a' (List.mem_cons_of_mem _ ha')

theorem Runs.mapChecked {f : α → Checked β} {g : α → Except Failure β} : ∀ {l : List α},
    (∀ a ∈ l, Runs exact (f a).run (g a)) → Runs exact (l.mapM f).run (l.mapM g)
  | [], _ => runs_ok _
  | a :: l, h => by
    rw [List.mapM_cons, List.mapM_cons]
    refine (h a (List.mem_cons_self ..)).andThen fun b _ => ?_
    exact (Runs.mapChecked fun a' ha' => h a' (List.mem_cons_of_mem _ ha')).andThen fun bs _ =>
      runs_ok _

/-! ## Operations that run -/

theorem fetch_of_getElem? {xs : Array α} {i : Nat} {a : α} (h : xs[i]? = some a) :
    fetch xs i = .ok a := by
  simp only [fetch, h]

theorem fetch_of_lt {xs : Array α} {i : Nat} (h : i < xs.size) : fetch xs i = .ok xs[i] :=
  fetch_of_getElem? (Array.getElem?_eq_getElem h)

/-- From a place on there is the element there, and then those from the next place on. -/
theorem drop_eq_cons {xs : Array α} {i : Nat} (h : i < xs.size) :
    xs.toList.drop i = xs[i] :: xs.toList.drop (i + 1) := by
  rw [← Array.getElem_toList h]
  exact List.drop_eq_getElem_cons (by simpa using h)

theorem drop_eq_nil {xs : Array α} {i : Nat} (h : ¬ i < xs.size) : xs.toList.drop i = [] :=
  List.drop_eq_nil_of_le (by simpa using h)

theorem slice_of_le {xs : Array α} {first last : Nat} (h : first ≤ last) (h' : last ≤ xs.size) :
    slice xs first last = .ok (xs.extract first last).toList := if_pos ⟨h, h'⟩

theorem calculated_of_inRange {t : Int} (h : Time.InRange t) : calculated t = .ok t := if_pos h

end Guarded

end StateHistory
