import StateHistory.Proofs.Store.Attributes
import StateHistory.Proofs.Store.PointQuery
import StateHistory.Proofs.Store.Span

/-!
# Attributes used as stacks

An attribute that is only pushed and popped simulates a stack of values, at present and at every
time of the past: its own value is the depth of the stack, and each of the children up to it holds
the value at its height (`Stacked`). The stack is a list with its top first, so what lies below a
value, and how high the value lies, is said by the suffix that the value begins.
-/

namespace StateHistory

namespace Time

section
variable {α σ : Type} (time : α → Time) (act : σ → α → σ) (init : σ) {past : List α} {t : Time}

/-- There is a time that nothing of the past comes after. -/
theorem exists_late (past : List α) : ∃ t : Time, ∀ a ∈ past, time a ≤ t := by
  induction past with
  | nil => exact ⟨0, by simp⟩
  | cons a past ih =>
    obtain ⟨t, ht⟩ := ih
    refine ⟨max (time a) t, fun b hb => ?_⟩
    rcases List.mem_cons.1 hb with rfl | hb
    · exact Int.le_max_left _ _
    · exact Int.le_trans (ht b hb) (Int.le_max_right _ _)

/-- What one more act at the end does to what was reached by a time. -/
theorem foldl_by_append (past : List α) (a : α) (t : Time) :
    ((past ++ [a]).filter (time · ≤ t)).foldl act init =
      if time a ≤ t then act ((past.filter (time · ≤ t)).foldl act init) a
      else (past.filter (time · ≤ t)).foldl act init := by
  by_cases hle : time a ≤ t
  · simp [List.filter_append, hle]
  · simp [List.filter_append, hle]

theorem filter_by_of_late (h : ∀ a ∈ past, time a ≤ t) : past.filter (time · ≤ t) = past :=
  List.filter_eq_self.2 fun a ha => decide_eq_true (h a ha)

end

end Time

/-- A use of an attribute as a stack. -/
inductive Touch where
  | push (t : Time) (v : Value)
  | pop (t : Time)
deriving DecidableEq, Repr

namespace Touch

def time : Touch → Time
  | push t _ => t
  | pop t => t

/-- What a touch does to a stack. An empty stack stays empty when it is popped. -/
def act (stack : List Value) : Touch → List Value
  | push _ v => v :: stack
  | pop _ => stack.tail

/-- The stack after some touches, its top first. -/
def stackOf (past : List Touch) : List Value := past.foldl act []

/-- The stack after those of some touches that come by `t`. -/
def stackBy (past : List Touch) (t : Time) : List Value := stackOf (past.filter (·.time ≤ t))

section
variable {past : List Touch} {t : Time}

theorem stackOf_append (past : List Touch) (o : Touch) :
    stackOf (past ++ [o]) = o.act (stackOf past) := by
  simp [stackOf]

theorem stackBy_append (past : List Touch) (o : Touch) (t : Time) :
    stackBy (past ++ [o]) t = if o.time ≤ t then o.act (stackBy past t) else stackBy past t :=
  Time.foldl_by_append Touch.time act [] past o t

theorem stackBy_of_late (h : ∀ o ∈ past, o.time ≤ t) : stackBy past t = stackOf past := by
  rw [stackBy, Time.filter_by_of_late Touch.time h]

end

end Touch

/-! ## Depths as values -/

namespace Value

theorem fitsLong_iff {n : Int} :
    fitsLong n = true ↔ -9223372036854775808 ≤ n ∧ n ≤ 9223372036854775807 := by
  simp [fitsLong]

theorem fitsLong_of_le {n m : Int} (h : fitsLong m = true) (hn : 0 ≤ n) (hle : n ≤ m) :
    fitsLong n = true := by
  obtain ⟨-, hm⟩ := fitsLong_iff.1 h
  exact fitsLong_iff.2 ⟨by omega, by omega⟩

/-- A count is read back from either kind that it is kept in. -/
theorem asLong_ofCount {n : Int} (h : fitsLong n = true) : (ofCount n).asLong = some n := by
  obtain ⟨hlo, hhi⟩ := fitsLong_iff.1 h
  unfold ofCount
  by_cases hi : fitsInt n = true
  · obtain ⟨hlo', hhi'⟩ := of_decide_eq_true hi
    simp only [hi, ↓reduceIte, asLong]
    rw [Int32.toInt_ofInt_of_le (by omega) (by omega)]
  · simp only [hi, Bool.false_eq_true, ↓reduceIte, asLong]
    rw [Int64.toInt_ofInt_of_le (by omega) (by omega)]

theorem ofCount_ne_null (n : Int) : ofCount n ≠ .null := by
  unfold ofCount
  split <;> simp

end Value

namespace Timeline

section
variable {l : Timeline} {q : Quark} {t : Time}

/-- A timeline that goes on without a gap can be written from the start of its ongoing state on. -/
theorem Growing.onTime (h : l.Growing) (ho : ∀ o, l.ongoing = some o → o.start ≤ t) :
    l.tooEarly t = none := by
  refine tooEarly_eq_none_iff.2 fun f hf => ?_
  cases hl : l.ongoing with
  | some o =>
    rw [floor_of_ongoing hl, Option.some.injEq] at hf
    exact hf ▸ ho o hl
  | none =>
    simp [floor, hl, last?, h hl] at hf

/-- From the start of the ongoing state on the timeline holds the ongoing value. -/
theorem Seamless.valueAt_eq_value (h : l.Seamless q) (hg : l.Growing)
    (ho : ∀ o, l.ongoing = some o → o.start ≤ t) :
    l.valueAt t = l.value := by
  cases hl : l.ongoing with
  | some o =>
    rw [h.valueAt_of_ongoing hl (ho o hl)]
    simp [value, hl]
  | none =>
    rw [h.valueAt_of_none (by simp [hg hl]) (by simp [hl])]
    simp [value, hl]

end

end Timeline

namespace Store

open Edit Touch

/-! ## Slots -/

/-- Different heights have different slots. -/
theorem toString_inj {a b : Nat} (h : toString (a : Int) = toString (b : Int)) : a = b := by
  have hdigits : Nat.toDigits 10 a = Nat.toDigits 10 b := String.ofList_inj.1 h
  rw [← Nat.ofDigitChars_ten_toDigits (n := a), hdigits, Nat.ofDigitChars_ten_toDigits]

/-- The child that holds the value at a height. -/
def slotOf (tree : Tree) (q : Quark) (height : Nat) : Option Quark :=
  tree.child? q (toString (height : Int))

section
variable {tree : Tree} {q c c' : Quark} {a b : Nat}

theorem descend_slotName : tree.descend q (slotName a) = slotOf tree q a := by
  unfold slotName slotOf
  simp only [Tree.descend]
  cases tree.child? q (toString (a : Int)) <;> rfl

theorem find?_slotName (h : tree.contains q = true) :
    tree.find? q (slotName a) = slotOf tree q a := by
  rw [Tree.find?, if_pos h, descend_slotName]

theorem slotOf_inj (h : slotOf tree q a = some c) (h' : slotOf tree q b = some c) : a = b :=
  toString_inj (Tree.name_unique (Tree.mem_of_child? h).2 (Tree.mem_of_child? h').2)

theorem mem_of_slotOf (h : slotOf tree q a = some c) : c ∈ tree.childrenOf q :=
  (Tree.mem_of_child? h).1

end

section
variable {s : Store} {q : Quark} {l : Timeline} {α : Type} {zero a : α} {expected : String}
  {view : Value → Option α}

theorem base_of_null (hl : s.timeline q = .ok l) (hv : l.value = .null) :
    base zero expected view q s = .ok zero := by
  unfold base
  rw [hl]
  simp only [bind, Except.bind, hv]
  rfl

theorem base_of_view (hl : s.timeline q = .ok l) (hv : l.value ≠ .null)
    (ha : view l.value = some a) :
    base zero expected view q s = .ok a := by
  unfold base
  rw [hl]
  simp only [bind, Except.bind, ha]
  rfl

theorem base_of_mismatch (hl : s.timeline q = .ok l) (hv : l.value ≠ .null)
    (ha : view l.value = none) :
    base zero expected view q s = .error (.typeMismatch q expected l.value.kind) := by
  unfold base
  rw [hl]
  simp only [bind, Except.bind, ha]
  rfl

/-- A recorded depth is read back. -/
theorem depth_of_value {n : Int} (hl : s.timeline q = .ok l) (hv : l.value = depthValue n)
    (hn : Value.fitsLong n = true) : depth q s = .ok n := by
  unfold depthValue at hv
  by_cases h0 : n = 0
  · rw [if_pos h0] at hv
    rw [h0]
    exact base_of_null hl hv
  · rw [if_neg h0] at hv
    exact base_of_view hl (hv ▸ Value.ofCount_ne_null n) (hv ▸ Value.asLong_ofCount hn)

end

/-! ## What steps write -/

/-- The attribute that a step writes. -/
def Step.target? : Step → Option Quark
  | .write _ _ q | .amend _ q => some q
  | .add .. | .advance _ | .close _ => none

/-- The steps that a touch of `x` at `t` may take, where the attributes then are those of `tree`: it
adds slots, and it writes the attribute and its slots. -/
def Step.IsTouch (tree : Tree) (x : Quark) (t : Time) : Step → Prop
  | .add base path => base = x ∧ path.length = 1
  | .write t' _ q => t' = t ∧ (q = x ∨ q ∈ tree.childrenOf x)
  | .advance _ | .amend .. | .close _ => False

/-- The steps of a touch of `x` at `t` lead from one store to another. -/
def TouchedAt (s : Store) (x : Quark) (t : Time) (s' : Store) : Prop :=
  ∃ steps, Trail s steps s' ∧ ∀ a ∈ steps, a.IsTouch s'.tree x t

section
variable {s s' : Store} {x q : Quark} {t : Time} {steps : List Step}

/-- What no step writes stays as it is. -/
theorem Trail.timelineOf_eq (ht : Trail s steps s') (hs : s.Covered) (hc : s'.closed = false)
    (hq : ∀ a ∈ steps, a.target? ≠ some q) : s'.timelineOf q = s.timelineOf q := by
  induction ht with
  | nil => rfl
  | @cons s s₁ s' a steps head rest ih =>
    have ha := Step.takes_of_edit head
    have hhead := hq a (by simp)
    rw [ih (hs.takes ha) hc fun b hb => hq b (by simp [hb])]
    cases ha with
    | add _ => exact timelineOf_grown
    | advance _ => exact timelineOf_reach
    | write hw => rw [timelineOf_wrote hw.covered, if_neg fun he => hhead (by rw [he]; rfl)]
    | amend hr =>
      rw [timelineOf_amended (hs.contains_iff.1 hr), if_neg fun he => hhead (by rw [he]; rfl)]
    | close _ => rw [rest.closed rfl] at hc; cases hc

/-- The steps of a touch do not close the store. -/
theorem Step.IsTouch.closed_eq {tree : Tree} {a : Step} (h : a.IsTouch tree x t)
    (ha : a.Takes s s') :
    s'.closed = s.closed := by
  cases ha with
  | add _ => rfl
  | advance _ => exact h.elim
  | write _ => exact closed_wrote
  | amend _ => exact h.elim
  | close _ => exact h.elim

theorem Step.IsTouch.time?_eq {tree : Tree} {a : Step} {t' : Time} (h : a.IsTouch tree x t)
    (ht : a.time? = some t') :
    t' = t := by
  cases a with
  | write t₁ v q =>
    obtain rfl := Option.some.inj ht
    exact h.1
  | advance t₁ => exact h.elim
  | _ => cases ht

theorem TouchedAt.closed_eq (h : s.TouchedAt x t s') : s'.closed = s.closed := by
  obtain ⟨steps, ht, hsteps⟩ := h
  exact ht.induct_of (P := fun r => r.closed = s.closed) (Q := (·.IsTouch s'.tree x t))
    (fun ha hc htakes => (ha.closed_eq htakes).trans hc) hsteps rfl

/-- A touch takes recording no further than its own time. -/
theorem TouchedAt.upTo (h : s.TouchedAt x t s') (hc : s.closed = false) (hup : s.UpTo t) :
    s'.UpTo t := by
  obtain ⟨steps, ht, hsteps⟩ := h
  refine (ht.induct_of (P := fun r => r.closed = false ∧ r.UpTo t)
    (Q := (·.IsTouch s'.tree x t)) ?_ hsteps ⟨hc, hup⟩).2
  rintro s s' a ha ⟨hc, hup⟩ htakes
  have hc' := (ha.closed_eq htakes).trans hc
  exact ⟨hc', hup.takes htakes hc' fun t' ht' => Int.le_of_eq (ha.time?_eq ht')⟩

end

/-! ## The simulation -/

/-- The attribute `x` shows the stack that the touches so far have led to, at every time, and no
value of it begins after the last of them. -/
structure Stacked (s : Store) (x : Quark) (past : List Touch) : Prop where
  sound : s.Sound
  linked : s.tree.Linked
  contained : s.tree.contains x = true
  depth_eq : ∀ t, (s.timelineOf x).valueAt t = depthValue (stackBy past t).length
  fits : ∀ t, Value.fitsLong (stackBy past t).length = true
  slot : ∀ t v below, v :: below <:+ stackBy past t →
    ∃ c, slotOf s.tree x (below.length + 1) = some c ∧ (s.timelineOf c).valueAt t = v
  recent : ∀ q, q = x ∨ q ∈ s.tree.childrenOf x → ∀ o, (s.timelineOf q).ongoing = some o →
    ∃ p ∈ past, o.start ≤ p.time

section
variable {s s' : Store} {x q c : Quark} {past : List Touch} {o : Touch} {t : Time} {v u : Value}

theorem Covered.timelineOf_new (h : s.Covered) (hq : s.tree.size ≤ q.index) : s.timelineOf q = {} :=
  timelineOf_outside (Nat.le_trans (Nat.le_of_eq h) hq)

/-- An attribute without children and without records is an empty stack. -/
theorem stacked_nil (hs : s.Sound) (hl : s.tree.Linked) (hx : s.tree.contains x = true)
    (hchildren : s.tree.childrenOf x = []) (hempty : s.timelineOf x = {}) : s.Stacked x [] := by
  refine ⟨hs, hl, hx, fun t => ?_, fun t => rfl, fun t v below h => ?_, ?_⟩
  · rw [hempty, (Timeline.seamless_empty x).valueAt_of_none (by simp) (by simp)]
    rfl
  · exact absurd (List.suffix_nil.1 h) (by simp)
  · rintro q (rfl | hq) o ho
    · rw [hempty] at ho
      cases ho
    · rw [hchildren] at hq
      cases hq

/-- What writes neither the stack nor its slots keeps the simulation. -/
theorem Stacked.of_spared (h : s.Stacked x past) {steps : List Step} (ht : Trail s steps s')
    (hc : s'.closed = false)
    (hspares : ∀ a ∈ steps, ∀ q, a.target? = some q → q ≠ x ∧ q ∉ s'.tree.childrenOf x) :
    s'.Stacked x past := by
  have heq : ∀ q, q = x ∨ q ∈ s'.tree.childrenOf x → s'.timelineOf q = s.timelineOf q := by
    refine fun q hq => ht.timelineOf_eq h.sound.covered hc fun a ha htarget => ?_
    obtain ⟨hne, hnot⟩ := hspares a ha q htarget
    exact hq.elim hne hnot
  refine ⟨ht.induct Sound.takes h.sound, ht.linked h.linked, ht.contains h.linked h.contained,
    fun t => ?_, h.fits, fun t v below hv => ?_, ?_⟩
  · rw [heq x (Or.inl rfl)]
    exact h.depth_eq t
  · obtain ⟨c, hc, hval⟩ := h.slot t v below hv
    have hc' : slotOf s'.tree x (below.length + 1) = some c := ht.child? h.linked hc
    exact ⟨c, hc', by rw [heq c (Or.inr (mem_of_slotOf hc'))]; exact hval⟩
  · intro q hq o ho
    rw [heq q hq] at ho
    rcases hq with rfl | hq
    · exact h.recent q (Or.inl rfl) o ho
    · rcases ht.mem_childrenOf h.linked hq with hq | hnew
      · exact h.recent q (Or.inr hq) o ho
      · rw [h.sound.covered.timelineOf_new hnew] at ho
        cases ho

/-! ## Writing a slot and the depth -/

theorem Stacked.ready (h : s.Stacked x past) (hlate : ∀ p ∈ past, p.time ≤ t)
    (hq : q = x ∨ q ∈ s.tree.childrenOf x) :
    ∀ o, (s.timelineOf q).ongoing = some o → o.start ≤ t := by
  intro o ho
  obtain ⟨p, hp, hle⟩ := h.recent q hq o ho
  exact Int.le_trans hle (hlate p hp)

/-- The stack and its slots can be written from the last touch on. -/
theorem Stacked.writable (h : s.Stacked x past) (ho : s.Open t) (hlate : ∀ p ∈ past, p.time ≤ t)
    (hq : q = x ∨ q ∈ s.tree.childrenOf x) : s.Writable q t := by
  refine ⟨ho, h.sound.covered.contains_iff.1 ?_,
    (h.sound.growing ho.building q).onTime (h.ready hlate hq)⟩
  rcases hq with rfl | hq
  · exact h.contained
  · exact h.linked.contains_of_mem hq

/-- The ongoing value is the one that is held from the last touch on. -/
theorem Stacked.valueOf_eq (h : s.Stacked x past) (hc : s.closed = false)
    (hlate : ∀ p ∈ past, p.time ≤ t) (hq : q = x ∨ q ∈ s.tree.childrenOf x) :
    s.valueOf q = (s.timelineOf q).valueAt t :=
  ((h.sound.seamless q).valueAt_eq_value (h.sound.growing hc q) (h.ready hlate hq)).symm

theorem Stacked.depth (h : s.Stacked x past) (hc : s.closed = false) :
    depth x s = .ok (stackOf past).length := by
  obtain ⟨t, hlate⟩ := Time.exists_late Touch.time past
  have hvalue : (s.timelineOf x).value = depthValue (stackOf past).length := by
    rw [← stackBy_of_late hlate, ← h.depth_eq t]
    exact h.valueOf_eq hc hlate (Or.inl rfl)
  have hfits := h.fits t
  rw [stackBy_of_late hlate] at hfits
  exact depth_of_value (timeline_eq_ok_iff.2 ⟨h.sound.covered.contains_iff.1 h.contained, rfl⟩)
    hvalue hfits

/-- A write counts for its attribute, from its own time on. -/
theorem Writable.valueAt_wrote (hw : s.Writable q t) (hs : s.Sound) (v : Value) (p : Quark)
    (t' : Time) :
    ((s.wrote t v q).timelineOf p).valueAt t' = if p = q ∧
      t ≤ t' then v else (s.timelineOf p).valueAt t' := by
  rw [timelineOf_wrote hw.covered]
  by_cases hpq : p = q
  · subst hpq
    rw [if_pos rfl, (hs.seamless p).valueAt_opened (hs.growing hw.building p) v hw.onTime]
    simp
  · simp [hpq]

theorem Writable.ongoing_wrote (hw : s.Writable q t) (v : Value) (p : Quark) :
    ((s.wrote t v q).timelineOf p).ongoing =
      if p = q then some ⟨t, v⟩ else (s.timelineOf p).ongoing := by
  rw [timelineOf_wrote hw.covered]
  split
  · rfl
  · rfl

/-- The slot of `x` at a height, which is added where it is missing. -/
def slotFor (s : Store) (x : Quark) (height : Nat) : Quark := (s.tree.grow x (slotName height)).1

/-- The store after the slot at a height and then the depth were written. -/
def restacked (s : Store) (t : Time) (x : Quark) (height : Nat) (u : Value) (depth : Int) : Store :=
  ((s.grown x (slotName height)).wrote t u (s.slotFor x height)).wrote t (depthValue depth) x

theorem slotOf_slotFor (hl : s.tree.Linked) (hx : s.tree.contains x = true) (height : Nat) :
    slotOf (s.tree.grow x (slotName height)).2 x height = some (s.slotFor x height) := by
  rw [← descend_slotName]
  exact hl.descend_grow_self hx _

/-- A slot can be written if the children that there are can be. -/
theorem Covered.writable_slotFor (hs : s.Covered) (hl : s.tree.Linked)
    (hx : s.tree.contains x = true) (ho : s.Open t) (hw : ∀ c ∈ s.tree.childrenOf x, s.Writable c t)
    (height : Nat) :
    (s.grown x (slotName height)).Writable (s.slotFor x height) t := by
  rcases hs.slot_cases x height ho with hsame | hnew
  · have hslot := slotOf_slotFor hl hx height
    rw [← tree_grown, hsame] at hslot
    rw [hsame]
    exact hw _ (mem_of_slotOf hslot)
  · exact hnew

/-- Any slot can be written with its stack. -/
theorem Stacked.writable_slotFor (h : s.Stacked x past) (ho : s.Open t)
    (hlate : ∀ p ∈ past, p.time ≤ t) (height : Nat) :
    (s.grown x (slotName height)).Writable (s.slotFor x height) t :=
  h.sound.covered.writable_slotFor h.linked h.contained ho
    (fun _ hc => h.writable ho hlate (Or.inr hc)) height

theorem trail_restacked {height : Nat} (u : Value) (depth : Int) (hx : s.tree.contains x = true)
    (hw : s.Writable x t) (hslot : (s.grown x (slotName height)).Writable (s.slotFor x height) t) :
    Trail s [.add x (slotName height), .write t u (s.slotFor x height),
      .write t (depthValue depth) x] (s.restacked t x height u depth) :=
  .cons (Step.add_edit_ok_iff.2 ⟨hx, rfl⟩) (.cons (write_ok_iff.2 ⟨hslot, rfl⟩)
    (.single (write_ok_iff.2 ⟨hw.grown.wrote hslot.covered, rfl⟩)))

theorem touchedAt_restacked {height : Nat} {depth : Int} (hl : s.tree.Linked)
    (hx : s.tree.contains x = true) (hw : s.Writable x t)
    (hslot : (s.grown x (slotName height)).Writable (s.slotFor x height) t) :
    s.TouchedAt x t (s.restacked t x height u depth) := by
  refine ⟨_, trail_restacked u depth hx hw hslot, fun a ha => ?_⟩
  have hmem : s.slotFor x height ∈ (s.restacked t x height u depth).tree.childrenOf x := by
    simp only [Store.restacked, tree_wrote, tree_grown]
    exact mem_of_slotOf (slotOf_slotFor hl hx height)
  simp only [List.mem_cons, List.not_mem_nil, or_false] at ha
  rcases ha with rfl | rfl | rfl
  · exact ⟨rfl, rfl⟩
  · exact ⟨rfl, Or.inr hmem⟩
  · exact ⟨rfl, Or.inl rfl⟩

/-- **A touch keeps the simulation** when it writes the depth that the stack then has, and in one
slot the value that then lies there if any does. -/
theorem Stacked.restacked (h : s.Stacked x past) (ho : s.Open t) (hlate : ∀ p ∈ past, p.time ≤ t)
    (height : Nat)
    (htime : o.time = t) (hfits : Value.fitsLong (o.act (stackOf past)).length = true)
    (hslots : ∀ v below, v :: below <:+ o.act (stackOf past) →
      below.length + 1 = height ∧ v = u ∨ below.length + 1 ≠ height ∧ v :: below <:+ stackOf past) :
    (s.restacked t x height u (o.act (stackOf past)).length).Stacked x (past ++ [o]) := by
  have hw := h.writable ho hlate (Or.inl rfl)
  have hwslot := h.writable_slotFor ho hlate height
  have ht := trail_restacked u (o.act (stackOf past)).length h.contained hw hwslot
  have hs₁ : (s.grown x (slotName height)).Sound := h.sound.takes (.add h.contained)
  have hs₂ := hs₁.takes (.write (v := u) hwslot)
  have hw₂ := hw.grown.wrote (v := u) hwslot.covered
  have hslot : slotOf (s.restacked t x height u (o.act (stackOf past)).length).tree x height =
      some (s.slotFor x height) := by
    simp only [Store.restacked, tree_wrote, tree_grown]
    exact slotOf_slotFor h.linked h.contained height
  have hne : s.slotFor x height ≠ x := (ht.linked h.linked).ne_of_mem (mem_of_slotOf hslot)
  have hvalue : ∀ p t',
    ((s.restacked t x height u (o.act (stackOf past)).length).timelineOf p).valueAt t' =
      if p = x ∧ t ≤ t' then depthValue (o.act (stackOf past)).length
      else if p = s.slotFor x height ∧ t ≤ t' then u else (s.timelineOf p).valueAt t' := by
    intro p t'
    rw [Store.restacked, hw₂.valueAt_wrote hs₂, hwslot.valueAt_wrote hs₁, timelineOf_grown]
  have hby : ∀ t', t ≤ t' → stackBy past t' = stackOf past := fun t' hle =>
    stackBy_of_late fun p hp => Int.le_trans (hlate p hp) hle
  refine ⟨ht.induct Sound.takes h.sound, ht.linked h.linked, ht.contains h.linked h.contained,
    fun t' => ?_, fun t' => ?_, fun t' v below hv => ?_, ?_⟩
  · rw [hvalue, stackBy_append, htime]
    by_cases hle : t ≤ t'
    · simp [hle, hby t' hle]
    · simp [hle, h.depth_eq]
  · rw [stackBy_append, htime]
    split
    · rw [hby t' ‹_›]
      exact hfits
    · exact h.fits t'
  · rw [stackBy_append, htime] at hv
    by_cases hle : t ≤ t'
    · rw [if_pos hle, hby t' hle] at hv
      rcases hslots v below hv with ⟨rfl, rfl⟩ | ⟨hother, hv⟩
      · exact ⟨_, hslot, by rw [hvalue]; simp [hne, hle]⟩
      · -- the slots of other heights are other attributes
        rw [← hby t' hle] at hv
        obtain ⟨c, hc, hval⟩ := h.slot t' v below hv
        have hc' : slotOf (s.restacked t x height u (o.act (stackOf past)).length).tree x
            (below.length + 1) = some c :=
          ht.child? h.linked hc
        have hcne : c ≠ s.slotFor x height := fun he => hother (slotOf_inj hc' (he ▸ hslot))
        refine ⟨c, hc', ?_⟩
        rw [hvalue]
        simp [hcne, h.linked.ne_of_mem (mem_of_slotOf hc), hval]
    · rw [if_neg hle] at hv
      obtain ⟨c, hc, hval⟩ := h.slot t' v below hv
      refine ⟨c, ht.child? h.linked hc, ?_⟩
      rw [hvalue]
      simp [hle, hval]
  · intro q hq o' ho'
    rw [Store.restacked, hw₂.ongoing_wrote, hwslot.ongoing_wrote, timelineOf_grown] at ho'
    by_cases hqx : q = x
    · rw [if_pos hqx] at ho'
      obtain rfl := Option.some.inj ho'
      exact ⟨o, by simp, Int.le_of_eq htime.symm⟩
    rw [if_neg hqx] at ho'
    by_cases hqslot : q = s.slotFor x height
    · rw [if_pos hqslot] at ho'
      obtain rfl := Option.some.inj ho'
      exact ⟨o, by simp, Int.le_of_eq htime.symm⟩
    rw [if_neg hqslot] at ho'
    rcases ht.mem_childrenOf h.linked (hq.resolve_left hqx) with hq | hnew
    · obtain ⟨p, hp, hle⟩ := h.recent q (Or.inr hq) o' ho'
      exact ⟨p, List.mem_append_left _ hp, hle⟩
    · rw [h.sound.covered.timelineOf_new hnew] at ho'
      cases ho'

/-! ## Pushing and popping -/

/-- **A push succeeds.** -/
theorem Stacked.push (h : s.Stacked x past) (ho : s.Open t) (hlate : ∀ p ∈ past, p.time ≤ t)
    (v : Value) (hfits : Value.fitsLong ((stackOf past).length + 1) = true) :
    ∃ s', Store.push t v x s = .ok () s' ∧ s'.Stacked x (past ++ [.push t v]) ∧
      s.TouchedAt x t s' := by
  have hd := h.depth ho.building
  have hw := h.writable ho hlate (Or.inl rfl)
  have hwslot := h.writable_slotFor ho hlate ((stackOf past).length + 1)
  have hne : ((stackOf past).length : Int) + 1 ≠ 0 := by omega
  refine ⟨s.restacked t x ((stackOf past).length + 1) v ((stackOf past).length + 1), ?_, ?_,
    touchedAt_restacked h.linked h.contained hw hwslot⟩
  · simp only [Store.push, bind_ok, ask_ok, add_ok_iff, checkWritable_ok_iff, write_ok_iff]
    refine ⟨_, s, ⟨hd, rfl⟩, (), s, ⟨hw, rfl⟩, _, _, ⟨h.contained, rfl, rfl⟩, (), _,
      ⟨hwslot, rfl⟩, (), _, write_ok_iff.2 ⟨hwslot, rfl⟩, hw.grown.wrote hwslot.covered, ?_⟩
    simp only [Store.restacked, depthValue, hne, ↓reduceIte]
    rfl
  · refine h.restacked (o := .push t v) ho hlate _ rfl hfits fun w below hw => ?_
    rcases List.suffix_cons_iff.1 hw with heq | hw
    · obtain ⟨rfl, rfl⟩ := List.cons.inj heq
      exact Or.inl ⟨rfl, rfl⟩
    · have := hw.length_le
      simp only [List.length_cons] at this
      exact Or.inr ⟨by omega, hw⟩

/-- **A pop of an empty stack fails** and changes nothing. -/
theorem Stacked.pop_nil (h : s.Stacked x past) (hc : s.closed = false)
    (hlate : ∀ p ∈ past, p.time ≤ t) (hnil : stackOf past = []) :
    Store.pop t x s = .error (.stackUnderflow x t) s ∧ s.Stacked x (past ++ [.pop t]) := by
  have hd := h.depth hc
  rw [hnil] at hd
  have hby : ∀ t', stackBy (past ++ [.pop t]) t' = stackBy past t' := by
    intro t'
    rw [stackBy_append]
    split
    · rw [stackBy_of_late fun p hp => Int.le_trans (hlate p hp) ‹_›, hnil]
      rfl
    · rfl
  constructor
  · simp only [Store.pop, bind_error, ask_error, ask_ok]
    refine Or.inr ⟨_, s, ⟨hd, rfl⟩, ?_⟩
    simp only [List.length_nil, Int.natCast_zero, Int.le_refl, ↓reduceIte, bind_error]
    exact Or.inl rfl
  · refine ⟨h.sound, h.linked, h.contained, fun t' => ?_, fun t' => ?_, fun t' v below hv => ?_,
      fun q hq o ho => ?_⟩
    · rw [hby]
      exact h.depth_eq t'
    · rw [hby]
      exact h.fits t'
    · rw [hby] at hv
      exact h.slot t' v below hv
    · obtain ⟨p, hp, hle⟩ := h.recent q hq o ho
      exact ⟨p, List.mem_append_left _ hp, hle⟩

/-- A slot that is there need not be added. -/
theorem grown_of_slotOf (hs : s.Covered) {height : Nat} (hc : slotOf s.tree x height = some c) :
    s.slotFor x height = c ∧ s.grown x (slotName height) = s := by
  have hsame : s.tree.grow x (slotName height) = (c, s.tree) := by
    have hc' : s.tree.child? x (toString (height : Int)) = some c := hc
    simp only [slotName, Tree.grow, hc']
  exact ⟨by rw [slotFor, hsame], hs.grown_of_eq hsame⟩

/-- A pop that finds its slot empties it and counts down. -/
theorem pop_of_slotOf {depth : Nat} (hs : s.Covered)
    (hd : Store.depth x s = .ok ((depth + 1 : Nat) : Int)) (hx : s.tree.contains x = true)
    (hc : slotOf s.tree x (depth + 1) = some c) (hw : s.Writable x t) (hwc : s.Writable c t) :
    Store.pop t x s = .ok (s.valueOf c) (s.restacked t x (depth + 1) .null depth) := by
  obtain ⟨hslot, hgrown⟩ := grown_of_slotOf hs hc
  have hchild : topChild x (depth + 1 : Nat) s = .ok c := by
    unfold topChild
    rw [find?_slotName hx, hc]
  have hpos : ¬ ((depth + 1 : Nat) : Int) ≤ 0 := by omega
  have hless : ((depth + 1 : Nat) : Int) - 1 = depth := by omega
  simp only [Store.pop, bind_ok, ask_ok]
  refine ⟨_, s, ⟨hd, rfl⟩, ?_⟩
  simp only [hpos, ↓reduceIte, bind_ok, ask_ok, checkWritable_ok_iff, get_ok, pure_ok]
  refine ⟨c, s, ⟨hchild, rfl⟩, (), s, ⟨hw, rfl⟩, (), s, ⟨hwc, rfl⟩, s, s, ⟨rfl, rfl⟩, (), _,
    write_ok_iff.2 ⟨hwc, rfl⟩, (), _, write_ok_iff.2 ⟨hw.wrote hwc.covered, rfl⟩, rfl, ?_⟩
  rw [Store.restacked, hgrown, hslot, hless]

/-- **A pop of a stack with values succeeds**, with the top value. -/
theorem Stacked.pop_cons (h : s.Stacked x past) (ho : s.Open t) (hlate : ∀ p ∈ past, p.time ≤ t)
    {below : List Value} (hcons : stackOf past = v :: below) :
    ∃ s', Store.pop t x s = .ok v s' ∧ s'.Stacked x (past ++ [.pop t]) ∧ s.TouchedAt x t s' := by
  have hby := stackBy_of_late hlate
  rw [hcons] at hby
  have hact : act (stackOf past) (.pop t) = below := by rw [hcons]; rfl
  obtain ⟨c, hc, hval⟩ := h.slot t v below (hby.symm ▸ List.suffix_refl _)
  have hslot := Or.inr (a := c = x) (mem_of_slotOf hc)
  have hd := h.depth ho.building
  rw [hcons, List.length_cons] at hd
  have hw := h.writable ho hlate (Or.inl rfl)
  have hpop := pop_of_slotOf h.sound.covered hd h.contained hc hw (h.writable ho hlate hslot)
  rw [h.valueOf_eq ho.building hlate hslot, hval] at hpop
  refine ⟨_, hpop, ?_, touchedAt_restacked h.linked h.contained hw (h.writable_slotFor ho hlate _)⟩
  have hfits := h.fits t
  rw [hby, List.length_cons] at hfits
  have hkept := h.restacked (o := .pop t) (u := .null) ho hlate (below.length + 1) rfl ?_ ?_
  · rwa [hact] at hkept
  · rw [hact]
    exact Value.fitsLong_of_le hfits (by omega) (by omega)
  · intro w rest hw
    rw [hact] at hw
    have := hw.length_le
    rw [List.length_cons] at this
    exact Or.inr ⟨by omega, hcons ▸ hw.trans (List.suffix_cons v below)⟩

/-- A pop comes to the same for the stack whether it finds a value or fails. -/
theorem Stacked.popped (h : s.Stacked x past) (ho : s.Open t) (hlate : ∀ p ∈ past, p.time ≤ t) :
    ∃ s', ((∃ v, Store.pop t x s = .ok v s') ∨ Store.pop t x s = .error (.stackUnderflow x t) s') ∧
      s'.Stacked x (past ++ [.pop t]) ∧ s.TouchedAt x t s' := by
  cases hstack : stackOf past with
  | nil =>
    obtain ⟨hpop, hs⟩ := h.pop_nil (t := t) ho.building hlate hstack
    exact ⟨s, Or.inr hpop, hs, [], .nil, by simp⟩
  | cons v below =>
    obtain ⟨s', hpop, hs, ht⟩ := h.pop_cons (t := t) ho hlate hstack
    exact ⟨s', Or.inl ⟨v, hpop⟩, hs, ht⟩

/-- A pushed attribute cannot be written at an earlier time. -/
theorem not_writable_of_push (h : push t v x s = .ok () s') {t' : Time} (hlt : t' < t) :
    ¬ s'.Writable x t' := by
  intro hw
  simp only [push, bind_ok, ask_ok, add_ok_iff] at h
  obtain ⟨d, _, -, _, _, -, _, _, -, _, _, -, _, _, -, hdepth⟩ := h
  obtain ⟨hx, rfl⟩ := write_ok_iff.1 hdepth
  have hongoing := hx.ongoing_wrote (.ofCount (d + 1)) x
  rw [if_pos rfl] at hongoing
  have hle := Timeline.tooEarly_eq_none_iff.1 hw.onTime _ (Timeline.floor_of_ongoing hongoing)
  exact Int.not_le.2 hlt hle

/-- A pop of a stack with values is refused where the stack cannot be written. -/
theorem Stacked.pop_refused (h : s.Stacked x past) (hc : s.closed = false)
    (hcons : stackOf past = v :: below) (hn : ¬ s.Writable x t) :
    ∃ last, t < last ∧ Store.pop t x s = .error (.orderingViolation (some x) t last) s := by
  have hd := h.depth hc
  obtain ⟨late, hlate⟩ := Time.exists_late Touch.time past
  have hby : stackBy past late = v :: below := (stackBy_of_late hlate).trans hcons
  obtain ⟨c, hslot, -⟩ := h.slot late v below (hby ▸ List.suffix_refl _)
  have hchild : topChild x (stackOf past).length s = .ok c := by
    unfold topChild
    rw [find?_slotName h.contained, hcons, List.length_cons, hslot]
  have hpos : ¬ ((stackOf past).length : Int) ≤ 0 := by rw [hcons, List.length_cons]; omega
  obtain ⟨last, hlt, hcheck⟩ :=
    checkWritable_error hc (h.sound.covered.contains_iff.1 h.contained) hn
  refine ⟨last, hlt, ?_⟩
  simp only [Store.pop, bind_error, ask_error, ask_ok]
  refine Or.inr ⟨_, s, ⟨hd, rfl⟩, ?_⟩
  simp only [hpos, ↓reduceIte, bind_error, ask_error, ask_ok]
  exact Or.inr ⟨c, s, ⟨hchild, rfl⟩, Or.inl ⟨hcheck, rfl⟩⟩

/-- A touch of another stack that lies apart keeps the simulation. -/
theorem Stacked.of_touchedAt {y : Quark} (h : s.Stacked y past) (ht : s.TouchedAt x t s')
    (hc : s.closed = false) (hne : x ≠ y) (hx : x ∉ s'.tree.childrenOf y)
    (hslots : ∀ c ∈ s'.tree.childrenOf x, c ≠ y ∧ c ∉ s'.tree.childrenOf y) :
    s'.Stacked y past := by
  have hc' : s'.closed = false := ht.closed_eq.trans hc
  obtain ⟨steps, ht, hsteps⟩ := ht
  refine h.of_spared ht hc' fun a ha q hq => ?_
  have htouch := hsteps a ha
  cases a with
  | write t' v r =>
    obtain rfl := Option.some.inj hq
    rcases htouch.2 with rfl | hr
    · exact ⟨hne, hx⟩
    · exact hslots r hr
  | amend v r => exact htouch.elim
  | _ => cases hq

/-! ## Looking at the top -/

theorem asLong_depthValue {n : Int} (h : Value.fitsLong n = true) :
    (depthValue n).asLong.getD 0 = n := by
  unfold depthValue
  by_cases h0 : n = 0
  · rw [if_pos h0, h0]
    rfl
  · rw [if_neg h0, Value.asLong_ofCount h]
    rfl

/-- Where depth and slots show a stack, a query finds its top. -/
theorem top_of_shown {stack : List Value} (hx : s.tree.contains x = true) (hr : s.InReach t)
    (hdepth : (s.timelineOf x).valueAt t = depthValue stack.length)
    (hfits : Value.fitsLong stack.length = true)
    (hslot : ∀ v below, stack = v :: below →
      ∃ c, slotOf s.tree x (below.length + 1) = some c ∧ (s.timelineOf c).valueAt t = v) :
    ∃ found, top t x s = .ok found ∧ found.map (·.value) = stack.head? := by
  have hasked : (s.intervalAt x t).value.asLong.getD 0 = stack.length := by
    rw [intervalAt_value, hdepth, asLong_depthValue hfits]
  have hsingle : single t x s = .ok (s.intervalAt x t) := single_ok_iff.2 ⟨hx, hr, rfl⟩
  unfold top
  rw [hsingle]
  simp only [bind, Except.bind, hasked]
  cases stack with
  | nil => exact ⟨none, rfl, rfl⟩
  | cons v below =>
    obtain ⟨c, hc, hval⟩ := hslot v below rfl
    have hpos : ¬ ((v :: below).length : Int) ≤ 0 := by rw [List.length_cons]; omega
    rw [if_neg hpos, find?_slotName hx, List.length_cons, hc]
    refine ⟨some (s.intervalAt c t), rfl, ?_⟩
    simp [intervalAt_value, hval]

/-- **A query for the top finds the top of the stack at its time.** -/
theorem Stacked.top (h : s.Stacked x past) (hr : s.InReach t) :
    ∃ found, Store.top t x s = .ok found ∧ found.map (·.value) = (stackBy past t).head? :=
  top_of_shown h.contained hr (h.depth_eq t) (h.fits t) fun v below hv =>
    h.slot t v below (hv ▸ List.suffix_refl _)

/-- Closing changes nothing about the stack at the times before. -/
theorem Stacked.top_ended (h : s.Stacked x past) {stop : Time} (hlt : t < stop)
    (hr : (s.ended stop).InReach t) :
    ∃ found, Store.top t x (s.ended stop) = .ok found ∧
      found.map (·.value) = (stackBy past t).head? := by
  have hvalue : ∀ q, ((s.ended stop).timelineOf q).valueAt t = (s.timelineOf q).valueAt t := by
    intro q
    rw [timelineOf_ended, (h.sound.seamless q).valueAt_close hlt]
  refine top_of_shown h.contained hr (by rw [hvalue]; exact h.depth_eq t)
    (h.fits t) fun v below hv => ?_
  obtain ⟨c, hc, hval⟩ := h.slot t v below (hv ▸ List.suffix_refl _)
  exact ⟨c, hc, by rw [hvalue]; exact hval⟩

end

end Store

end StateHistory
