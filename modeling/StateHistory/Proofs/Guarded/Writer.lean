import StateHistory.Proofs.Guarded.Store
import StateHistory.Proofs.Store.Parts

/-!
# Guarded calls of a writer

With guarded parts a call can come to a fault. If parts do what the plain ones do wherever they are
used (`Faithful`), so do the calls that are composed of them (`Faithful.agrees_edit`).

Here the timelines are guarded. Most calls of a writer refuse an attribute that has no timeline.
Amending, clearing and the queue ask the tree instead, and then look among the timelines for what
the tree has. So a guarded call does what the plain one does, as long as every attribute has a
timeline or the call does not come to look for one (`agrees_call`).
-/

namespace StateHistory

/-- The call asks the tree for an attribute, is given one, and goes on to look for its timeline. -/
def Store.Call.Looks (s : Store) : Call → Prop
  | .step (.amend _ q) | .clear _ q => s.tree.contains q = true
  | .offer _ _ q | .poll _ q => (s.tree.find? q (Store.slotName 1)).isSome = true
  | _ => False

/-- The call comes to look for a timeline that is not there. -/
def Store.Call.Misses (c : Call) (s : Store) : Prop := ¬ s.Covered ∧ c.Looks s

/-- The time of the call, if it has one, is of a kind. -/
def Store.Call.AtTime (Ok : Time → Prop) : Call → Prop
  | .step (.add ..) | .step (.amend ..) => True
  | .step (.advance t) | .step (.write t ..) | .step (.close t) => Ok t
  | .push t .. | .pop t _ | .addLong t .. | .addInt t .. | .addDouble t ..
  | .clear t _ | .offer t .. | .poll t _ => Ok t

namespace Guarded

open Store (Call Parts)
open Store.Edit (ask)

/-! ## Edits -/

/-- A change to a store that can come to a fault. If it does not, it leaves a store behind, whether
it fails or not. -/
abbrev Edit := ExceptT Failure (StateT Store Guarded)

/-- What an edit gives, and the store that it leaves behind. -/
def outcome {α : Type} : EStateM.Result Failure Store α → Except Failure α × Store
  | .ok a s => (.ok a, s)
  | .error e s => (.error e, s)

/-- An edit without anything that could come to a fault. -/
def lift {α : Type} (op : Store.Edit α) : Edit α := ExceptT.mk fun s => .ok (outcome (op s))

/-- What is looked up in the store without changing it. -/
def inspect {α : Type} (f : Store → Guarded α) : Edit α :=
  ExceptT.mk fun s => do return (.ok (← f s), s)

section
variable {α β : Type} {s s' : Store} {q : Quark} {t : Time} {v : Value} {Inv : Store → Prop}
  {Ok : Time → Prop} {p : Parts Edit}

/-- The guarded edit comes to no fault at `s`, and does what the plain one does. -/
def Agrees (x : Edit α) (op : Store.Edit α) (s : Store) : Prop := x.run.run s = .ok (outcome (op s))

theorem agrees_pure (a : α) (s : Store) : Agrees (pure a) (pure a) s := rfl

theorem agrees_lift (op : Store.Edit α) (s : Store) : Agrees (lift op) op s := rfl

/-- Edits agree one after the other if the second agrees with whatever the first has left. -/
theorem Agrees.bind {x : Edit α} {op : Store.Edit α} {f : α → Edit β} {g : α → Store.Edit β}
    (h : Agrees x op s) (hf : ∀ a s', op s = .ok a s' → Agrees (f a) (g a) s') :
    Agrees (x >>= f) (op >>= g) s := by
  unfold Agrees at *
  change (x.run.run s >>= fun r => (ExceptT.bindCont f r.1).run r.2) =
    .ok (outcome (EStateM.bind op g s))
  rw [h]
  unfold EStateM.bind
  cases hop : op s with
  | ok a s' => exact hf a s' hop
  | error e s' => rfl

/-- What was looked up can be used. -/
theorem Agrees.inspect {f : Store → Guarded α} {k : α → Edit β} {op : Store.Edit β} {a : α}
    (h : f s = .ok a) (hk : Agrees (k a) op s) : Agrees (Guarded.inspect f >>= k) op s := by
  unfold Agrees at *
  change ((f s >>= fun a => Except.ok (Except.ok a, s)) >>= fun r =>
    (ExceptT.bindCont k r.1).run r.2) = _
  rw [h]
  exact hk

/-! ## Parts that do what the plain ones do -/

/-- The guarded edit agrees with the plain one, which keeps the invariant. -/
def Follows (Inv : Store → Prop) (x : Edit α) (op : Store.Edit α) (s : Store) : Prop :=
  Agrees x op s ∧ Inv (op.after s)

/-- Guarded parts do what the plain ones do, at stores with an invariant and at times of a kind. A
timeline is only looked up where there is one. -/
structure Faithful (Inv : Store → Prop) (Ok : Time → Prop) (p : Parts Edit) : Prop where
  ask : ∀ {α : Type} (f : Store → Except Failure α) (s : Store),
    Agrees (p.ask f) (Store.Edit.ask f) s
  timeline : ∀ {s : Store} {q : Quark}, q.index < s.timelines.size →
    Agrees (p.timeline q) (Store.Edit.ask fun s => .ok (s.timelineOf q)) s
  add : ∀ {s : Store} (base : Quark) (path : List String), Inv s →
    Follows Inv (p.add base path) (Store.add base path) s
  advance : ∀ {s : Store} {t : Time}, Ok t → Inv s → Follows Inv (p.advance t) (Store.advance t) s
  check : ∀ {s : Store} (q : Quark) (t : Time), Inv s →
    Agrees (p.check q t) (Store.Edit.ask (·.checkWritable q t)) s
  write : ∀ {s : Store} {t : Time} (v : Value) (q : Quark), Ok t → Inv s →
    Follows Inv (p.write t v q) (Store.write t v q) s
  amend : ∀ {s : Store} (v : Value) {q : Quark},
    (s.tree.contains q = true → q.index < s.timelines.size) → Inv s →
    Agrees (p.amend v q) (Store.amend v q) s
  close : ∀ {s : Store} {t : Time}, Ok t → Inv s → Agrees (p.close t) (Store.close t) s

theorem Follows.bind {x : Edit α} {op : Store.Edit α} {f : α → Edit β} {g : α → Store.Edit β}
    (h : Follows Inv x op s) (hf : ∀ a s', op s = .ok a s' → Inv s' → Follows Inv (f a) (g a) s') :
    Follows Inv (x >>= f) (op >>= g) s := by
  obtain ⟨hagrees, hafter⟩ := h
  unfold Store.Edit.after at hafter
  refine ⟨hagrees.bind fun a s' hok => (hf a s' hok ?_).1, ?_⟩
  · rwa [hok] at hafter
  · rw [Store.Edit.after_bind]
    cases hop : op s with
    | ok a s' =>
      rw [hop] at hafter
      exact (hf a s' hop hafter).2
    | error e s' => rwa [hop] at hafter

theorem follows_pure (a : α) (hs : Inv s) : Follows Inv (pure a) (pure a) s := ⟨rfl, hs⟩

/-- What only reads leaves the store as it is. -/
theorem Agrees.follows {x : Edit α} {f : Store → Except Failure α} (h : Agrees x (ask f) s)
    (hs : Inv s) :
    Follows Inv x (ask f) s := ⟨h, (Store.Edit.after_ask f s).symm ▸ hs⟩

theorem Follows.forM {f : α → Edit Unit} {g : α → Store.Edit Unit}
    (h : ∀ a s, Inv s → Follows Inv (f a) (g a) s) :
    ∀ (l : List α) (s : Store), Inv s → Follows Inv (l.forM f) (l.forM g) s
  | [], _, hs => follows_pure () hs
  | a :: l, s, hs => (h a s hs).bind fun _ s' _ hs' => Follows.forM h l s' hs'

namespace Faithful

/-- Asking, and going on with the answer. -/
theorem asks (h : Faithful Inv Ok p) (hs : Inv s) {f : Store → Except Failure α} {k : α → Edit β}
    {g : α → Store.Edit β} (hk : ∀ a, f s = .ok a → Follows Inv (k a) (g a) s) :
    Follows Inv (p.ask f >>= k) (Store.Edit.ask f >>= g) s := by
  refine ((h.ask f s).follows hs).bind fun a s' hok _ => ?_
  obtain ⟨hf, rfl⟩ := Store.Edit.ask_ok.1 hok
  exact hk a hf

theorem checks (h : Faithful Inv Ok p) (hs : Inv s) {k : Unit → Edit β} {g : Unit → Store.Edit β}
    (hk : s.Writable q t → Follows Inv (k ()) (g ()) s) :
    Follows Inv (p.check q t >>= k) (Parts.plain.check q t >>= g) s := by
  refine ((h.check q t hs).follows hs).bind fun _ s' hok _ => ?_
  obtain ⟨hcheck, rfl⟩ := Store.Edit.ask_ok.1 hok
  exact hk (Store.checkWritable_ok_iff.1 hcheck)

theorem checksAll (h : Faithful Inv Ok p) (hs : Inv s) {qs : List Quark} {k : Unit → Edit β}
    {g : Unit → Store.Edit β} (hk : (∀ q ∈ qs, s.Writable q t) → Follows Inv (k ()) (g ()) s) :
    Follows Inv (qs.forM (fun q => p.check q t) >>= k)
      (qs.forM (fun q => Parts.plain.check q t) >>= g) s := by
  have hall := Follows.forM (fun q s hs => (h.check q t hs).follows hs) qs s hs
  refine hall.bind fun _ s' hok _ => ?_
  obtain ⟨rfl, hchecks⟩ := (Store.forM_ask_ok_iff (f := fun q s => s.checkWritable q t)).1 hok
  exact hk fun q hq => Store.checkWritable_ok_iff.1 (hchecks q hq)

theorem fails (h : Faithful Inv Ok p) (hs : Inv s) (e : Failure) :
    Follows Inv (p.fail e : Edit α) (Parts.plain.fail e) s := (h.ask _ s).follows hs

/-! ## Looking at timelines -/

/-- Looking at a value, and going on with it. -/
theorem reads (h : Faithful Inv Ok p) (hs : Inv s) (hq : q.index < s.timelines.size)
    {k : Value → Edit β} {g : Value → Store.Edit β}
    (hk : Follows Inv (k (s.valueOf q)) (g (s.valueOf q)) s) :
    Follows Inv (p.value q >>= k) (Parts.plain.value q >>= g) s := by
  have hvalue : Follows Inv (p.value q) (Parts.plain.value q) s := by
    unfold Parts.value
    exact ((h.timeline hq).follows hs).bind fun l s' _ hs' => follows_pure l.value hs'
  refine hvalue.bind fun a s' hok _ => ?_
  obtain ⟨rfl, rfl⟩ := EStateM.Result.ok.inj (hok.symm.trans (Parts.plain_value s q))
  exact hk

theorem occupied (h : Faithful Inv Ok p) (hs : Inv s) : ∀ {qs : List Quark},
    (∀ q ∈ qs, q.index < s.timelines.size) → Follows Inv (p.occupied qs) (Parts.plain.occupied qs) s
  | [], _ => follows_pure [] hs
  | q :: qs, hqs => by
    refine h.reads hs (hqs q (List.mem_cons_self ..)) ?_
    exact (h.occupied hs fun a ha => hqs a (List.mem_cons_of_mem _ ha)).bind fun _ _ _ hs' =>
      follows_pure _ hs'

/-- The queue looks at attributes of the tree. -/
theorem slotsFrom (h : Faithful Inv Ok p) (hs : Inv s)
    (hslots : ∀ place slot, s.tree.find? q (Store.slotName place) = some slot →
      slot.index < s.timelines.size) :
    ∀ fuel place : Nat, Follows Inv (p.slotsFrom q fuel place)
      (Parts.plain.slotsFrom q fuel place) s
  | 0, _ => follows_pure [] hs
  | fuel + 1, place => by
    refine h.asks hs fun found hfound => ?_
    obtain rfl := Except.ok.inj hfound
    cases hfind : s.tree.find? q (Store.slotName place) with
    | none => exact follows_pure [] hs
    | some slot =>
      refine h.reads hs (hslots place slot hfind) ?_
      split
      · exact follows_pure [] hs
      · exact (h.slotsFrom hs hslots fuel (place + 1)).bind fun _ _ _ hs' => follows_pure _ hs'

/-- It begins with the first slot, and goes no further if there is none. -/
theorem slots (h : Faithful Inv Ok p) (hs : Inv s) (hl : s.tree.Linked)
    (hcovered : (s.tree.find? q (Store.slotName 1)).isSome = true → s.Covered) :
    Follows Inv (p.slots q) (Parts.plain.slots q) s := by
  refine h.asks hs fun size hsize => ?_
  obtain rfl := Except.ok.inj hsize
  cases hfind : s.tree.find? q (Store.slotName 1) with
  | none =>
    cases s.tree.size with
    | zero => exact follows_pure [] hs
    | succ n =>
      refine h.asks hs fun found hfound => ?_
      obtain rfl : s.tree.find? q (Store.slotName 1) = found := Except.ok.inj hfound
      rw [hfind]
      exact follows_pure [] hs
  | some slot =>
    have hall := hcovered (by rw [hfind]; rfl)
    exact h.slotsFrom hs (fun place slot hslot => hall.contains_iff.1
      (contains_of_find? hl hslot)) _ _

/-- Finding the slots, and going on with them. -/
theorem findsSlots (h : Faithful Inv Ok p) (hs : Inv s) (hl : s.tree.Linked)
    (hcovered : (s.tree.find? q (Store.slotName 1)).isSome = true → s.Covered)
    {k : List Quark → Edit β} {g : List Quark → Store.Edit β}
    (hk : Follows Inv (k (s.slots q)) (g (s.slots q)) s) :
    Follows Inv (p.slots q >>= k) (Parts.plain.slots q >>= g) s := by
  refine (h.slots hs hl hcovered).bind fun a s' hok _ => ?_
  obtain ⟨rfl, rfl⟩ := EStateM.Result.ok.inj (hok.symm.trans (Parts.plain_slots s q))
  exact hk

theorem values (h : Faithful Inv Ok p) (hs : Inv s) : ∀ {qs : List Quark},
    (∀ q ∈ qs, q.index < s.timelines.size) →
    Follows Inv (qs.mapM p.value) (qs.mapM Parts.plain.value) s
  | [], _ => follows_pure [] hs
  | q :: qs, hqs => by
    rw [List.mapM_cons, List.mapM_cons]
    refine h.reads hs (hqs q (List.mem_cons_self ..)) ?_
    exact (h.values hs fun a ha => hqs a (List.mem_cons_of_mem _ ha)).bind fun _ _ _ hs' =>
      follows_pure _ hs'

/-! ## Composed calls -/

theorem addLong (h : Faithful Inv Ok p) (ht : Ok t) (hs : Inv s) (q : Quark) (delta : Int64) :
    Follows Inv (p.addLong t q delta) (Parts.plain.addLong t q delta) s := by
  refine h.asks hs fun n _ => ?_
  simp only
  split
  · exact h.write _ q ht hs
  · exact h.fails hs _

theorem addInt (h : Faithful Inv Ok p) (ht : Ok t) (hs : Inv s) (q : Quark) (delta : Int32) :
    Follows Inv (p.addInt t q delta) (Parts.plain.addInt t q delta) s := by
  refine h.asks hs fun n _ => ?_
  simp only
  split
  · exact h.write _ q ht hs
  · exact h.fails hs _

theorem addDouble (h : Faithful Inv Ok p) (ht : Ok t) (hs : Inv s) (q : Quark) (delta : UInt64) :
    Follows Inv (p.addDouble t q delta) (Parts.plain.addDouble t q delta) s :=
  h.asks hs fun _ _ => h.write _ q ht hs

theorem push (h : Faithful Inv Ok p) (ht : Ok t) (hs : Inv s) (v : Value) (q : Quark) :
    Follows Inv (p.push t v q) (Parts.plain.push t v q) s := by
  refine h.asks hs fun depth _ => h.checks hs fun _ => (h.add _ _ hs).bind fun child s₁ _ hs₁ => ?_
  exact h.checks hs₁ fun _ => (h.write v child ht hs₁).bind fun _ s₂ _ hs₂ => h.write _ q ht hs₂

theorem pop (h : Faithful Inv Ok p) (ht : Ok t) (hs : Inv s) (q : Quark) :
    Follows Inv (p.pop t q) (Parts.plain.pop t q) s := by
  refine h.asks hs fun depth _ => ?_
  split
  · exact (h.fails hs _).bind fun _ _ hfail => nomatch hfail
  · refine h.asks hs fun child _ => h.checks hs fun _ => h.checks hs fun hchild => ?_
    refine h.reads hs hchild.covered ((h.write .null child ht hs).bind fun _ s₁ _ hs₁ => ?_)
    exact (h.write _ q ht hs₁).bind fun _ s₂ _ hs₂ => follows_pure _ hs₂

theorem contains_of_mem_visit {tree : Tree} (h : tree.Linked) :
    ∀ {fuel : Nat} {pending : List Quark},
    (∀ q ∈ pending, tree.contains q = true) → ∀ q ∈ tree.visit fuel pending, tree.contains q = true
  | 0, _, _, _, hq => nomatch hq
  | _ + 1, [], _, _, hq => nomatch hq
  | fuel + 1, p :: pending, hall, q, hq => by
    rcases List.mem_cons.1 hq with rfl | hq
    · exact hall _ (List.mem_cons_self ..)
    · refine contains_of_mem_visit h (fun c hc => ?_) q hq
      rcases List.mem_append.1 hc with hc | hc
      · exact h.contains_of_mem hc
      · exact hall c (List.mem_cons_of_mem _ hc)

/-- Clearing looks at attributes of the tree. -/
theorem contains_of_below {tree : Tree} (h : tree.Linked) {below : List Quark}
    (hbelow : tree.below q true = .ok below) :
    ∀ p ∈ q :: below, tree.contains p = true := by
  unfold Tree.below at hbelow
  cases hn : tree.node q with
  | error e =>
    rw [hn] at hbelow
    cases hbelow
  | ok n =>
    rw [hn] at hbelow
    obtain rfl := Except.ok.inj hbelow
    have hq : tree.contains q = true := Tree.contains_iff.2 ⟨n, Tree.node_eq_ok_iff.1 hn⟩
    intro p hp
    rcases List.mem_cons.1 hp with rfl | hp
    · exact hq
    · refine contains_of_mem_visit h (fun c hc => ?_) p hp
      rw [← childrenOf_eq (Tree.node_eq_ok_iff.1 hn)] at hc
      exact h.contains_of_mem hc

theorem clear (h : Faithful Inv Ok p) (ht : Ok t) (hs : Inv s) (hl : s.tree.Linked)
    (hcovered : s.tree.contains q = true → s.Covered) :
    Follows Inv (p.clear t q) (Parts.plain.clear t q) s := by
  refine h.asks hs fun below hbelow => ?_
  have hall := contains_of_below hl hbelow
  have htimelines := hcovered (hall q (List.mem_cons_self ..))
  refine (h.occupied hs fun a ha => htimelines.contains_iff.1
    (hall a ha)).bind fun targets s₁ _ hs₁ => ?_
  refine h.checksAll hs₁ fun _ =>
    (Follows.forM (fun a s => h.write .null a ht) targets s₁ hs₁).bind ?_
  exact fun _ s₂ _ hs₂ => h.advance ht hs₂

theorem offer (h : Faithful Inv Ok p) (ht : Ok t) (hs : Inv s) (v : Value) (hl : s.tree.Linked)
    (hcovered : (s.tree.find? q (Store.slotName 1)).isSome = true → s.Covered) :
    Follows Inv (p.offer t v q) (Parts.plain.offer t v q) s := by
  refine h.asks hs fun _ _ => h.findsSlots hs hl hcovered ?_
  exact (h.add _ _ hs).bind fun slot s₁ _ hs₁ => h.write v slot ht hs₁

theorem poll (h : Faithful Inv Ok p) (ht : Ok t) (hs : Inv s) (hl : s.tree.Linked)
    (hcovered : (s.tree.find? q (Store.slotName 1)).isSome = true → s.Covered) :
    Follows Inv (p.poll t q) (Parts.plain.poll t q) s := by
  refine h.asks hs fun _ _ => h.findsSlots hs hl hcovered (h.checksAll hs fun hall => ?_)
  refine (h.values hs fun slot hslot => (hall slot hslot).covered).bind fun values s₁ _ hs₁ => ?_
  refine (Follows.forM (fun x s hs => ?_) _ s₁ hs₁).bind fun _ s₂ _ hs₂ => follows_pure _ hs₂
  exact h.write x.2 x.1 ht hs

/-- **A call that is composed of faithful parts does what the plain call does**, unless it looks for
a timeline that is not there. -/
theorem agrees_edit (h : Faithful Inv Ok p) {c : Call} (hc : c.AtTime Ok) (hs : Inv s)
    (hl : s.tree.Linked) (hcovered : c.Looks s → s.Covered) : Agrees (p.edit c) c.edit s := by
  rw [← Parts.edit_plain]
  cases c with
  | step a =>
    cases a with
    | add base path => exact (h.add base path hs).1.bind fun _ _ _ => agrees_pure ..
    | advance t => exact (h.advance hc hs).1
    | write t v q => exact (h.write v q hc hs).1
    | amend v q => exact h.amend v (fun hq => (hcovered hq).contains_iff.1 hq) hs
    | close t => exact h.close hc hs
  | push t v q => exact (h.push hc hs v q).1
  | pop t q => exact (h.pop hc hs q).1.bind fun _ _ _ => agrees_pure ..
  | addLong t q delta => exact (h.addLong hc hs q delta).1
  | addInt t q delta => exact (h.addInt hc hs q delta).1
  | addDouble t q delta => exact (h.addDouble hc hs q delta).1
  | clear t q => exact (h.clear hc hs hl hcovered).1
  | offer t v q => exact (h.offer hc hs v hl hcovered).1
  | poll t q => exact (h.poll hc hs hl hcovered).1.bind fun _ _ _ => agrees_pure ..

end Faithful

/-! ## Guarded timelines -/

/-- The timeline of an attribute. -/
def timeline (s : Store) (q : Quark) : Guarded Timeline := fetch s.timelines q.index

/-- Starts a new state of `q` at `t`. -/
def write (t : Time) (v : Value) (q : Quark) : Edit Unit := do
  lift (ask (·.checkWritable q t))
  let l ← inspect (timeline · q)
  let l ← lift (ask fun _ => l.write q t v)
  lift (modify (·.setTimeline q l))
  lift (Store.advance t)

/-- Changes the value of the ongoing state of `q`. -/
def amend (v : Value) (q : Quark) : Edit Unit := do
  lift (ask (·.checkQuark q))
  let l ← inspect (timeline · q)
  lift (modify fun s => s.setTimeline q (l.amend v ((s.stop.or s.start).getD 0)))

/-- The parts of a writer's calls, which fetch the timelines they look at. -/
def parts : Parts Edit where
  ask f := lift (ask f)
  timeline q := inspect (timeline · q)
  add base path := lift (Store.add base path)
  advance t := lift (Store.advance t)
  check q t := lift (ask (·.checkWritable q t))
  write := write
  amend := amend
  close t := lift (Store.close t)

/-- A call to a writer. -/
def call (c : Call) (s : Store) : Guarded (Except Failure Unit × Store) := (parts.edit c).run.run s

/-- Calls one after the other, whether they fail or not, up to the first fault. -/
def run : List Call → Store → Guarded Store
  | [], s => .ok s
  | c :: calls, s => do run calls (← call c s).2

theorem timeline_eq (h : q.index < s.timelines.size) : timeline s q = .ok (s.timelineOf q) := by
  rw [timeline, fetch_of_lt h, Store.timelineOf_eq h]

/-- A timeline is looked up only after it was found to be there. -/
theorem agrees_write (t : Time) (v : Value) (q : Quark) (s : Store) :
    Agrees (write t v q) (Store.write t v q) s := by
  refine (agrees_lift _ _).bind fun _ s' hok => ?_
  obtain ⟨hcheck, rfl⟩ := Store.Edit.ask_ok.1 hok
  refine .inspect (timeline_eq (Store.checkWritable_ok_iff.1 hcheck).covered) ?_
  have hask : Agrees (lift (ask fun _ => (s'.timelineOf q).write q t v)) (ask fun s =>
      (s.timelineOf q).write q t v) s' := rfl
  exact hask.bind fun l s₁ _ => (agrees_lift _ _).bind fun _ s₂ _ => agrees_lift _ _

theorem agrees_amend (v : Value) (h : s.tree.contains q = true → q.index < s.timelines.size) :
    Agrees (amend v q) (Store.amend v q) s := by
  refine (agrees_lift _ _).bind fun _ s' hok => ?_
  obtain ⟨hcheck, rfl⟩ := Store.Edit.ask_ok.1 hok
  exact .inspect (timeline_eq (h (Store.checkQuark_ok_iff.1 hcheck))) rfl

theorem faithful_parts : Faithful (fun _ => True) (fun _ => True) parts where
  ask f s := agrees_lift ..
  timeline hq := by
    unfold Agrees
    change (timeline _ _ >>= fun l => Except.ok (Except.ok l, _)) = _
    rw [timeline_eq hq]
    rfl
  add base path _ := ⟨agrees_lift .., trivial⟩
  advance _ _ := ⟨agrees_lift .., trivial⟩
  check q t _ := agrees_lift ..
  write v q _ _ := ⟨agrees_write .., trivial⟩
  amend v _ hq _ := agrees_amend v hq
  close _ _ := agrees_lift ..

/-- **A call that does not miss a timeline does what the plain call does.** -/
theorem agrees_call (hl : s.tree.Linked) {c : Call} (h : ¬ c.Misses s) :
    call c s = .ok (outcome (c.edit s)) := by
  have htime : c.AtTime fun _ => True := by
    cases c with
    | step a => cases a <;> trivial
    | _ => trivial
  exact faithful_parts.agrees_edit htime trivial hl fun hlooks => by_contra fun hnot =>
    h ⟨hnot, hlooks⟩

end

end Guarded

end StateHistory
