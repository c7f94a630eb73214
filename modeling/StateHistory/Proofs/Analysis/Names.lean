import StateHistory.Proofs.Analysis.Closing
import StateHistory.Proofs.Analysis.Moves
import StateHistory.Proofs.Deferred
import StateHistory.Proofs.StateSystem.Keeps
import StateHistory.Proofs.Store.Cleared

/-!
# Where the names of attributes come from

A stock provider asks for attributes by paths that it takes from events: the stack of a thread and
the slots of that stack, or a counter (`Stock.Uses`). Nothing else adds attributes to the state
system of a run, so each of them stands on the path of an event (`FromEvents`), whether the run
completes, fails or is called off (`draws_runAlone`).
-/

namespace StateHistory

/-- What growing adds lies on the way to where it leads. -/
theorem Tree.Named.path_grow_cases {t : Tree} {base q : Quark} {path way way' : List String}
    (h : t.Named) (hbase : t.path base = .ok way) (hq : (t.grow base path).2.path q = .ok way') :
    t.path q = .ok way' ∨ way' <+: way ++ path := by
  have hin := h.contains_of_path hbase
  cases hc : t.contains q with
  | true => exact .inl ((h.keeps_grow hin path).path_eq q hc ▸ hq)
  | false =>
    obtain ⟨known, missing, hsplit⟩ := Tree.exists_splits hin path
    obtain ⟨hsize, hnew⟩ := h.grow_splits hbase hsplit
    have hold : ¬ q.index < t.size := of_decide_eq_false hc
    have hgrown : q.index < (t.grow base path).2.size :=
      of_decide_eq_true ((h.grow hin path).contains_of_path hq)
    have hpath := hnew (q.index - t.size) (by omega)
    have hquark : (⟨t.size + (q.index - t.size)⟩ : Quark) = q := by
      rw [Nat.add_sub_cancel' (Nat.not_lt.1 hold)]
    rw [hquark, hq] at hpath
    obtain rfl := Except.ok.inj hpath
    rw [hsplit.eq_append, List.append_assoc]
    exact .inr ((List.prefix_append_right_inj _).2
      ((List.prefix_append_right_inj _).2 (List.take_prefix ..)))

namespace Store

open StateHistory.Tree (Named)

/-- Attributes other than the root have paths of a kind. -/
structure Spelled (P : List String → Prop) (s : Store) : Prop where
  lawful : s.Lawful
  named : s.tree.Named
  spelled : ∀ q way, s.tree.path q = .ok way → way ≠ [] → P way

section
variable {P : List String → Prop} {s s' : Store} {a : Step} {steps : List Step} {c : Call}
  {base : Quark} {path : List String}

theorem spelled_new : new.Spelled P := by
  refine ⟨lawful_new, Tree.named_empty, fun q way hway hne => ?_⟩
  have hq := Tree.named_empty.contains_of_path hway
  have hroot : q = .root := by
    have hlt : q.index < 1 := of_decide_eq_true hq
    obtain ⟨i⟩ := q
    exact congrArg Quark.mk (Nat.lt_one_iff.1 hlt)
  subst hroot
  cases hway
  exact absurd rfl hne

/-- A call adds attributes if it asks for a path, and if it pushes or offers: the next slot. -/
theorem Call.add_mem_steps (h : .add base path ∈ c.steps s) : c = .step (.add base path) ∨
    ∃ t v height, (c = .push t v base ∨ c = .offer t v base) ∧ path = slotName height := by
  unfold Call.steps at h
  split at h
  · cases c with
    | step b =>
      obtain rfl := List.mem_singleton.1 h
      exact .inl rfl
    | push t v q =>
      simp only [Call.parts] at h
      split at h
      · simp at h
        obtain ⟨rfl, rfl⟩ := h
        exact .inr ⟨t, v, _, .inl rfl, rfl⟩
      · cases h
    | offer t v q =>
      simp [Call.parts] at h
      obtain ⟨rfl, rfl⟩ := h
      exact .inr ⟨t, v, _, .inr rfl, rfl⟩
    | _ =>
      simp only [Call.parts] at h
      repeat' split at h
      all_goals simp at h
  · cases c with
    | offer t v q =>
      simp only [Call.leftover] at h
      split at h
      · simp at h
        obtain ⟨rfl, rfl⟩ := h
        exact .inr ⟨t, v, _, .inr rfl, rfl⟩
      · cases h
    | _ => cases h

/-- Only adding changes the tree. -/
theorem Step.Takes.tree_eq (ha : a.Takes s s') (h : ∀ base path, a ≠ .add base path) :
    s'.tree = s.tree := by
  cases ha with
  | add _ => exact absurd rfl (h _ _)
  | advance _ => exact tree_reach
  | write _ => exact tree_wrote
  | amend _ => rfl
  | close _ => rfl

/-- The paths of attributes stay what they were. -/
def KeepsPaths (s s' : Store) : Prop := ∀ q way, s.tree.path q = .ok way → s'.tree.path q = .ok way

/-- A step that adds nothing, or adds on a granted path. -/
theorem Spelled.takes (hshort : ∀ way more, way <+: more → P more → P way) (h : s.Spelled P)
    (ha : a.Takes s s')
    (hadd : ∀ base path, a = .add base path → ∃ way, s.tree.path base = .ok way ∧ P (way ++ path)) :
    s'.Spelled P ∧ s.KeepsPaths s' := by
  have hlawful := h.lawful.takes ha
  by_cases hadds : ∃ base path, a = .add base path
  · obtain ⟨base, path, rfl⟩ := hadds
    obtain ⟨way, hway, hP⟩ := hadd base path rfl
    cases ha with
    | add hb =>
      refine ⟨⟨hlawful, h.named.grow hb path, fun q way' hq hne => ?_⟩, fun q way' hq => ?_⟩
      · rcases h.named.path_grow_cases hway hq with hold | hnew
        · exact h.spelled q way' hold hne
        · exact hshort way' _ hnew hP
      · exact ((h.named.keeps_grow hb path).path_eq q (h.named.contains_of_path hq)).trans hq
  · have htree := ha.tree_eq fun base path heq => hadds ⟨base, path, heq⟩
    exact ⟨⟨hlawful, htree ▸ h.named, htree ▸ h.spelled⟩, fun q way hq => htree ▸ hq⟩

/-- What is added on granted paths is all that is new. -/
theorem Spelled.trail (hshort : ∀ way more, way <+: more → P more → P way) (h : s.Spelled P)
    (ht : Trail s steps s')
    (hadd : ∀ base path, .add base path ∈ steps → ∃ way, s.tree.path base = .ok way ∧
      P (way ++ path)) :
    s'.Spelled P ∧ s.KeepsPaths s' := by
  refine ht.induct_of (P := fun s' => s'.Spelled P ∧ s.KeepsPaths s')
    (Q := fun a => ∀ base path, a = .add base path → ∃ way, s.tree.path base = .ok way ∧
      P (way ++ path))
    ?_ (fun a ha base path heq => hadd base path (heq ▸ ha)) ⟨h, fun _ _ hway => hway⟩
  rintro s₁ s₂ a hgranted ⟨h₁, hkept⟩ ha
  obtain ⟨h₂, hkept'⟩ := h₁.takes hshort ha fun base path heq => by
    obtain ⟨way, hway, hP⟩ := hgranted base path heq
    exact ⟨way, hkept base way hway, hP⟩
  exact ⟨h₂, fun q way hq => hkept' q way (hkept q way hq)⟩

end

end Store

/-! ## Stock providers -/

/-- The attributes that a provider can ask for at an event, by their paths: the slots of a stack, or
a counter. -/
inductive Stock.Uses (e : Event) : Stock → List String → Prop
  | slot (height : Int) : Uses e .callStack (CallStack.path e ++ Store.slotName height)
  | counter {name : String} (h : e.fieldSegment "name" = some name) :
      Uses e .counter (Counter.path name)

/-- The path leads to an attribute that a provider can ask for at one of the events, or lies on the
way there. -/
def Stock.Names (k : Stock) (events : List Event) (way : List String) : Prop :=
  ∃ e ∈ events, ∃ whole, k.Uses e whole ∧ way <+: whole

theorem Stock.Names.mono {k : Stock} {events : List Event} {way more : List String}
    (hshort : way <+: more) (h : k.Names events more) : k.Names events way := by
  obtain ⟨e, he, whole, huses, hmore⟩ := h
  exact ⟨e, he, whole, huses, hshort.trans hmore⟩

open StateSystem

/-- The attributes of the state system come from events. -/
structure FromEvents (k : Stock) (events : List Event) (s : StateSystem) : Prop where
  live : s.disposed = false
  store : s.store.Spelled (k.Names events)
  /-- Deferred changes only take something off a stack. -/
  waiting : ∀ c ∈ s.deferred.changes, c.kind = .pop

/-- Beside that, `q` is the attribute with the path `way`. -/
structure FromEvents.At (k : Stock) (events : List Event) (q : Quark) (way : List String)
    (s : StateSystem) : Prop extends FromEvents k events s where
  path_eq : s.store.tree.path q = .ok way

namespace FromEvents

section
variable {k : Stock} {events : List Event} {e : Event} {s s' : StateSystem} {q : Quark}
  {way : List String} {handle : Handler} {context : Context}

theorem new (id : String) : FromEvents k events (.new id) :=
  ⟨rfl, Store.spelled_new, by simp [StateSystem.new]⟩

theorem root (h : FromEvents k events s) : FromEvents.At k events .root [] s :=
  ⟨h, h.store.named.path_of_descend rfl⟩

/-- A call that adds only what is granted. -/
theorem keeps_call {c : Store.Call} (hadd : ∀ (store : Store) (base : Quark) (path : List String),
      store.tree.path q = .ok way → .add base path ∈ c.steps store →
        ∃ way', store.tree.path base = .ok way' ∧ k.Names events (way' ++ path)) :
    (edit c.edit).Keeps (FromEvents.At k events q way) := by
  intro s h
  have htrail := Store.Call.trail h.store.lawful.covered c
  obtain ⟨hstore, hkept⟩ := h.store.trail (fun _ _ => Stock.Names.mono) htrail fun base path =>
    hadd s.store base path h.path_eq
  rw [after_edit_of_live c h.live]
  exact ⟨⟨h.live, hstore, h.waiting⟩, hkept q way h.path_eq⟩

/-- A call that adds nothing. -/
theorem keeps_plain {c : Store.Call} (hadd : ∀ base path, c ≠ .step (.add base path))
    (hpush : ∀ t v q, c ≠ .push t v q ∧ c ≠ .offer t v q) :
    (edit c.edit).Keeps (FromEvents.At k events q way) := by
  refine keeps_call fun store base path _ hmem => ?_
  rcases Store.Call.add_mem_steps hmem with heq | ⟨t, v, height, heq | heq, -⟩
  · exact absurd heq (hadd base path)
  · exact absurd heq (hpush t v base).1
  · exact absurd heq (hpush t v base).2

/-- Asking for a granted path leads to the attribute there. -/
theorem addPath_cases (h : FromEvents k events s) {path : List String}
    (hnames : k.Names events path) :
    (∃ q s', addPath path s = .ok q s' ∧ FromEvents.At k events q path s') ∨
      ∃ f s', addPath path s = .error f s' ∧ FromEvents k events s' := by
  have hkeeps : (addPath path).Keeps (FromEvents.At k events .root []) := by
    refine keeps_edit (keeps_call (c := .step (.add .root path)) fun store base more hroot hmem =>
      ?_)
    rcases Store.Call.add_mem_steps hmem with heq | ⟨t, v, height, heq | heq, -⟩
    · cases heq
      exact ⟨[], hroot, hnames⟩
    · cases heq
    · cases heq
  cases hadd : addPath path s with
  | error f s' => exact .inr ⟨f, s', rfl, (hkeeps.of_error h.root hadd).toFromEvents⟩
  | ok q s' =>
    refine .inl ⟨q, s', rfl, (hkeeps.of_ok h.root hadd).toFromEvents, ?_⟩
    unfold addPath at hadd
    rw [edit_of_live _ h.live] at hadd
    cases hop : Store.add .root path s.store with
    | error f store => rw [hop] at hadd; cases hadd
    | ok q' store =>
      rw [hop] at hadd
      cases hadd
      obtain ⟨hin, rfl, rfl⟩ := Store.add_ok_iff.1 hop
      exact (h.store.named.grow hin path).path_of_descend (h.store.named.descend_grow_self hin path)

/-- What is done with an attribute on a granted path, and keeps where it is. -/
theorem addPath_bind {path : List String} (hnames : k.Names events path) {f : Quark → Write Unit}
    (hf : ∀ q, (f q).Keeps (FromEvents.At k events q path)) :
    (addPath path >>= f).Keeps (FromEvents k events) := by
  intro s h
  unfold Write.after
  rcases h.addPath_cases hnames with ⟨q, s', hadd, hat⟩ | ⟨failure, s', hadd, h'⟩
  · rw [bind_of_ok hadd]
    exact (hf q s' hat).toFromEvents
  · rw [bind_of_error hadd]
    exact h'

theorem keeps_schedule {c : Change} (hc : c.kind = .pop) :
    (schedule c).Keeps (FromEvents.At k events q way) := by
  intro s h
  refine ⟨⟨h.live, h.store, fun d hd => ?_⟩, h.path_eq⟩
  rcases Deferred.mem_insert.1 hd with rfl | hd
  · exact hc
  · exact h.waiting d hd

/-- **A stock provider adds attributes on the paths of the event only.** -/
theorem keeps_handle (he : e ∈ events) (hstart : k.provider.start context = .ok handle) :
    (handle e).Keeps (FromEvents k events) := by
  cases k with
  | callStack =>
    obtain rfl : CallStack.handle = handle := Except.ok.inj hstart
    have hslot : ∀ height, Stock.callStack.Names events
        (CallStack.path e ++ Store.slotName height) :=
      fun height => ⟨e, he, _, .slot height, List.prefix_refl _⟩
    have hstack : Stock.callStack.Names events (CallStack.path e) :=
      (hslot 0).mono (List.prefix_append ..)
    unfold CallStack.handle
    split
    · refine addPath_bind hstack fun stack => ?_
      have hpush : (edit (Store.push e.timestamp (e.fieldValue "function") stack)).Keeps
          (FromEvents.At .callStack events stack (CallStack.path e)) := by
        refine keeps_call (c := .push e.timestamp (e.fieldValue "function") stack) fun store base
          path hpath hmem => ?_
        rcases Store.Call.add_mem_steps hmem with heq | ⟨t, v, height, heq | heq, rfl⟩
        · cases heq
        · cases heq
          exact ⟨_, hpath, hslot height⟩
        · cases heq
      refine hpush.bind fun _ => ?_
      cases e.fieldLong "end" with
      | some stop => exact keeps_schedule rfl
      | none => exact keeps_pure _
    · refine addPath_bind hstack fun stack => ?_
      exact (keeps_edit (keeps_plain (c := .pop e.timestamp stack) (by simp) (by simp))).discard
    · exact keeps_pure _
  | counter =>
    obtain rfl : Counter.handle = handle := Except.ok.inj hstart
    have hcounter : ∀ name, e.fieldSegment "name" = some name →
        Stock.counter.Names events (Counter.path name) :=
      fun name hname => ⟨e, he, _, .counter hname, List.prefix_refl _⟩
    unfold Counter.handle
    split
    · rename_i name hname _
      exact addPath_bind (hcounter name hname) fun q =>
        keeps_plain (c := .step (.write e.timestamp (e.fieldValue "value") q)) (by simp) (by simp)
    · rename_i name hname _
      exact addPath_bind (hcounter name hname) fun q =>
        keeps_plain (c := .addLong e.timestamp q (.ofInt ((e.fieldLong "delta").getD 1)))
          (by simp) (by simp)
    · exact keeps_pure _

theorem keeps_edit_plain {c : Store.Call} (hadd : ∀ base path, c ≠ .step (.add base path))
    (hpush : ∀ t v q, c ≠ .push t v q ∧ c ≠ .offer t v q) :
    (edit c.edit).Keeps (FromEvents k events) :=
  fun s h => (keeps_plain hadd hpush s h.root).toFromEvents

theorem keeps_flush (t : Time) : (flush t).Keeps (FromEvents k events) := by
  intro s h
  refine flushLoop_induct_of (P := fun c => c.kind = .pop) ?_ ?_ t _ _ s h
  · intro s c deferred h hnext
    have hchanges := Deferred.changes_of_next hnext
    refine ⟨h.waiting c (by simp [hchanges]), h.live, h.store, fun d hd => h.waiting d ?_⟩
    rw [hchanges]
    exact List.mem_cons_of_mem _ hd
  · intro c s hc h
    have hcall : c.call = .pop c.time c.quark := by rw [Change.call, hc]
    rw [hcall]
    exact keeps_edit_plain (by simp) (by simp) s h

theorem keeps_advanceTo (t : Time) : (advanceTo t).Keeps (FromEvents k events) :=
  (keeps_flush t).bind fun _ => keeps_edit_plain (c := .step (.advance t)) (by simp) (by simp)

theorem keeps_record (he : e ∈ events) (hstart : k.provider.start context = .ok handle) :
    (Analysis.record handle e).Keeps (FromEvents k events) := by
  intro s h
  unfold Write.after Analysis.record
  cases hadvance : StateSystem.advanceTo e.timestamp s with
  | error f s₁ => exact (keeps_advanceTo _).of_error h hadvance
  | ok u s₁ =>
    have h₁ := (keeps_advanceTo _).of_ok h hadvance
    cases hhandle : handle e s₁ with
    | ok u s₂ =>
      simp only [hhandle]
      exact (keeps_handle he hstart).of_ok h₁ hhandle
    | error f s₂ =>
      have h₂ := (keeps_handle he hstart).of_error h₁ hhandle
      simp only [hhandle]
      cases f.isFatal <;> exact h₂

theorem finish (h : FromEvents k events s) (status : Status) :
    FromEvents k events (s.finish status) :=
  ⟨h.live, h.store, h.waiting⟩

theorem keeps_closing (flushAtEnd : Bool) :
    (Analysis.closing flushAtEnd).Keeps (FromEvents k events) := by
  have hclose : ∀ t, (StateSystem.close t).Keeps (FromEvents k events) := by
    intro t s h
    have hedit : (edit (Store.close t)).Keeps (FromEvents k events) :=
      keeps_edit_plain (c := .step (.close t)) (by simp) (by simp)
    unfold Write.after StateSystem.close
    cases hop : edit (Store.close t) s with
    | ok u s' => exact (hedit.of_ok h hop).finish _
    | error f s' => exact (hedit.of_error h hop).finish _
  have hrest : Analysis.closeAtStop.Keeps (FromEvents k events) :=
    (keeps_ask _).bind fun stop => hclose (stop.elim 0 Time.after)
  cases flushAtEnd with
  | true => exact (keeps_flush Time.latest).bind fun _ => hrest
  | false => exact hrest

end

end FromEvents

/-! ## Runs -/

namespace Analysis

/-- The analysis uses a stock provider on some events, has no saved history to load, and its state
system comes from these events. -/
structure Draws (k : Stock) (events : List Event) (folder : Folder) (a : Analysis) : Prop where
  provider_eq : a.provider = k.provider
  ahead : ∀ e, .event e ∈ a.source.reads → e ∈ events
  fresh : a.phase = .over ∨ a.loadHistory folder = none
  handler : ∀ handle processed last, a.phase = .building handle processed last →
    ∃ context, k.provider.start context = .ok handle
  system : ∀ s, a.system = some s → FromEvents k events s

section
variable {k : Stock} {events : List Event} {folder folder' : Folder} {a a' : Analysis}
  {see : String → Option Analysis}

theorem Draws.notify (h : Draws k events folder a) (n : Notification) :
    Draws k events folder (a.notify n) :=
  ⟨h.provider_eq, h.ahead, h.fresh, h.handler, h.system⟩

/-- A run that is over has nothing to do but to keep its state system. -/
theorem draws_over (hprovider : a.provider = k.provider)
    (hahead : ∀ e, .event e ∈ a.source.reads → e ∈ events) (hover : a.phase = .over)
    (hsystem : ∀ s, a.system = some s → FromEvents k events s) (folder : Folder) :
    Draws k events folder a :=
  ⟨hprovider, hahead, .inl hover, fun _ _ _ hphase => (nomatch hover.symm.trans hphase), hsystem⟩

theorem fromEvents_finished (hsystem : ∀ s, a.system = some s → FromEvents k events s)
    (status : Status) :
    ∀ s, a.system.map (·.finish status) = some s → FromEvents k events s := by
  intro s hs
  obtain ⟨s₀, hs₀, rfl⟩ := Option.map_eq_some_iff.1 hs
  exact (hsystem s₀ hs₀).finish status

theorem Draws.endCancelled (h : Draws k events folder a) : Draws k events folder a.endCancelled :=
  draws_over (a := a.endCancelled) h.provider_eq h.ahead
    rfl (fromEvents_finished h.system .cancelled) folder

theorem draws_endFailed (hprovider : a.provider = k.provider)
    (hahead : ∀ e, .event e ∈ a.source.reads → e ∈ events)
    (hsystem : ∀ s, a.system = some s → FromEvents k events s) (reason : String) (folder : Folder) :
    Draws k events folder (a.endFailed reason) :=
  draws_over (a := a.endFailed reason) hprovider hahead
    rfl (fromEvents_finished hsystem (.failed reason)) folder

theorem Draws.endFailed (h : Draws k events folder a) (reason : String) :
    Draws k events folder (a.endFailed reason) :=
  draws_endFailed h.provider_eq h.ahead h.system reason folder

theorem Draws.await (h : Draws k events folder a) {d : String} {pending : List String}
    {context : Context} (hphase : a.phase = .awaiting (d :: pending) context)
    (hawait : a.await see d pending context = some a') :
    Draws k events folder a' := by
  have hfresh : a.loadHistory folder = none := h.fresh.resolve_left (by rw [hphase]; simp)
  unfold Analysis.await at hawait
  split at hawait
  · exact Option.some.inj hawait ▸ h.endCancelled
  · cases hsee : see d with
    | none => simp [hsee] at hawait
    | some other =>
      simp only [hsee] at hawait
      split at hawait
      · obtain rfl := Option.some.inj hawait
        exact ⟨h.provider_eq, h.ahead, .inr hfresh, fun _ _ _ hnext => (nomatch hnext), h.system⟩
      · exact Option.some.inj hawait ▸ h.endFailed _
      · split at hawait
        · exact Option.some.inj hawait ▸ h.endFailed _
        · cases hawait

theorem Draws.opened (h : Draws k events folder a) (hfresh : a.loadHistory folder = none)
    (context : Context) :
    Draws k events folder (a.opened folder context) := by
  have hnew : ∀ s, some (StateSystem.new a.id) = some s → FromEvents k events s := by
    rintro s ⟨⟩
    exact .new a.id
  unfold Analysis.opened
  rw [hfresh]
  simp only
  split
  · rename_i handle hstart
    refine ⟨h.provider_eq, h.ahead, .inr hfresh, fun handle' processed last hphase => ⟨context, ?_⟩,
      hnew⟩
    cases hphase
    rw [← h.provider_eq]
    exact hstart
  · exact draws_endFailed (a := { a with system := some (.new a.id) }) h.provider_eq
      h.ahead hnew _ folder

/-- What a source gives was ahead, and so is what it gives later. -/
theorem mem_reads_of_next {source rest : Source} {read : Read} (h : source.next = (read, rest)) :
    (∀ {e}, read = .event e → read ∈ source.reads) ∧ ∀ r ∈ rest.reads, r ∈ source.reads := by
  obtain ⟨reads⟩ := source
  cases reads with
  | nil =>
    cases h
    exact ⟨fun heq => (nomatch heq), fun r hr => hr⟩
  | cons r reads =>
    cases h
    exact ⟨fun _ => List.mem_cons_self .., fun r hr => List.mem_cons_of_mem _ hr⟩

theorem draws_handleEvent (hprovider : a.provider = k.provider)
    (hahead : ∀ e, .event e ∈ a.source.reads → e ∈ events) (hfresh : a.loadHistory folder = none)
    {handle : Handler} {context : Context} (hstart : k.provider.start context = .ok handle)
    {e : Event} (he : e ∈ events) {s : StateSystem} (hs : FromEvents k events s)
    (hsystem : ∀ s, a.system = some s → FromEvents k events s) (processed : Nat)
    (last : Option Time) : Draws k events folder (a.handleEvent handle processed last e s) := by
  unfold Analysis.handleEvent
  split
  · exact draws_endFailed hprovider hahead hsystem _ folder
  · have hkeeps := FromEvents.keeps_record he hstart
    split
    · rename_i f s' hrecord
      refine draws_endFailed (a := { a with system := some s' }) hprovider hahead ?_ _ folder
      rintro s ⟨⟩
      exact hkeeps.of_error hs hrecord
    · rename_i s' hrecord
      have hnext : Draws k events folder { a with
          system := some s'
          phase := .building handle (processed + 1) (some e.timestamp) } := by
        refine ⟨hprovider, hahead, .inr hfresh, ?_, ?_⟩
        · rintro handle' processed' last' ⟨⟩
          exact ⟨context, hstart⟩
        · rintro s ⟨⟩
          exact hkeeps.of_ok hs hrecord
      unfold reportProgress
      split
      · exact hnext.notify _
      · exact hnext

theorem draws_concluded (hprovider : a.provider = k.provider)
    (hahead : ∀ e, .event e ∈ a.source.reads → e ∈ events) {s : StateSystem}
    (hs : FromEvents k events s) (processed : Nat) (folder : Folder) :
    Draws k events (a.concluded processed s folder).2 (a.concluded processed s folder).1 := by
  have hkeeps : (closing a.config.flushAtEnd).Keeps (FromEvents k events) :=
    FromEvents.keeps_closing a.config.flushAtEnd
  unfold Analysis.concluded
  split
  · rename_i s' hclosing
    refine draws_over (a := { a with system := some s' }.endCompleted processed) hprovider
      hahead rfl ?_ _
    rintro s ⟨⟩
    exact hkeeps.of_ok hs hclosing
  · rename_i f s' hclosing
    refine draws_endFailed (a := { a with system := some s' }) hprovider hahead ?_ _ folder
    rintro s ⟨⟩
    exact hkeeps.of_error hs hclosing

theorem Draws.build (h : Draws k events folder a) {handle : Handler} {processed : Nat}
    {last : Option Time} (hphase : a.phase = .building handle processed last) :
    Draws k events (a.build handle processed last folder).2
      (a.build handle processed last folder).1 := by
  obtain ⟨context, hstart⟩ := h.handler handle processed last hphase
  have hfresh : a.loadHistory folder = none := h.fresh.resolve_left (by rw [hphase]; simp)
  have hs : FromEvents k events (a.system.getD (.new a.id)) := by
    cases hsystem : a.system with
    | none => exact .new a.id
    | some s => exact h.system s hsystem
  unfold Analysis.build
  split
  · exact h.endCancelled
  · cases hread : a.source.next with
    | mk read source =>
      obtain ⟨hmem, hrest⟩ := mem_reads_of_next hread
      have hahead : ∀ e, .event e ∈ source.reads → e ∈ events := fun e he => h.ahead e (hrest _ he)
      cases read with
      | event e =>
        exact draws_handleEvent (a := { a with source }) h.provider_eq hahead hfresh hstart
          (h.ahead e (hmem rfl)) hs h.system processed last
      | nothing =>
        exact draws_concluded (a := { a with source }) h.provider_eq hahead hs processed folder
      | failure f =>
        exact draws_endFailed (a := { a with source }) h.provider_eq hahead h.system _ folder

/-- **Each step of a run keeps to the events.** -/
theorem Draws.step (h : Draws k events folder a) (hstep : a.step see folder = some (a', folder')) :
    Draws k events folder' a' := by
  have hfresh : a.phase ≠ .over → a.loadHistory folder = none := h.fresh.resolve_left
  unfold Analysis.step at hstep
  split at hstep
  · cases hstep
  · cases hstep
  · rename_i hphase
    obtain ⟨rfl, rfl⟩ := Prod.mk.inj (Option.some.inj hstep)
    have hawaiting : Draws k events folder { a with phase := .awaiting a.dependencies {} } :=
      ⟨h.provider_eq, h.ahead, .inr (hfresh (by simp [hphase])),
        fun _ _ _ hnext => (nomatch hnext), h.system⟩
    exact hawaiting.notify _
  · rename_i hphase
    obtain ⟨a₁, hawait, heq⟩ := Option.map_eq_some_iff.1 hstep
    obtain ⟨rfl, rfl⟩ := Prod.mk.inj heq
    exact h.await hphase hawait
  · rename_i hphase
    obtain ⟨rfl, rfl⟩ := Prod.mk.inj (Option.some.inj hstep)
    exact h.opened (hfresh (by simp [hphase])) _
  · rename_i hphase
    obtain ⟨rfl, rfl⟩ := Prod.mk.inj (Option.some.inj hstep)
    exact h.build hphase

theorem Draws.expire (h : Draws k events folder a) (hexpire : a.expire = some a') :
    Draws k events folder a' := by
  unfold Analysis.expire at hexpire
  split at hexpire
  · obtain rfl := Option.some.inj hexpire
    split
    · exact h.endCancelled
    · exact h.endFailed _
  · cases hexpire

theorem Draws.settleLoop (h : Draws k events folder a) (held : Session → Analysis → Bool)
    (fuel : Nat) :
    ∃ a' folder', Session.settleLoop held fuel ⟨[a], folder⟩ = ⟨[a'], folder'⟩ ∧ a'.id = a.id ∧
      Draws k events folder' a' := by
  induction fuel generalizing a folder with
  | zero => exact ⟨a, folder, rfl, rfl, h⟩
  | succ fuel ih =>
    unfold Session.settleLoop
    cases hnext : Session.settleStep held ⟨[a], folder⟩ with
    | none => exact ⟨a, folder, rfl, rfl, h⟩
    | some s =>
      obtain ⟨b, hb, a₁, hmove⟩ := Session.settleStep_cases hnext
      obtain rfl := List.mem_singleton.1 hb
      have hput : ∀ hid : a₁.id = b.id, (Session.put ⟨[b], folder⟩ a₁) = ⟨[a₁], folder⟩ :=
          fun hid => by
        simp [Session.put, hid]
      rcases hmove with ⟨folder₁, hstep, rfl⟩ | ⟨hexpire, rfl⟩
      · have hid := (Proceeds.step hstep).id_eq
        obtain ⟨a', folder', hloop, hid', h'⟩ := ih (h.step hstep)
        rw [hput hid]
        exact ⟨a', folder', hloop, hid'.trans hid, h'⟩
      · have hid := (Proceeds.expire hexpire).id_eq
        obtain ⟨a', folder', hloop, hid', h'⟩ := ih (h.expire hexpire)
        rw [hput hid]
        exact ⟨a', folder', hloop, hid'.trans hid, h'⟩

/-- **The attributes of a run come from its events**, however the run ends. -/
theorem Draws.runAlone (h : Draws k events folder a) :
    Draws k events (Session.runAlone a folder).2 (Session.runAlone a folder).1 := by
  obtain ⟨a', folder', hloop, hid, h'⟩ :=
    h.settleLoop (fun _ _ => false) ([a].foldr (fun a n => a.stepsLeft + n) 0)
  have hsettled : Session.settle ⟨[a], folder⟩ (fun _ _ => false) = ⟨[a'], folder'⟩ := hloop
  have hrun : Session.runAlone a folder = (a', folder') := by
    simp [Session.runAlone, hsettled, Session.find?, hid]
  rwa [hrun]

end

end Analysis

end StateHistory
