import StateHistory.Proofs.Analysis.Closing
import StateHistory.Proofs.Analysis.Quiet
import StateHistory.Proofs.CallStack.Tracked

/-!
# Recording calls

What the stacks need in order to be tracked is kept by all that happens to a state system while
events are recorded: the pops that are due are made, underflows are passed over, recording moves on,
and the event puts its function on its stack or takes one off. So every list of events in order can
be recorded (`Keeps.recorded`), and the state system can then be closed (`Keeps.closing`).
-/

namespace StateHistory.CallStack

open Store StateSystem Touch

/-- A state system that has its data and keeps track of the replays. -/
structure Keeps (s : StateSystem) (now : Time) (replays : List String → Replay) : Prop where
  live : s.disposed = false
  tracked : Tracked s.store s.deferred.changes now replays

/-- The steps of the writer lead from one state system to the other. -/
def Leads (s s' : StateSystem) : Prop := ∃ steps, Trail s.store steps s'.store

/-- Recording has come to an event, and has added its stack. -/
structure Seen (store : Store) (e : Event) : Prop where
  reaches : store.Reaches e.timestamp e.timestamp
  located : e.name = "entry" ∨ e.name = "exit" → ∃ q, store.tree.descend .root (path e) = some q

section
variable {s s₁ s' : StateSystem} {now t : Time} {replays : List String → Replay} {way : List String}
  {q : Quark} {m : Replay} {e : Event} {events : List Event} {c : Change} {rest : List Change}

theorem Leads.refl (s : StateSystem) : Leads s s := ⟨[], .nil⟩

theorem Leads.trans (h : Leads s s₁) (h' : Leads s₁ s') : Leads s s' := by
  obtain ⟨steps, h⟩ := h
  obtain ⟨more, h'⟩ := h'
  exact ⟨steps ++ more, h.append h'⟩

theorem Leads.single {a : Step} (h : a.edit s.store = .ok () s'.store) : Leads s s' :=
  ⟨[a], .single h⟩

theorem Leads.touched {x : Quark} (h : s.store.TouchedAt x t s'.store) : Leads s s' := by
  obtain ⟨steps, h, -⟩ := h
  exact ⟨steps, h⟩

/-- What has been seen stays. -/
theorem Seen.trail {store store' : Store} {steps : List Step} (h : Seen store e)
    (ht : Trail store steps store') (hlinked : store.tree.Linked) (hc : store'.closed = false) :
    Seen store' e := by
  refine ⟨h.reaches.trail ht hc, fun hname => ?_⟩
  obtain ⟨q, hq⟩ := h.located hname
  exact ⟨q, ht.descend hlinked hq⟩

/-! ## Pops that are due -/

/-- The first change that waits is a pop, which is made or passed over. -/
theorem Keeps.applied (h : Keeps s now replays) (hchanges : s.deferred.changes = c :: rest) :
    ∃ s', (apply c { s with deferred := ⟨rest⟩ } = .ok () s' ∨
        apply c { s with deferred := ⟨rest⟩ } = .error (.stackUnderflow c.quark c.time) s') ∧
      s'.deferred = ⟨rest⟩ ∧ Keeps s' c.time replays ∧ Leads s s' := by
  have htracked := h.tracked
  rw [hchanges] at htracked
  obtain ⟨hlate, hascending⟩ := List.pairwise_cons.1 htracked.ascending
  obtain ⟨hkind, hnow, -, p, hp, hd⟩ := htracked.waits c (by simp)
  obtain ⟨done, hstacked, hdone, heq⟩ := htracked.plays p c.quark hp hd
  have hdone' : ∀ o ∈ done, o.time ≤ c.time := fun o ho => Int.le_trans (hdone o ho) hnow
  obtain ⟨store, hpop, hstacked', htouched⟩ := hstacked.popped (htracked.isOpen hnow) hdone'
  let s' : StateSystem := { s with deferred := ⟨rest⟩, store, published := store.stop }
  have htracked' : Tracked store rest c.time replays := by
    rw [← Function.update_eq_self p replays]
    refine htracked.touched hnow hp hd htouched ?_ ?_ ?_ hascending
    · refine ⟨done ++ [.pop c.time], hstacked',
        List.forall_mem_append.2 ⟨hdone', by simp [Touch.time]⟩, fun t ht => ?_⟩
      have hsame := heq t (Int.le_trans hnow ht)
      rw [dueOf_cons, if_pos rfl] at hsame
      rw [← hsame, Replay.catchUp_cons ht]
    · intro q hq
      rw [dueOf_cons, if_neg (Ne.symm hq)]
    · intro c' hc'
      obtain ⟨hkind', -, hlatest, hlocated⟩ := htracked.waits c' (by simp [hc'])
      exact ⟨hkind', hlate c' hc', hlatest, hlocated⟩
  refine ⟨s', ?_, rfl, ⟨h.live, htracked'⟩, Leads.touched htouched⟩
  simp only [apply, hkind]
  rcases hpop with ⟨v, hpop⟩ | hpop
  · exact Or.inl (bind_of_ok (edit_of_ok h.live hpop))
  · exact Or.inr (bind_of_error (edit_of_error h.live hpop))

/-- **All pops that are due by `t` are made**, and the others wait on. -/
theorem Keeps.flushLoop (h : Keeps s now replays) (hle : now ≤ t) {fuel : Nat}
    (hfuel : s.deferred.changes.length ≤ fuel) (applied : Nat) :
    ∃ n s' now', StateSystem.flushLoop t fuel applied s = .ok n s' ∧ now' ≤ t ∧
      Keeps s' now' replays ∧
      (∀ c ∈ s'.deferred.changes, t < c.time) ∧ Leads s s' := by
  induction fuel generalizing s now applied with
  | zero =>
    have hnil : s.deferred.changes = [] := List.length_eq_zero_iff.1 (Nat.le_zero.1 hfuel)
    exact ⟨applied, s, now, rfl, hle, h, by simp [hnil], Leads.refl s⟩
  | succ fuel ih =>
    rcases Deferred.due_cases h.tracked.ascending t with hlater | ⟨c, rest, hchanges, hdue⟩
    · refine ⟨applied, s, now, ?_, hle, h, hlater, Leads.refl s⟩
      simp only [StateSystem.flushLoop, Deferred.nextDue_eq_none hlater]
    · have hnext := Deferred.nextDue_of_le hchanges hdue
      obtain ⟨s₁, happly, hrest, hkeeps, hleads⟩ := h.applied hchanges
      have hfuel' : s₁.deferred.changes.length ≤ fuel := by
        rw [hchanges, List.length_cons] at hfuel
        rw [hrest]
        exact Nat.le_of_succ_le_succ hfuel
      -- an underflow is passed over, so both ways the rest of the work is the same
      rcases happly with happly | happly
      · obtain ⟨n, s', now', hloop, hle', hkeeps', hlater, hleads'⟩ :=
          ih hkeeps hdue hfuel' (applied + 1)
        refine ⟨n, s', now', ?_, hle', hkeeps', hlater, hleads.trans hleads'⟩
        simp only [StateSystem.flushLoop, hnext, happly]
        exact hloop
      · obtain ⟨n, s', now', hloop, hle', hkeeps', hlater, hleads'⟩ := ih hkeeps hdue hfuel' applied
        refine ⟨n, s', now', ?_, hle', hkeeps', hlater, hleads.trans hleads'⟩
        simp only [StateSystem.flushLoop, hnext, happly]
        exact hloop

/-- Recording moves on, with the pops that are due by then. -/
theorem Keeps.advanceTo (h : Keeps s now replays) (hle : now ≤ t) :
    ∃ s', StateSystem.advanceTo t s = .ok () s' ∧ Keeps s' t replays ∧
      (∀ c ∈ s'.deferred.changes, t < c.time) ∧
      Leads s s' ∧ s'.store.Reaches t t := by
  obtain ⟨n, s₁, now', hflush, hle', hkeeps, hlater, hleads⟩ := h.flushLoop hle (Nat.le_refl _) 0
  have hadvance : Store.advance t s₁.store = .ok () (s₁.store.reach t) :=
    advance_ok_iff.2 ⟨hkeeps.tracked.isOpen hle', rfl⟩
  refine ⟨s₁.publish (s₁.store.reach t), ?_,
    ⟨hkeeps.live, hkeeps.tracked.reach hle' fun c hc => ?_⟩, hlater,
    hleads.trans (Leads.single (a := .advance t) hadvance),
    reaches_reach (hkeeps.tracked.upTo.mono hle')⟩
  · exact (bind_of_ok hflush).trans (edit_of_ok hkeeps.live hadvance)
  · exact Int.le_of_lt (hlater c hc)

/-! ## Events -/

/-- The replays after an event. -/
def fed (replays : List String → Replay) (e : Event) : List String → Replay :=
  Function.update replays (path e) ((replays (path e)).feed e)

/-- Recording has come to the time of an event, and its stack `q` is there, with all pops made that
come first. -/
structure Prepared (s : StateSystem) (e : Event) (replays : List String → Replay) (q : Quark)
    (s' : StateSystem) :
    Prop where
  keeps : Keeps s' e.timestamp replays
  leads : Leads s s'
  located : s'.store.tree.descend .root (path e) = some q
  stacked : s'.store.Stacked q ((replays (path e)).catchUp e.timestamp).done
  done_le : ∀ o ∈ ((replays (path e)).catchUp e.timestamp).done, o.time ≤ e.timestamp
  due_eq : dueOf q s'.deferred.changes = ((replays (path e)).catchUp e.timestamp).due

/-- An event has been handled, and it is tracked what it has done. -/
structure Handled (s : StateSystem) (e : Event) (replays : List String → Replay)
    (s' : StateSystem) : Prop where
  keeps : Keeps s' e.timestamp (fed replays e)
  leads : Leads s s'
  located : e.name = "entry" ∨ e.name = "exit" → ∃ q, s'.store.tree.descend .root (path e) = some q

/-- The stack of an event is found, or is added if it is missing. -/
theorem Keeps.prepared (h : Keeps s e.timestamp replays)
    (hlater : ∀ c ∈ s.deferred.changes, e.timestamp < c.time) :
    ∃ q s', addPath (path e) s = .ok q s' ∧ Prepared s e replays q s' := by
  have hroot := h.tracked.linked.contains_root
  have hadd := add_ok_iff.2 ⟨hroot, Eq.refl (s.store.tree.grow .root (path e)).1, rfl⟩
  have hgrown := h.tracked.grown (length_path e)
  have hself := h.tracked.linked.descend_grow_self hroot (path e)
  obtain ⟨hstacked, hdone, hdue⟩ := (hgrown.plays (path e) _ (length_path e) hself).caughtUp hlater
  exact ⟨_, s.publish (s.store.grown .root (path e)), edit_of_ok h.live hadd, ⟨h.live, hgrown⟩,
    Leads.single (a := .add .root (path e)) (Step.add_edit_ok_iff.2 ⟨hroot, rfl⟩), hself,
    hstacked, hdone, hdue⟩

/-- An event is handled when its stack was touched as its replay was, and no other was. -/
theorem Prepared.handled (h : Prepared s e replays q s₁) (hlive : s'.disposed = false) {o : Touch}
    (ho : o.time = e.timestamp)
    (hfeed : ((replays (path e)).feed e).done =
      ((replays (path e)).catchUp e.timestamp).done ++ [o])
    (hstacked : s'.store.Stacked q (((replays (path e)).catchUp e.timestamp).done ++ [o]))
    (htouched : s₁.store.TouchedAt q e.timestamp s'.store)
    (hdue : dueOf q s'.deferred.changes = ((replays (path e)).feed e).due)
    (hother : ∀ q', q' ≠ q → dueOf q' s'.deferred.changes = dueOf q' s₁.deferred.changes)
    (hwaits : ∀ c ∈ s'.deferred.changes, Waits s₁.store.tree e.timestamp c)
    (hascending : s'.deferred.changes.Pairwise (·.time ≤ ·.time)) : Handled s e replays s' := by
  have htracked := h.keeps.tracked
  have hplays : Plays s'.store s'.deferred.changes e.timestamp q ((replays (path e)).feed e) := by
    refine ⟨_, hfeed ▸ hstacked, ?_, fun t _ => by rw [hdue]⟩
    rw [hfeed]
    exact List.forall_mem_append.2 ⟨h.done_le, List.forall_mem_singleton.2 (Int.le_of_eq ho)⟩
  have hkept :=
    htracked.touched (Int.le_refl _) (length_path e) h.located htouched hplays hother
    hwaits hascending
  refine ⟨⟨hlive, hkept⟩, h.leads.trans (.touched htouched), fun _ => ⟨q, ?_⟩⟩
  rw [descend_of_touchedAt htracked.linked (length_path e) h.located htouched (length_path e),
    h.located]

/-- The stack of an entry is there or is added, and its function is put on it. -/
structure Pushed (s : StateSystem) (e : Event) (replays : List String → Replay) (q : Quark)
    (s' : StateSystem) (store : Store) : Prop extends Prepared s e replays q s' where
  added : addPath (path e) s = .ok q s'
  pushed : Store.push e.timestamp (e.fieldValue "function") q s'.store = .ok () store
  stacked_pushed : store.Stacked q
    (((replays (path e)).catchUp e.timestamp).done ++ [.push e.timestamp (e.fieldValue "function")])
  touched : s'.store.TouchedAt q e.timestamp store

theorem Keeps.pushed (h : Keeps s e.timestamp replays)
    (hlater : ∀ c ∈ s.deferred.changes, e.timestamp < c.time)
    (hfits : Value.fitsLong (pushes (replays (path e)).done + 1) = true) :
    ∃ q s' store, Pushed s e replays q s' store := by
  obtain ⟨q, s₁, hadd, hprepared⟩ := h.prepared hlater
  have hheight : Value.fitsLong
      ((stackOf ((replays (path e)).catchUp e.timestamp).done).length + 1) = true := by
    have := length_stackOf_le ((replays (path e)).catchUp e.timestamp).done
    rw [pushes_catchUp] at this
    exact Value.fitsLong_of_le hfits (by omega) (by omega)
  obtain ⟨store, hpush, hstacked, htouched⟩ := hprepared.stacked.push
    (hprepared.keeps.tracked.isOpen (Int.le_refl _)) hprepared.done_le
      (e.fieldValue "function") hheight
  exact ⟨q, s₁, store, hprepared, hadd, hpush, hstacked, htouched⟩

/-- Once its function is on its stack, an entry has its end wait. -/
theorem Pushed.enter_eq {store : Store} (h : Pushed s e replays q s₁ store) :
    enter e s = .ok () { s₁.publish store with
      deferred := (e.fieldLong "end").elim s₁.deferred fun stop =>
        s₁.deferred.schedule ⟨stop, q, .null, .pop⟩ } := by
  refine (bind_of_ok h.added).trans ((bind_of_ok (edit_of_ok h.keeps.live h.pushed)).trans ?_)
  cases e.fieldLong "end" <;> rfl

/-- An entry puts its function on its stack and has its end wait. -/
theorem Keeps.entry (h : Keeps s e.timestamp replays) (hname : e.name = "entry")
    (hlater : ∀ c ∈ s.deferred.changes, e.timestamp < c.time)
    (hend : ∀ stop, e.fieldLong "end" = some stop → e.timestamp ≤ stop)
    (hfits : Value.fitsLong (pushes (replays (path e)).done + 1) = true) :
    ∃ s', enter e s = .ok () s' ∧ Handled s e replays s' := by
  obtain ⟨q, s₁, store, hpushed⟩ := h.pushed hlater hfits
  have h₁ := hpushed.keeps
  have hfeed := congrArg Replay.done (Replay.feed_entry (m := replays (path e)) hname)
  refine ⟨_, hpushed.enter_eq, ?_⟩
  cases hstop : e.fieldLong "end" with
  | none =>
    refine hpushed.handled h₁.live rfl hfeed hpushed.stacked_pushed hpushed.touched ?_
      (fun _ _ => rfl) h₁.tracked.waits h₁.tracked.ascending
    rw [Replay.feed_entry hname, hstop]
    exact hpushed.due_eq
  | some stop =>
    have hascending := h₁.tracked.ascending
    let c : Change := ⟨stop, q, .null, .pop⟩
    refine hpushed.handled h₁.live rfl hfeed hpushed.stacked_pushed hpushed.touched ?_
      (fun q' hq => ?_) (fun d hd => ?_) (Deferred.ascending_insert hascending)
    · rw [Replay.feed_entry hname, hstop, ← hpushed.due_eq]
      exact dueOf_insert_self (c := c) hascending
    · exact dueOf_insert_of_ne (c := c) (Ne.symm hq)
    · rcases Deferred.mem_insert.1 hd with rfl | hd
      · exact ⟨rfl, hend stop hstop, (Value.fitsLong_iff.1 (Event.fitsLong_fieldLong hstop)).2,
          path e, length_path e, hpushed.located⟩
      · exact h₁.tracked.waits d hd

/-- An exit takes a function off its stack, or finds none. -/
theorem Keeps.exit (h : Keeps s e.timestamp replays) (hname : e.name = "exit")
    (hlater : ∀ c ∈ s.deferred.changes, e.timestamp < c.time) :
    ∃ s', (leave e s = .ok () s' ∨ ∃ q, leave e s = .error (.stackUnderflow q e.timestamp) s') ∧
      Handled s e replays s' := by
  obtain ⟨q, s₁, hadd, hprepared⟩ := h.prepared hlater
  have h₁ := hprepared.keeps
  obtain ⟨store, hpop, hstacked, htouched⟩ :=
    hprepared.stacked.popped (h₁.tracked.isOpen (Int.le_refl _)) hprepared.done_le
  have hfeed := congrArg Replay.done (Replay.feed_exit (m := replays (path e)) hname)
  have hdue := congrArg Replay.due (Replay.feed_exit (m := replays (path e)) hname)
  refine ⟨s₁.publish store, ?_,
    hprepared.handled h₁.live rfl hfeed hstacked htouched (hprepared.due_eq.trans hdue.symm)
    (fun _ _ => rfl) h₁.tracked.waits h₁.tracked.ascending⟩
  have hleft : leave e s = discard (edit (Store.pop e.timestamp q)) s₁ := bind_of_ok hadd
  rw [hleft]
  rcases hpop with ⟨v, hpop⟩ | hpop
  · exact Or.inl (discard_of_ok (edit_of_ok h₁.live hpop))
  · exact Or.inr ⟨q, discard_of_error (edit_of_error h₁.live hpop)⟩

/-- **Every event can be handled** once recording has come to its time, or finds its stack empty. -/
theorem Keeps.handle (h : Keeps s e.timestamp replays)
    (hlater : ∀ c ∈ s.deferred.changes, e.timestamp < c.time)
    (hend : e.name = "entry" → ∀ stop, e.fieldLong "end" = some stop → e.timestamp ≤ stop)
    (hfits : Value.fitsLong (pushes (replays (path e)).done + 1) = true) :
    ∃ s', (CallStack.handle e s = .ok () s' ∨ ∃ q,
      CallStack.handle e s = .error (.stackUnderflow q e.timestamp) s') ∧
      Handled s e replays s' := by
  by_cases hentry : e.name = "entry"
  · have hhandle : CallStack.handle e = enter e := by simp [CallStack.handle, hentry]
    obtain ⟨s', hs', hhandled⟩ := h.entry hentry hlater (hend hentry) hfits
    exact ⟨s', Or.inl (by rw [hhandle, hs']), hhandled⟩
  by_cases hexit : e.name = "exit"
  · have hhandle : CallStack.handle e = leave e := by simp [CallStack.handle, hexit]
    rw [hhandle]
    exact h.exit hexit hlater
  · have hhandle : CallStack.handle e = pure () := by simp [CallStack.handle]
    refine ⟨s, Or.inl (by rw [hhandle]; rfl), ⟨h.live, ?_⟩, Leads.refl s, fun hname => ?_⟩
    · unfold fed
      rw [Replay.feed_other hentry hexit]
      exact h.tracked.caughtUp (path e)
    · exact absurd hname (not_or.2 ⟨hentry, hexit⟩)

/-- **Every event can be recorded.** -/
theorem Keeps.record (h : Keeps s now replays) (hle : now ≤ e.timestamp)
    (hend : e.name = "entry" → ∀ stop, e.fieldLong "end" = some stop → e.timestamp ≤ stop)
    (hfits : Value.fitsLong (pushes (replays (path e)).done + 1) = true) :
    ∃ s', Analysis.record CallStack.handle e s = .ok () s' ∧ Keeps s' e.timestamp (fed replays e) ∧
      Leads s s' ∧
      Seen s'.store e := by
  obtain ⟨s₁, hadvance, h₁, hlater, hleads, hreaches⟩ := h.advanceTo hle
  obtain ⟨s', hhandle, hhandled⟩ := h₁.handle hlater hend hfits
  obtain ⟨steps, htrail⟩ := hhandled.leads
  refine ⟨s', ?_, hhandled.keeps, hleads.trans hhandled.leads,
    hreaches.trail htrail hhandled.keeps.tracked.building, hhandled.located⟩
  rcases hhandle with hhandle | ⟨q, hhandle⟩
  · exact Analysis.record_of_ok hadvance hhandle
  · exact Analysis.record_of_passed hadvance hhandle rfl

/-- **All events can be recorded**, and each stack is then what the replay of its own events comes
to. -/
theorem Keeps.recorded (h : Keeps s now replays) {bound : Time} (hbound : now ≤ bound)
    (hascending : events.Pairwise (·.timestamp ≤ ·.timestamp))
    (hnow : ∀ e ∈ events, now ≤ e.timestamp) (hbounds : ∀ e ∈ events, e.timestamp ≤ bound)
    (hends : ∀ e ∈ events, e.name = "entry" → ∀ stop, e.fieldLong "end" = some stop →
      e.timestamp ≤ stop)
    (hfits : ∀ p, Value.fitsLong (pushes (replays p).done + events.length) = true) :
    ∃ s' now', events.forM (Analysis.record CallStack.handle) s = .ok () s' ∧ now' ≤ bound ∧
      Keeps s' now' (fun p => (events.filter (path · = p)).foldl Replay.feed
        (replays p)) ∧ Leads s s' ∧
      ∀ e ∈ events, Seen s'.store e := by
  induction events generalizing s now replays with
  | nil => exact ⟨s, now, rfl, hbound, h, Leads.refl s, by simp⟩
  | cons e events ih =>
    obtain ⟨hlate, hrest⟩ := List.pairwise_cons.1 hascending
    rw [List.length_cons] at hfits
    have hfirst : Value.fitsLong (pushes (replays (path e)).done + 1) = true :=
      Value.fitsLong_of_le (hfits (path e)) (by omega) (by omega)
    obtain ⟨s₁, hrecord, h₁, hleads, hseen⟩ :=
      h.record (hnow e (by simp)) (hends e (by simp)) hfirst
    have hfits' : ∀ p, Value.fitsLong (pushes (fed replays e p).done + events.length) = true := by
      intro p
      have hfed : pushes (fed replays e p).done ≤ pushes (replays p).done + 1 := by
        unfold fed
        by_cases hpe : p = path e
        · rw [hpe, Function.update_self]
          exact pushes_feed_le _ e
        · rw [Function.update_of_ne hpe]
          exact Nat.le_succ _
      exact Value.fitsLong_of_le (hfits p) (by omega) (by omega)
    obtain ⟨s', now', hforM, hle, hkeeps, hleads', hseens⟩ :=
      ih h₁ (hbounds e (by simp)) hrest hlate
      (fun e' he' => hbounds e' (by simp [he'])) (fun e' he' => hends e' (by simp [he'])) hfits'
    refine ⟨s', now', (bind_of_ok hrecord).trans hforM, hle, ?_, hleads.trans hleads',
      fun e' he' => ?_⟩
    · convert hkeeps using 2 with p
      by_cases hpe : path e = p
      · rw [List.filter_cons_of_pos (by simp [hpe]), List.foldl_cons, ← hpe]
        simp [fed]
      · rw [List.filter_cons_of_neg (by simp [hpe])]
        simp [fed, Function.update_of_ne (Ne.symm hpe)]
    · rcases List.mem_cons.1 he' with rfl | he'
      · obtain ⟨steps, htrail⟩ := hleads'
        exact hseen.trail htrail h₁.tracked.linked hkeeps.tracked.building
      · exact hseens e' he'

/-! ## Closing -/

/-- The state system can be closed, and no pop waits then. -/
theorem Keeps.closing (h : Keeps s now replays) (hle : now ≤ Time.latest) :
    ∃ s' store now', Analysis.closing true s = .ok () s' ∧ s'.disposed = false ∧
      s'.store = store.ended (store.stop.elim 0 Time.after) ∧ Tracked store [] now' replays ∧
      ∃ steps, Trail s.store steps store := by
  obtain ⟨n, s₁, now', hflush, hle', h₁, hlater, hleads⟩ := h.flushLoop hle (Nat.le_refl _) 0
  have hnone : s₁.deferred.changes = [] := by
    refine List.eq_nil_iff_forall_not_mem.2 fun c hc => ?_
    exact Int.not_lt.2 (h₁.tracked.waits c hc).le_latest (hlater c hc)
  have htracked := h₁.tracked
  rw [hnone] at htracked
  have hclose := Analysis.closeAtStop_ok h₁.live fun stop hs =>
    Int.le_trans (htracked.upTo.stop_le stop hs) hle'
  exact ⟨_, s₁.store, now', (bind_of_ok hflush).trans hclose, h₁.live, rfl, htracked, hleads⟩

end

end StateHistory.CallStack
