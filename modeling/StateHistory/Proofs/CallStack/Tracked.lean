import Mathlib.Logic.Function.Basic
import StateHistory.Proofs.CallStack.Replay
import StateHistory.Proofs.Deferred
import StateHistory.Proofs.StateSystem.Reached

/-!
# Stacks of all threads in one store

The stacks of all threads lie in one store and their pops wait in one queue. Each stack with the
pops that wait for it is a replay of its own, and what has been made so far of its pops does not
matter: it is `Tracked` that both would come to the same from now on.
-/

namespace StateHistory.CallStack

open Store Touch

/-- How long the paths of stacks are. -/
def stackDepth : Nat := 4

theorem length_path (e : Event) : (path e).length = stackDepth := rfl

/-- The times of the changes of `q` that wait, in their order. -/
def dueOf (q : Quark) (changes : List Change) : List Time :=
  (changes.filter (·.quark = q)).map (·.time)

/-- From `now` on the stack `q` and the pops that wait for it come to what `m` comes to. -/
def Plays (store : Store) (changes : List Change) (now : Time) (q : Quark) (m : Replay) : Prop :=
  ∃ done, store.Stacked q done ∧ (∀ o ∈ done, o.time ≤ now) ∧
    ∀ t, now ≤ t → Replay.catchUp ⟨done, dueOf q changes⟩ t = m.catchUp t

/-- A change that waits is a pop of the stack of some thread, and its time has not passed. -/
structure Waits (tree : Tree) (now : Time) (c : Change) : Prop where
  kind_eq : c.kind = .pop
  now_le : now ≤ c.time
  le_latest : c.time ≤ Time.latest
  located : ∃ p, p.length = stackDepth ∧ tree.descend .root p = some c.quark

/-- A store and the changes that wait are, for each thread, what its replay has come to by `now`. -/
structure Tracked (store : Store) (changes : List Change) (now : Time)
    (replays : List String → Replay) : Prop where
  building : store.closed = false
  sound : store.Sound
  linked : store.tree.Linked
  upTo : store.UpTo now
  plays : ∀ p q, p.length = stackDepth → store.tree.descend .root p = some q →
    Plays store changes now q (replays p)
  absent : ∀ p, p.length = stackDepth → store.tree.descend .root p = none → replays p = {}
  waits : ∀ c ∈ changes, Waits store.tree now c
  ascending : changes.Pairwise (·.time ≤ ·.time)

section
variable {store store' : Store} {changes changes' : List Change} {now t : Time}
  {replays : List String → Replay} {p way : List String} {q x : Quark} {m : Replay} {c : Change}

theorem tracked_new (now : Time) : Tracked .new [] now fun _ => {} := by
  refine ⟨rfl, sound_new, Tree.linked_empty, upTo_new now, ?_, fun _ _ _ => rfl, by simp, .nil⟩
  intro p q hp hd
  cases p with
  | nil => cases hp
  | cons name p => cases hd

/-! ## Paths of stacks -/

/-- A touch adds no path of a stack. -/
theorem descend_of_touchedAt (hl : store.tree.Linked) (hway : way.length = stackDepth)
    (hx : store.tree.descend .root way = some x) (ht : store.TouchedAt x t store')
    (hp : p.length = stackDepth) :
    store'.tree.descend .root p = store.tree.descend .root p := by
  obtain ⟨steps, ht, hsteps⟩ := ht
  cases hd : store.tree.descend .root p with
  | some q => exact ht.descend hl hd
  | none =>
    have hkept := ht.induct_of (Q := (·.IsTouch store'.tree x t)) (P := fun r => r.tree.Linked ∧
      r.tree.descend .root way = some x ∧ r.tree.descend .root p = none) ?_ hsteps ⟨hl, hx, hd⟩
    · exact hkept.2.2
    · rintro s s' a ha ⟨hl, hx, hd⟩ htakes
      cases htakes with
      | @add base path hb =>
        obtain ⟨rfl, hpath⟩ := ha
        refine ⟨hl.grow hb path, hl.descend_grow hb path way .root hx, ?_⟩
        rw [tree_grown]
        cases hnew : (s.tree.grow base path).2.descend .root p with
        | none => rfl
        | some q =>
          -- the slot's path is longer than a stack's
          rcases hl.descend_grow_cases hx path hnew with hold | ⟨rest, hrest⟩
          · rw [hd] at hold
            cases hold
          · have heq : p = way := List.append_inj_left hrest (hp.trans hway.symm)
            rw [heq, hx] at hd
            cases hd
      | advance _ => exact ha.elim
      | write _ =>
        simp only [tree_wrote]
        exact ⟨hl, hx, hd⟩
      | amend _ => exact ha.elim
      | close _ => exact ha.elim

/-! ## What is due for a stack -/

/-- Only the changes of an attribute itself are seen in what is due for it. -/
theorem dueOf_cons :
    dueOf q (c :: changes) = if c.quark = q then c.time :: dueOf q changes
      else dueOf q changes := by
  unfold dueOf
  rw [List.filter_cons]
  split <;> simp_all

theorem dueOf_insert_of_ne (hne : c.quark ≠ q) :
    dueOf q (Deferred.insert c changes) = dueOf q changes := by
  induction changes with
  | nil => simp [Deferred.insert, dueOf_cons, hne]
  | cons e rest ih =>
    unfold Deferred.insert
    split
    · rw [dueOf_cons, dueOf_cons, ih]
    · rw [dueOf_cons, if_neg hne]

theorem dueOf_insert_self (h : changes.Pairwise (·.time ≤ ·.time)) :
    dueOf c.quark (Deferred.insert c changes) = Replay.enqueue c.time (dueOf c.quark changes) := by
  induction changes with
  | nil => simp [Deferred.insert, dueOf, Replay.enqueue]
  | cons e rest ih =>
    have hrest := (List.pairwise_cons.1 h).2
    unfold Deferred.insert
    by_cases hle : e.time ≤ c.time
    · rw [if_pos hle, dueOf_cons, dueOf_cons, ih hrest]
      split
      · simp [Replay.enqueue, hle]
      · rfl
    · rw [if_neg hle, dueOf_cons, if_pos rfl, Replay.enqueue_of_lt]
      intro t ht
      obtain ⟨d, hd, rfl⟩ := List.mem_map.1 ht
      exact Deferred.lt_of_lt_head h (Int.not_le.1 hle) d (List.mem_of_mem_filter hd)

/-! ## Steps that keep track -/

theorem Tracked.isOpen (h : Tracked store changes now replays) (hle : now ≤ t) : store.Open t :=
  ⟨h.building, fun start hs => Int.le_trans (h.upTo.start_le start hs) hle⟩

/-- When all that waits comes later, the stack and its pops are what the replay has come to. -/
theorem Plays.caughtUp (h : Plays store changes t q m) (hlater : ∀ c ∈ changes, t < c.time) :
    store.Stacked q (m.catchUp t).done ∧ (∀ o ∈ (m.catchUp t).done, o.time ≤ t) ∧
      dueOf q changes = (m.catchUp t).due := by
  obtain ⟨done, hstacked, hle, heq⟩ := h
  have hpending : ∀ d ∈ dueOf q changes, t < d := by
    intro d hd
    obtain ⟨c, hc, rfl⟩ := List.mem_map.1 hd
    exact hlater c (List.mem_of_mem_filter hc)
  rw [← heq t (Int.le_refl t), Replay.catchUp_of_pending hpending]
  exact ⟨hstacked, hle, rfl⟩

/-- It may be told of a replay that it has caught up. -/
theorem Tracked.caughtUp (h : Tracked store changes now replays) (way : List String) :
    Tracked store changes now (Function.update replays way ((replays way).catchUp now)) := by
  refine ⟨h.building, h.sound, h.linked, h.upTo, fun p q hp hd => ?_, fun p hp hd => ?_,
    h.waits, h.ascending⟩
  · by_cases hpw : p = way
    · subst hpw
      obtain ⟨done, hstacked, hdone, heq⟩ := h.plays p q hp hd
      rw [Function.update_self]
      exact ⟨done, hstacked, hdone, fun t ht => by rw [heq t ht, Replay.catchUp_catchUp ht]⟩
    · rw [Function.update_of_ne hpw]
      exact h.plays p q hp hd
  · by_cases hpw : p = way
    · subst hpw
      rw [Function.update_self, h.absent p hp hd]
      rfl
    · rw [Function.update_of_ne hpw]
      exact h.absent p hp hd

/-- **A touch of one stack keeps track of all** when the replay of its thread comes to the same. -/
theorem Tracked.touched (h : Tracked store changes now replays) (hle : now ≤ t)
    (hway : way.length = stackDepth) (hx : store.tree.descend .root way = some x)
    (ht : store.TouchedAt x t store') (hplays : Plays store' changes' t x m)
    (hdue : ∀ q, q ≠ x → dueOf q changes' = dueOf q changes)
    (hwaits : ∀ c ∈ changes', Waits store.tree t c)
    (hascending : changes'.Pairwise (·.time ≤ ·.time)) :
    Tracked store' changes' t (Function.update replays way m) := by
  have hsame := fun p => descend_of_touchedAt (p := p) h.linked hway hx ht
  obtain ⟨steps, htrail, -⟩ := id ht
  have hlinked := htrail.linked h.linked
  refine ⟨ht.closed_eq.trans h.building, htrail.induct Sound.takes h.sound, hlinked,
    ht.upTo h.building (h.upTo.mono hle),
    fun p q hp hd => ?_, fun p hp hd => ?_, fun c hc => ?_, hascending⟩
  · by_cases hpw : p = way
    · subst hpw
      rw [hsame p hp, hx, Option.some.injEq] at hd
      rw [Function.update_self, ← hd]
      exact hplays
    · rw [Function.update_of_ne hpw]
      have hx' : store'.tree.descend .root way = some x := (hsame way hway).trans hx
      obtain ⟨hne, hnot, hslots⟩ := hlinked.apart (hway.trans hp.symm) (Ne.symm hpw) hx' hd
      rw [hsame p hp] at hd
      obtain ⟨done, hstacked, hdone, heq⟩ := h.plays p q hp hd
      refine ⟨done, hstacked.of_touchedAt ht h.building hne hnot hslots,
        fun o ho => Int.le_trans (hdone o ho) hle, fun t' ht' => ?_⟩
      rw [hdue q (Ne.symm hne)]
      exact heq t' (Int.le_trans hle ht')
  · rw [hsame p hp] at hd
    have hpw : p ≠ way := by
      rintro rfl
      rw [hx] at hd
      cases hd
    rw [Function.update_of_ne hpw]
    exact h.absent p hp hd
  · obtain ⟨hkind, hnow, hlatest, p, hp, hd⟩ := hwaits c hc
    exact ⟨hkind, hnow, hlatest, p, hp, htrail.descend h.linked hd⟩

/-- A step that writes no attribute keeps what is told about a stack. -/
theorem Plays.unwritten (h : Plays store changes now q m) {a : Step}
    (ha : a.edit store = .ok () store') (hc : store'.closed = false) (hnone : a.target? = none)
    (hle : now ≤ t) : Plays store' changes t q m := by
  obtain ⟨done, hstacked, hdone, heq⟩ := h
  refine ⟨done, hstacked.of_spared (.single ha) hc ?_, fun o ho => Int.le_trans (hdone o ho) hle,
    fun t' ht' => heq t' (Int.le_trans hle ht')⟩
  intro b hb q hq
  rw [List.mem_singleton.1 hb, hnone] at hq
  cases hq

/-- Recording may move on to a time that no waiting pop comes before. -/
theorem Tracked.reach (h : Tracked store changes now replays) (hle : now ≤ t)
    (hlater : ∀ c ∈ changes, t ≤ c.time) :
    Tracked (store.reach t) changes t replays := by
  have ha : (Step.advance t).edit store = .ok () (store.reach t) :=
    advance_ok_iff.2 ⟨h.isOpen hle, rfl⟩
  have hc : (store.reach t).closed = false := by simp [h.building]
  refine ⟨hc, h.sound.takes (Step.takes_of_edit ha), by simpa using h.linked,
    (h.upTo.mono hle).reach (Int.le_refl t),
    fun p q hp hd => ?_, fun p hp hd => ?_, fun c hc => ?_, h.ascending⟩
  · rw [tree_reach] at hd
    exact (h.plays p q hp hd).unwritten ha hc rfl hle
  · rw [tree_reach] at hd
    exact h.absent p hp hd
  · obtain ⟨hkind, -, hlatest, hlocated⟩ := h.waits c hc
    exact ⟨hkind, hlater c hc, hlatest, by rwa [tree_reach]⟩

/-- A stack may be added that was not there. -/
theorem Tracked.grown (h : Tracked store changes now replays) (hway : way.length = stackDepth) :
    Tracked (store.grown .root way) changes now replays := by
  have hroot := h.linked.contains_root
  have ha : (Step.add .root way).edit store = .ok () (store.grown .root way) :=
    Step.add_edit_ok_iff.2 ⟨hroot, rfl⟩
  have hsound := h.sound.takes (Step.takes_of_edit ha)
  have hlinked := h.linked.grow hroot way
  refine ⟨h.building, hsound, hlinked, ⟨h.upTo.start_le, h.upTo.stop_le⟩, fun p q hp hd => ?_,
    fun p hp hd => ?_, fun c hc => ?_, h.ascending⟩
  · cases hold : store.tree.descend .root p with
    | some q' =>
      rw [tree_grown, h.linked.descend_grow hroot way p .root hold, Option.some.injEq] at hd
      exact hd ▸ (h.plays p q' hp hold).unwritten ha h.building rfl (Int.le_refl now)
    | none =>
      have hstart : store.tree.descend .root [] = some .root := rfl
      rcases h.linked.descend_grow_cases hstart way hd with hd' | hprefix
      · rw [hold] at hd'
        cases hd'
      have hpw : p = way := List.IsPrefix.eq_of_length hprefix (hp.trans hway.symm)
      subst hpw
      have hself := h.linked.descend_grow_self hroot p
      obtain rfl : (store.tree.grow .root p).1 = q := Option.some.inj (hself.symm.trans hd)
      obtain ⟨hnew, hchildren⟩ := h.linked.grow_new hroot p hold
      have hempty : (store.grown .root p).timelineOf (store.tree.grow .root p).1 = {} := by
        rw [timelineOf_grown]
        exact h.sound.covered.timelineOf_new hnew
      have hdue : dueOf (store.tree.grow .root p).1 changes = [] := by
        simp only [dueOf, List.map_eq_nil_iff, List.filter_eq_nil_iff, decide_eq_true_eq]
        rintro c hc hq
        -- what waits is about attributes that were there
        obtain ⟨-, -, -, p', -, hd'⟩ := h.waits c hc
        have hin := h.linked.contains_descend p' hroot hd'
        rw [hq] at hin
        have hlt : (store.tree.grow .root p).1.index < store.tree.size := of_decide_eq_true hin
        omega
      refine ⟨[], stacked_nil hsound hlinked
        (hlinked.contains_descend p hlinked.contains_root hself) hchildren hempty,
        by simp, fun t _ => ?_⟩
      rw [hdue, h.absent p hp hold]
  · cases hold : store.tree.descend .root p with
    | some q =>
      rw [tree_grown, h.linked.descend_grow hroot way p .root hold] at hd
      cases hd
    | none => exact h.absent p hp hold
  · obtain ⟨hkind, hnow, hlatest, p, hp, hd⟩ := h.waits c hc
    exact ⟨hkind, hnow, hlatest, p, hp, h.linked.descend_grow hroot way p .root hd⟩

/-! ## Looking back -/

/-- A query after closing finds the top of what a replay comes to once there are no more events. -/
theorem Tracked.top_ended (h : Tracked store [] now replays) (hp : p.length = stackDepth)
    (hd : store.tree.descend .root p = some q) {first last : Time}
    (hreaches : store.Reaches first last) (hfirst : first ≤ t) (hlast : t ≤ last)
    (hlatest : last < Time.latest) :
    ∃ found, Store.top t q (store.ended (store.stop.elim 0 Time.after)) = .ok found ∧
      found.map (·.value) = (stackBy (replays p).finish t).head? := by
  obtain ⟨hstacked, -, hdue⟩ := (h.plays p q hp hd).caughtUp (by simp)
  rw [Replay.done_catchUp hdue.symm] at hstacked
  obtain ⟨hlt, hreach⟩ := hreaches.ended hfirst hlast hlatest
  exact hstacked.top_ended hlt hreach

end

end StateHistory.CallStack
