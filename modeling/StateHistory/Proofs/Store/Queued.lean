import Mathlib.Data.List.GetD
import StateHistory.Proofs.Store.Slots

/-!
# Attributes used as queues

An attribute whose children only offers and polls write simulates a queue of values, at present and
at every time of the past: its slots hold the values from the head on, each in the slot of its
place, and all further slots are null (`Queued`). Nothing records how long the queue is, but none of
its values is null, and so the slots themselves tell (`Queued.values_slots`).
-/

namespace StateHistory

/-- A use of an attribute as a queue. -/
inductive Queueing where
  | offer (t : Time) (v : Value)
  | poll (t : Time)
deriving DecidableEq, Repr

namespace Queueing

def time : Queueing → Time
  | offer t _ => t
  | poll t => t

/-- What a use does to a queue. An empty queue stays empty when it is polled. -/
def act (queue : List Value) : Queueing → List Value
  | offer _ v => queue ++ [v]
  | poll _ => queue.tail

/-- The value that a use puts into the queue. -/
def value? : Queueing → Option Value
  | offer _ v => some v
  | poll _ => none

/-- The queue after some uses, its head first. -/
def queueOf (past : List Queueing) : List Value := past.foldl act []

/-- The queue after those of some uses that come by `t`. -/
def queueBy (past : List Queueing) (t : Time) : List Value := queueOf (past.filter (·.time ≤ t))

section
variable {past : List Queueing} {t : Time}

theorem queueOf_append (past : List Queueing) (o : Queueing) :
    queueOf (past ++ [o]) = o.act (queueOf past) := by
  simp [queueOf]

theorem queueBy_append (past : List Queueing) (o : Queueing) (t : Time) :
    queueBy (past ++ [o]) t = if o.time ≤ t then o.act (queueBy past t) else queueBy past t :=
  Time.foldl_by_append Queueing.time act [] past o t

theorem queueBy_of_late (h : ∀ o ∈ past, o.time ≤ t) : queueBy past t = queueOf past := by
  rw [queueBy, Time.filter_by_of_late Queueing.time h]

/-- What a use at the end does that comes no earlier than the others. -/
theorem queueBy_append_of_late {o : Queueing} (h : ∀ p ∈ past, p.time ≤ o.time) (t : Time) :
    queueBy (past ++ [o]) t = if o.time ≤ t then o.act (queueOf past) else queueBy past t := by
  rw [queueBy_append]
  split
  · rw [queueBy_of_late fun p hp => Int.le_trans (h p hp) ‹_›]
  · rfl

end

/-! ## What a queue answers -/

/-- What a queue answers to a use: its head to a poll, null if there is none. -/
def answer (queue : List Value) : Queueing → Option Value
  | offer _ _ => none
  | poll _ => some (queue.headD .null)

/-- What a queue answers to some uses, one after the other. -/
def answers (queue : List Value) : List Queueing → List (Option Value)
  | [] => []
  | o :: uses => o.answer queue :: answers (o.act queue) uses

/-- **First in, first out.** The values that polls answer, but for null, and behind them those that
are in the queue at the end, are those that were in the queue at first and behind them those that
were offered. -/
theorem answers_append_queue (queue : List Value) (hq : .null ∉ queue) (uses : List Queueing)
    (hu : ∀ o ∈ uses, o.value? ≠ some .null) :
    ((answers queue uses).filterMap id).filter (· ≠ .null) ++ uses.foldl act queue =
      queue ++ uses.filterMap value? := by
  induction uses generalizing queue with
  | nil => simp [answers]
  | cons o uses ih =>
    have hrest := fun p hp => hu p (List.mem_cons_of_mem o hp)
    cases o with
    | offer t v =>
      have hv : v ≠ .null := fun hv => hu (.offer t v) (List.mem_cons_self ..) (by rw [hv]; rfl)
      have := ih (queue ++ [v]) (by simpa [hv.symm] using hq) hrest
      simpa [answers, answer, act, value?] using this
    | poll t =>
      have hnone : (poll t :: uses).filterMap value? = uses.filterMap value? :=
        List.filterMap_cons_none rfl
      rw [hnone]
      cases queue with
      | nil => simpa [answers, answer, act] using ih [] hq hrest
      | cons v queue =>
        rw [List.mem_cons, not_or] at hq
        have := ih queue hq.2 hrest
        simpa [answers, answer, act, Ne.symm hq.1] using this

end Queueing

namespace Store

open Edit Call Queueing

/-! ## The simulation -/

/-- The slots of `x` show the queue that the uses so far have led to, at every time, and no value of
a child begins after the last of them. -/
structure Queued (s : Store) (x : Quark) (past : List Queueing) : Prop where
  sound : s.Sound
  linked : s.tree.Linked
  contained : s.tree.contains x = true
  value : ∀ t i c, slotOf s.tree x (i + 1) = some c →
    (s.timelineOf c).valueAt t = (queueBy past t).getD i .null
  filled : ∀ t i, i < (queueBy past t).length → ∃ c, slotOf s.tree x (i + 1) = some c
  solid : ∀ t, .null ∉ queueBy past t
  recent : ∀ c ∈ s.tree.childrenOf x, ∀ o, (s.timelineOf c).ongoing = some o → ∃ p ∈ past,
    o.start ≤ p.time

section
variable {s s' : Store} {x c : Quark} {past : List Queueing} {t : Time} {v : Value} {i : Nat}

/-- An attribute without children is an empty queue. -/
theorem queued_nil (hs : s.Sound) (hl : s.tree.Linked) (hx : s.tree.contains x = true)
    (hchildren : s.tree.childrenOf x = []) : s.Queued x [] := by
  have hnone : ∀ c, c ∉ s.tree.childrenOf x := by simp [hchildren]
  exact ⟨hs, hl, hx, fun _ _ c hc => absurd (mem_of_slotOf hc) (hnone c),
    fun _ _ h => absurd h (Nat.not_lt_zero _),
    fun _ => List.not_mem_nil, fun c hc => absurd hc (hnone c)⟩

/-- Places without a slot are not taken. -/
theorem Queued.getD_of_none (h : s.Queued x past) (hnone : slotOf s.tree x (i + 1) = none)
    (t : Time) :
    (queueBy past t).getD i .null = .null := by
  refine List.getD_eq_default _ _ (Nat.le_of_not_lt fun hlt => ?_)
  obtain ⟨c, hc⟩ := h.filled t i hlt
  rw [hnone] at hc
  cases hc

/-- What writes no child of the queue keeps the simulation. -/
theorem Queued.of_spared (h : s.Queued x past) {steps : List Step} (ht : Trail s steps s')
    (hc : s'.closed = false)
    (hspares : ∀ a ∈ steps, ∀ q, a.target? = some q → q ∉ s'.tree.childrenOf x) :
    s'.Queued x past := by
  have heq : ∀ c ∈ s'.tree.childrenOf x, s'.timelineOf c = s.timelineOf c := fun c hmem =>
    ht.timelineOf_eq h.sound.covered hc fun a ha htarget => hspares a ha c htarget hmem
  refine ⟨ht.induct Sound.takes h.sound, ht.linked h.linked, ht.contains h.linked h.contained,
    fun t i c hslot => ?_, fun t i hi => ?_, h.solid, fun c hmem o ho => ?_⟩
  · rw [heq c (mem_of_slotOf hslot)]
    rcases ht.child?_cases h.linked hslot with hold | hnew
    · exact h.value t i c hold
    · -- the slot has come on the way, so there was none before
      have hnone : slotOf s.tree x (i + 1) = none := by
        cases hold : slotOf s.tree x (i + 1) with
        | none => rfl
        | some c' =>
          obtain rfl : c' = c := Option.some.inj ((ht.child? h.linked hold).symm.trans hslot)
          have hlt : c'.index < s.tree.size :=
            of_decide_eq_true (h.linked.contains_of_mem (mem_of_slotOf hold))
          exact absurd hlt (Nat.not_lt.2 hnew)
      rw [h.getD_of_none hnone, h.sound.covered.timelineOf_new hnew,
        (Timeline.seamless_empty c).valueAt_of_none (by simp) (by simp)]
  · obtain ⟨c, hslot⟩ := h.filled t i hi
    exact ⟨c, ht.child? h.linked hslot⟩
  · rw [heq c hmem] at ho
    rcases ht.mem_childrenOf h.linked hmem with hmem | hnew
    · exact h.recent c hmem o ho
    · rw [h.sound.covered.timelineOf_new hnew] at ho
      cases ho

/-! ## The queue at present -/

theorem Queued.ready (h : s.Queued x past) (hlate : ∀ p ∈ past, p.time ≤ t)
    (hc : c ∈ s.tree.childrenOf x) :
    ∀ o, (s.timelineOf c).ongoing = some o → o.start ≤ t := by
  intro o ho
  obtain ⟨p, hp, hle⟩ := h.recent c hc o ho
  exact Int.le_trans hle (hlate p hp)

/-- The children can be written from the last use on. -/
theorem Queued.writable (h : s.Queued x past) (ho : s.Open t) (hlate : ∀ p ∈ past, p.time ≤ t)
    (hc : c ∈ s.tree.childrenOf x) : s.Writable c t :=
  ⟨ho, h.sound.covered.contains_iff.1 (h.linked.contains_of_mem hc),
    (h.sound.growing ho.building c).onTime (h.ready hlate hc)⟩

theorem Queued.valueOf_eq (h : s.Queued x past) (hc : s.closed = false)
    (hslot : slotOf s.tree x (i + 1) = some c) :
    s.valueOf c = (queueOf past).getD i .null := by
  obtain ⟨t, hlate⟩ := Time.exists_late Queueing.time past
  have hready := h.ready hlate (mem_of_slotOf hslot)
  rw [← queueBy_of_late hlate, ← h.value t i c hslot]
  exact ((h.sound.seamless c).valueAt_eq_value (h.sound.growing hc c) hready).symm

theorem Queued.null_notMem (h : s.Queued x past) : .null ∉ queueOf past := by
  obtain ⟨t, hlate⟩ := Time.exists_late Queueing.time past
  rw [← queueBy_of_late hlate]
  exact h.solid t

theorem Queued.exists_slot (h : s.Queued x past) (hi : i < (queueOf past).length) :
    ∃ c, slotOf s.tree x (i + 1) = some c := by
  obtain ⟨t, hlate⟩ := Time.exists_late Queueing.time past
  rw [← queueBy_of_late hlate] at hi
  exact h.filled t i hi

/-- The walk over the slots finds one for each value. -/
theorem Queued.length_slots (h : s.Queued x past) (hc : s.closed = false) :
    (s.slots x).length = (queueOf past).length := by
  rcases Nat.lt_trichotomy (s.slots x).length (queueOf past).length with hlt | heq | hlt
  · -- the walk would have gone on
    obtain ⟨c, hslot⟩ := h.exists_slot hlt
    have hend := slot?_length_slots h.linked h.contained
    have hnull : s.valueOf c ≠ .null := by
      rw [h.valueOf_eq hc hslot, List.getD_eq_getElem _ _ hlt]
      exact fun hnull => h.null_notMem (hnull ▸ List.getElem_mem hlt)
    rw [(slot?_eq_some_iff h.contained).2 ⟨hslot, hnull⟩] at hend
    cases hend
  · exact heq
  · -- a slot behind the queue would hold a value
    obtain ⟨hslot, hnull⟩ :=
      (slot?_eq_some_iff h.contained).1 (slot?_slots (List.getElem?_eq_getElem hlt))
    rw [h.valueOf_eq hc hslot, List.getD_eq_default _ _ (Nat.le_refl _)] at hnull
    exact absurd rfl hnull

/-- **The slots hold the queue.** -/
theorem Queued.values_slots (h : s.Queued x past) (hc : s.closed = false) :
    (s.slots x).map s.valueOf = queueOf past := by
  have hlen := h.length_slots hc
  refine List.ext_getElem (by rw [List.length_map, hlen]) fun i hi hi' => ?_
  rw [List.length_map] at hi
  have hslot := slotOf_slots h.contained (List.getElem?_eq_getElem hi)
  rw [List.getElem_map, h.valueOf_eq hc hslot, List.getD_eq_getElem _ _ hi']

theorem peek_eq (hx : s.tree.contains x = true) :
    peek x s = .ok ((slotOf s.tree x 1).elim .null s.valueOf) := by
  unfold peek
  rw [checkQuark_ok_iff (u := ()) |>.2 hx, ← find?_slotName hx]
  rfl

/-- **Looking at the head** finds it. -/
theorem Queued.peek (h : s.Queued x past) (hc : s.closed = false) :
    Store.peek x s = .ok ((queueOf past).headD .null) := by
  have hhead : (queueOf past).headD .null = (queueOf past).getD 0 .null := by
    cases queueOf past <;> rfl
  rw [peek_eq h.contained, hhead]
  cases hslot : slotOf s.tree x 1 with
  | some c => rw [Option.elim_some, h.valueOf_eq hc hslot]
  | none =>
    rw [Option.elim_none, List.getD_eq_default]
    refine Nat.le_of_not_lt fun hlt => ?_
    obtain ⟨c, hc'⟩ := h.exists_slot hlt
    rw [hslot] at hc'
    cases hc'

/-! ## Offering -/

theorem getD_concat (l : List Value) (v : Value) (i : Nat) :
    (l ++ [v]).getD i .null = if i = l.length then v else l.getD i .null := by
  rcases Nat.lt_trichotomy i l.length with hlt | rfl | hlt
  · rw [if_neg (Nat.ne_of_lt hlt), List.getD_append _ _ _ _ hlt]
  · rw [if_pos rfl, List.getD_append_right _ _ _ _ (Nat.le_refl _), Nat.sub_self]
    rfl
  · rw [if_neg (Nat.ne_of_gt hlt),
      List.getD_eq_default _ _ (by rw [List.length_append, List.length_singleton]; omega),
      List.getD_eq_default _ _ (Nat.le_of_lt hlt)]

/-- Writing the slot behind the queue keeps the simulation, with one more value. -/
theorem Queued.wrote (h : s.Queued x past) (hlate : ∀ p ∈ past, p.time ≤ t) (hv : v ≠ .null)
    (hslot : slotOf s.tree x ((queueOf past).length + 1) = some c) (hw : s.Writable c t) :
    (s.wrote t v c).Queued x (past ++ [.offer t v]) := by
  have hafter : ∀ t', queueBy (past ++ [.offer t v]) t' =
      if t ≤ t' then queueOf past ++ [v] else queueBy past t' :=
    queueBy_append_of_late hlate
  refine ⟨h.sound.takes (.write hw), by rw [tree_wrote]; exact h.linked, by
    rw [tree_wrote]; exact h.contained,
    fun t' i c' hc' => ?_, fun t' i hi => ?_, fun t' => ?_, fun c' hc' o ho => ?_⟩
  · rw [tree_wrote] at hc'
    rw [hw.valueAt_wrote h.sound, hafter]
    by_cases hle : t ≤ t'
    · rw [if_pos hle, getD_concat]
      by_cases hi : i = (queueOf past).length
      · subst hi
        obtain rfl : c = c' := Option.some.inj (hslot.symm.trans hc')
        rw [if_pos ⟨rfl, hle⟩, if_pos rfl]
      · have hne : c' ≠ c := by
          rintro rfl
          exact hi (Nat.succ_injective (slotOf_inj hc' hslot))
        rw [if_neg (fun hh => hne hh.1), if_neg hi, h.value t' i c' hc',
          queueBy_of_late fun p hp => Int.le_trans (hlate p hp) hle]
    · rw [if_neg (fun hh => hle hh.2), if_neg hle, h.value t' i c' hc']
  · rw [tree_wrote]
    rw [hafter] at hi
    split at hi
    · rw [List.length_append, List.length_singleton] at hi
      rcases Nat.lt_or_eq_of_le (Nat.le_of_lt_succ hi) with hlt | rfl
      · exact h.exists_slot hlt
      · exact ⟨c, hslot⟩
    · exact h.filled t' i hi
  · rw [hafter]
    split
    · simpa [hv.symm] using h.null_notMem
    · exact h.solid t'
  · rw [tree_wrote] at hc'
    rw [hw.ongoing_wrote] at ho
    split at ho
    · obtain rfl := Option.some.inj ho
      exact ⟨.offer t v, by simp, Int.le_refl _⟩
    · obtain ⟨p, hp, hle⟩ := h.recent c' hc' o ho
      exact ⟨p, List.mem_append_left _ hp, hle⟩

/-- **An offer succeeds** and puts its value at the end. -/
theorem Queued.offered (h : s.Queued x past) (ho : s.Open t) (hlate : ∀ p ∈ past, p.time ≤ t)
    (hv : v ≠ .null) :
    ∃ s', Store.offer t v x s = .ok () s' ∧ s'.Queued x (past ++ [.offer t v]) := by
  have hw : (s.grown x (nextSlot s x)).Writable (s.tree.grow x (nextSlot s x)).1 t :=
    h.sound.covered.writable_slotFor h.linked h.contained ho (fun _ hc => h.writable ho hlate hc) _
  have hgrown : (s.grown x (nextSlot s x)).Queued x past := by
    refine h.of_spared (.single (Step.add_edit_ok_iff.2 ⟨h.contained, rfl⟩)) ho.building
      fun a ha q hq => ?_
    rw [List.mem_singleton.1 ha] at hq
    cases hq
  have hslot : slotOf (s.grown x (nextSlot s x)).tree x ((queueOf past).length + 1) =
      some (s.tree.grow x (nextSlot s x)).1 := by
    rw [← h.length_slots ho.building]
    exact slotOf_slotFor h.linked h.contained _
  exact ⟨_, offer_ok_iff.2 ⟨h.contained, hw, rfl⟩, hgrown.wrote hlate hv hslot hw⟩

/-! ## Polling -/

theorem getD_tail (l : List Value) (i : Nat) : l.tail.getD i .null = l.getD (i + 1) .null := by
  cases l <;> rfl

theorem getElem?_shift (l : List Value) {i : Nat} (hi : i < l.length) :
    (l.drop 1 ++ [.null])[i]? = some (l.getD (i + 1) .null) := by
  cases l with
  | nil => exact absurd hi (Nat.not_lt_zero _)
  | cons v l =>
    rw [List.drop_one, List.tail_cons, List.getD_cons_succ]
    rcases Nat.lt_or_eq_of_le (Nat.le_of_lt_succ hi) with hlt | rfl
    · rw [List.getElem?_append_left hlt, List.getElem?_eq_getElem hlt, List.getD_eq_getElem _ _ hlt]
    · rw [List.getElem?_append_right (Nat.le_refl _), Nat.sub_self,
        List.getD_eq_default _ _ (Nat.le_refl _)]
      rfl

/-- Each slot is written with the value behind it. -/
theorem Queued.mem_shifted (h : s.Queued x past) (hc : s.closed = false)
    (hmem : (s.slots x)[i]? = some c) :
    (c, (queueOf past).getD (i + 1) .null) ∈ shifted s x := by
  have hi : i < (queueOf past).length := by
    rw [← h.length_slots hc]
    exact (List.getElem?_eq_some_iff.1 hmem).1
  rw [shifted, h.values_slots hc]
  exact List.mem_iff_getElem?.2 ⟨i, List.getElem?_zip_eq_some.2 ⟨hmem, getElem?_shift _ hi⟩⟩

theorem Queued.writable_shifted (h : s.Queued x past) (ho : s.Open t)
    (hlate : ∀ p ∈ past, p.time ≤ t) :
    ∀ w ∈ shifted s x, s.Writable w.1 t := fun _ hw =>
  h.writable ho hlate (mem_childrenOf_of_mem_slots h.contained (List.of_mem_zip hw).1)

/-- What a slot holds once each value has moved one place forward. -/
theorem Queued.valueAt_shifted (h : s.Queued x past) (ho : s.Open t)
    (hlate : ∀ p ∈ past, p.time ≤ t) (hslot : slotOf s.tree x (i + 1) = some c) (t' : Time) :
    ((s.wroteAll t (shifted s x)).timelineOf c).valueAt t' =
      if t ≤ t' then (queueOf past).tail.getD i .null else (queueBy past t').getD i .null := by
  have hw := h.writable_shifted ho hlate
  rw [getD_tail, ← h.value t' i c hslot]
  by_cases hmem : c ∈ s.slots x
  · obtain ⟨j, hj⟩ := List.mem_iff_getElem?.1 hmem
    obtain rfl : j = i := Nat.succ_injective (slotOf_inj (slotOf_slots h.contained hj) hslot)
    exact h.sound.valueAt_wroteAll hw (nodup_shifted h.contained) (h.mem_shifted ho.building hj) t'
  · -- a slot behind the queue is not written, and null as it was
    rw [timelineOf_wroteAll_of_notMem hw (by rwa [fst_shifted])]
    split
    · rename_i hle
      have hout : (queueOf past).length ≤ i := by
        refine Nat.le_of_not_lt fun hlt => hmem ?_
        rw [← h.length_slots ho.building] at hlt
        have hfound := slotOf_slots h.contained (List.getElem?_eq_getElem hlt)
        rw [hslot, Option.some.injEq] at hfound
        exact hfound ▸ List.getElem_mem hlt
      rw [h.value t' i c hslot, queueBy_of_late fun p hp => Int.le_trans (hlate p hp) hle,
        List.getD_eq_default _ _ hout, List.getD_eq_default _ _ (Nat.le_succ_of_le hout)]
    · rfl

/-- Moving each value one place forward keeps the simulation, with the head taken off. -/
theorem Queued.shifted (h : s.Queued x past) (ho : s.Open t) (hlate : ∀ p ∈ past, p.time ≤ t) :
    (s.wroteAll t (Call.shifted s x)).Queued x (past ++ [.poll t]) := by
  have hw := h.writable_shifted ho hlate
  have hafter : ∀ t', queueBy (past ++ [.poll t]) t' =
      if t ≤ t' then (queueOf past).tail else queueBy past t' :=
    queueBy_append_of_late hlate
  refine ⟨wroteAll_induct (fun v hs hw => hs.takes (.write hw)) h.sound hw, by
    rw [tree_wroteAll]; exact h.linked,
    by rw [tree_wroteAll]; exact h.contained, fun t' i c hc => ?_, fun t' i hi => ?_, fun t' =>
      ?_, fun c hc o hongoing => ?_⟩
  · rw [tree_wroteAll] at hc
    rw [h.valueAt_shifted ho hlate hc, hafter]
    split <;> rfl
  · rw [tree_wroteAll]
    rw [hafter] at hi
    split at hi
    · rw [List.length_tail] at hi
      exact h.exists_slot (by omega)
    · exact h.filled t' i hi
  · rw [hafter]
    split
    · exact fun hmem => h.null_notMem (List.mem_of_mem_tail hmem)
    · exact h.solid t'
  · rw [tree_wroteAll] at hc
    by_cases hmem : c ∈ s.slots x
    · obtain ⟨j, hj⟩ := List.mem_iff_getElem?.1 hmem
      rw [timelineOf_wroteAll hw (nodup_shifted h.contained) (h.mem_shifted ho.building hj)]
        at hongoing
      obtain rfl := Option.some.inj hongoing
      exact ⟨.poll t, by simp, Int.le_refl _⟩
    · rw [timelineOf_wroteAll_of_notMem hw (by rwa [fst_shifted])] at hongoing
      obtain ⟨p, hp, hle⟩ := h.recent c hc o hongoing
      exact ⟨p, List.mem_append_left _ hp, hle⟩

/-- **A poll succeeds** with the head, and takes it off. An empty queue gives null, and nothing is
written. -/
theorem Queued.polled (h : s.Queued x past) (ho : s.Open t) (hlate : ∀ p ∈ past, p.time ≤ t) :
    ∃ s', Store.poll t x s = .ok ((queueOf past).headD .null) s' ∧ s'.Queued x (past ++ [.poll t]) ∧
      (queueOf past = [] → s' = s) := by
  have hpoll := poll_of_writable h.contained fun c hc =>
    h.writable ho hlate (mem_childrenOf_of_mem_slots h.contained hc)
  rw [h.values_slots ho.building] at hpoll
  refine ⟨_, hpoll, h.shifted ho hlate, fun hnil => ?_⟩
  have hslots : s.slots x = [] := by
    rw [← List.map_eq_nil_iff (f := s.valueOf), h.values_slots ho.building, hnil]
  rw [Call.shifted, hslots]
  rfl

end

end Store

end StateHistory
