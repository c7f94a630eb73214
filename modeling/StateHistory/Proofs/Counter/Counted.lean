import StateHistory.Proofs.Store.Stacked
import StateHistory.Provider.Counter

/-!
# Counters in a store

The value of a counter is what the events about it come to, one after the other, beginning with
null. A store is `Counted` when each of its counters has had at every time the value that the events
so far come to by that time, and an event that is recorded next keeps it so whether its write
succeeds (`Counted.wrote`) or not (`Counted.ignored`).
-/

namespace StateHistory.Counter

open Store

/-- A value to which a delta is added. Only integers and null can be added to, and only as long as
64 bits hold the sum; any other value stays as it is. -/
def increased (v : Value) (delta : Int) : Value :=
  match v with
  | .null => .long (.ofInt delta)
  | .int n => if Value.fitsLong (n.toInt + delta) then .long (.ofInt (n.toInt + delta)) else v
  | .long n => if Value.fitsLong (n.toInt + delta) then .long (.ofInt (n.toInt + delta)) else v
  | _ => v

/-- What an event does to the counter that it is about. -/
def act (v : Value) (e : Event) : Value :=
  match e.name with
  | "counter" => e.fieldValue "value"
  | "increment" => increased v ((e.fieldLong "delta").getD 1)
  | _ => v

/-- Is the event about the counter of this name? -/
def concerns (name : String) (e : Event) : Bool :=
  (e.name = "counter" || e.name = "increment") && e.fieldSegment "name" = some name

/-- The value of a counter after those of some events that are about it and come by `t`. -/
def valueBy (name : String) (events : List Event) (t : Time) : Value :=
  (events.filter fun e => concerns name e && e.timestamp ≤ t).foldl act .null

/-- The counters of a store have had the values that the events so far come to, and no value begins
after `now`. -/
structure Counted (store : Store) (now : Time) (past : List Event) : Prop where
  building : store.closed = false
  sound : store.Sound
  linked : store.tree.Linked
  upTo : store.UpTo now
  late : ∀ e ∈ past, e.timestamp ≤ now
  reaches : ∀ e ∈ past, store.Reaches e.timestamp e.timestamp
  shows : ∀ name q, store.tree.descend .root (path name) = some q →
    ∀ t, (store.timelineOf q).valueAt t = valueBy name past t
  recent : ∀ name q, store.tree.descend .root (path name) = some q →
    ∀ o, (store.timelineOf q).ongoing = some o → o.start ≤ now
  absent : ∀ name, store.tree.descend .root (path name) = none → ∀ e ∈ past, concerns name e = false

section
variable {store : Store} {now t : Time} {past : List Event} {name : String} {e : Event} {q : Quark}
  {v : Value}

theorem valueBy_append (name : String) (past : List Event) (e : Event) (t : Time) :
    valueBy name (past ++ [e]) t =
      if concerns name e ∧ e.timestamp ≤ t then act (valueBy name past t) e
        else valueBy name past t := by
  unfold valueBy
  rw [List.filter_append, List.foldl_append]
  by_cases h : concerns name e = true ∧ e.timestamp ≤ t
  · simp [h]
  · have hnot : (concerns name e && decide (e.timestamp ≤ t)) = false := by simpa using h
    simp [h, hnot]

/-- Events that come later do not matter. -/
theorem valueBy_of_late (h : ∀ e ∈ past, e.timestamp ≤ now) (hle : now ≤ t) :
    valueBy name past t = valueBy name past now := by
  unfold valueBy
  congr 1
  refine List.filter_congr fun e he => ?_
  have := h e he
  simp [this, Int.le_trans this hle]

theorem valueBy_of_unconcerned (h : ∀ e ∈ past, concerns name e = false) (t : Time) :
    valueBy name past t = .null := by
  unfold valueBy
  rw [List.filter_eq_nil_iff.2]
  · rfl
  · intro e he
    simp [h e he]

theorem counted_new (now : Time) : Counted .new now [] := by
  refine ⟨rfl, sound_new, Tree.linked_empty, upTo_new now, by simp, by simp, ?_, ?_, by simp⟩
  · rintro name q ⟨⟩
  · rintro name q ⟨⟩

theorem Counted.isOpen (h : Counted store now past) (hle : now ≤ t) : store.Open t :=
  ⟨h.building, fun start hs => Int.le_trans (h.upTo.start_le start hs) hle⟩

/-! ## Adding -/

section
variable {n d : Int} {f : Failure}

theorem addLong_of_base (hw : store.Writable q t)
    (hbase : base 0 "long" Value.asLong q store = .ok n) (hd : Value.fitsLong d = true) :
    addLong t q (.ofInt d) store =
      if Value.fitsLong (n + d) then .ok () (store.wrote t (.long (.ofInt (n + d))) q)
      else .error (.integerOverflow q n d) store := by
  obtain ⟨hlo, hhi⟩ := Value.fitsLong_iff.1 hd
  have hdelta : (Int64.ofInt d).toInt = d := Int64.toInt_ofInt_of_le (by omega) (by omega)
  have hask := Edit.ask_ok.2 ⟨hbase, Eq.refl store⟩
  unfold addLong
  split
  · rename_i hfits
    refine Edit.bind_ok.2 ⟨n, store, hask, ?_⟩
    simp only [hdelta, hfits, ↓reduceIte]
    exact write_ok_iff.2 ⟨hw, rfl⟩
  · rename_i hfits
    refine Edit.bind_error.2 (Or.inr ⟨n, store, hask, ?_⟩)
    simp only [hdelta, hfits, Bool.false_eq_true, ↓reduceIte]
    rfl

theorem addLong_of_base_error (hbase : base 0 "long" Value.asLong q store = .error f)
    (delta : Int64) :
    addLong t q delta store = .error f store :=
  Edit.bind_error.2 (Or.inl (Edit.ask_error.2 ⟨hbase, rfl⟩))

/-- Adding writes the increased value, or fails where that is the same. -/
theorem addLong_cases (hw : store.Writable q t) (hd : Value.fitsLong d = true) :
    addLong t q (.ofInt d) store = .ok () (store.wrote t (increased (store.valueOf q) d) q) ∨
      (∃ f, addLong t q (.ofInt d) store = .error f store ∧ f.isFatal = false) ∧
        increased (store.valueOf q) d = store.valueOf q := by
  have hl : store.timeline q = .ok (store.timelineOf q) := timeline_eq_ok_iff.2 ⟨hw.covered, rfl⟩
  generalize hv : store.valueOf q = v
  have hv : (store.timelineOf q).value = v := hv
  have hadded : ∀ n, v ≠ .null → v.asLong = some n →
      increased v d = (if Value.fitsLong (n + d) then .long (.ofInt (n + d)) else v) →
      addLong t q (.ofInt d) store = .ok () (store.wrote t (increased v d) q) ∨
        (∃ f, addLong t q (.ofInt d) store = .error f store ∧ f.isFatal = false) ∧
        increased v d = v := by
    rintro n hnull hn hincreased
    have hbase : base 0 "long" Value.asLong q store = .ok n :=
      base_of_view hl (hv.symm ▸ hnull) (hv.symm ▸ hn)
    rw [addLong_of_base hw hbase hd, hincreased]
    split
    · exact Or.inl rfl
    · exact Or.inr ⟨⟨_, rfl, rfl⟩, rfl⟩
  have hother : v ≠ .null → v.asLong = none →
      ∃ f, addLong t q (.ofInt d) store = .error f store ∧ f.isFatal = false := fun hnull hnone =>
    have hbase : base 0 "long" Value.asLong q store = .error _ :=
      base_of_mismatch hl (hv.symm ▸ hnull) (hv.symm ▸ hnone)
    ⟨_, addLong_of_base_error hbase _, rfl⟩
  cases v with
  | null =>
    rw [addLong_of_base hw (base_of_null hl hv) hd, Int.zero_add, if_pos hd]
    exact Or.inl rfl
  | int n => exact hadded n.toInt (by simp) rfl rfl
  | long n => exact hadded n.toInt (by simp) rfl rfl
  | double bits => exact Or.inr ⟨hother (by simp) rfl, rfl⟩
  | string text => exact Or.inr ⟨hother (by simp) rfl, rfl⟩
  | custom c => exact Or.inr ⟨hother (by simp) rfl, rfl⟩

end

/-! ## Steps that keep count -/

theorem Counted.reach (h : Counted store now past) (hle : now ≤ t) :
    Counted (store.reach t) t past := by
  have htakes : (Step.advance t).Takes store (store.reach t) := .advance (h.isOpen hle)
  have hc : (store.reach t).closed = false := by simp [h.building]
  refine ⟨hc, h.sound.takes htakes, by simpa using h.linked,
    (h.upTo.mono hle).reach (Int.le_refl t),
    fun e he => Int.le_trans (h.late e he) hle, fun e he =>
      (h.reaches e he).takes htakes hc, fun name q hq => ?_,
    fun name q hq => ?_, fun name hq => ?_⟩
  · rw [tree_reach] at hq
    simpa using h.shows name q hq
  · rw [tree_reach] at hq
    intro o ho
    rw [timelineOf_reach] at ho
    exact Int.le_trans (h.recent name q hq o ho) hle
  · rw [tree_reach] at hq
    exact h.absent name hq

/-- A counter may be added that was not there. -/
theorem Counted.grown (h : Counted store now past) (name : String) :
    Counted (store.grown .root (path name)) now past := by
  have hroot := h.linked.contains_root
  have hcases : ∀ n q, (store.grown .root (path name)).tree.descend .root (path n) = some q →
      store.tree.descend .root (path n) = some q ∨
        store.tree.descend .root (path n) = none ∧
        (store.grown .root (path name)).timelineOf q = {} := by
    intro n q hq
    cases hold : store.tree.descend .root (path n) with
    | some q' =>
      rw [tree_grown, h.linked.descend_grow hroot (path name) (path n) .root hold] at hq
      exact Or.inl hq
    | none =>
      have hstart : store.tree.descend .root [] = some .root := rfl
      rcases h.linked.descend_grow_cases hstart (path name) hq with hq' | hprefix
      · rw [hold] at hq'
        cases hq'
      have hpath : path n = path name := List.IsPrefix.eq_of_length hprefix rfl
      have hself := h.linked.descend_grow_self hroot (path name)
      rw [tree_grown, hpath, hself] at hq
      obtain rfl := Option.some.inj hq
      obtain ⟨hnew, -⟩ := h.linked.grow_new hroot (path name) (hpath ▸ hold)
      exact Or.inr ⟨rfl, timelineOf_grown.trans (h.sound.covered.timelineOf_new hnew)⟩
  refine ⟨h.building, h.sound.takes (.add hroot), h.linked.grow hroot (path name),
    ⟨h.upTo.start_le, h.upTo.stop_le⟩,
    h.late, fun e he => (h.reaches e he).takes (.add hroot) h.building, fun n q hq t =>
      ?_, fun n q hq o ho => ?_,
    fun n hq => ?_⟩
  · rcases hcases n q hq with hq | ⟨hnone, hempty⟩
    · rw [timelineOf_grown]
      exact h.shows n q hq t
    · rw [hempty, valueBy_of_unconcerned (h.absent n hnone)]
      exact (Timeline.seamless_empty q).valueAt_of_none (by simp) (by simp)
  · rcases hcases n q hq with hq | ⟨hnone, hempty⟩
    · rw [timelineOf_grown] at ho
      exact h.recent n q hq o ho
    · rw [hempty] at ho
      cases ho
  · refine h.absent n ?_
    cases hold : store.tree.descend .root (path n) with
    | none => rfl
    | some q =>
      rw [tree_grown, h.linked.descend_grow hroot (path name) (path n) .root hold] at hq
      cases hq

/-- A counter can be written from `now` on. -/
theorem Counted.writable (h : Counted store now past)
    (hq : store.tree.descend .root (path name) = some q) :
    store.Writable q now :=
  ⟨h.isOpen (Int.le_refl now),
    h.sound.covered.contains_iff.1 (h.linked.contains_descend _ h.linked.contains_root hq),
    (h.sound.growing h.building q).onTime (h.recent name q hq)⟩

/-- The ongoing value of a counter is what all events so far come to. -/
theorem Counted.value_eq (h : Counted store now past)
    (hq : store.tree.descend .root (path name) = some q) :
    store.valueOf q = valueBy name past now := by
  rw [← h.shows name q hq now]
  exact ((h.sound.seamless q).valueAt_eq_value (h.sound.growing h.building q)
    (h.recent name q hq)).symm

/-- The past of an event that is recorded at its own time. -/
theorem Counted.late_append (h : Counted store now past) (htime : e.timestamp = now) :
    ∀ e' ∈ past ++ [e], e'.timestamp ≤ now :=
  List.forall_mem_append.2 ⟨h.late, List.forall_mem_singleton.2 (Int.le_of_eq htime)⟩

theorem Counted.reaches_append (h : Counted store now past) (htime : e.timestamp = now)
    (hnow : store.Reaches now now) :
    ∀ e' ∈ past ++ [e], store.Reaches e'.timestamp e'.timestamp :=
  List.forall_mem_append.2 ⟨h.reaches, List.forall_mem_singleton.2 (htime ▸ hnow)⟩

/-- A counter that an event is about is not missing once the event is handled. -/
theorem Counted.absent_append (h : Counted store now past)
    (hlocated : ∀ n, concerns n e = true → ∃ q, store.tree.descend .root (path n) = some q) :
    ∀ n, store.tree.descend .root (path n) = none → ∀ e' ∈ past ++ [e], concerns n e' = false := by
  intro n hn
  refine List.forall_mem_append.2 ⟨h.absent n hn, List.forall_mem_singleton.2 ?_⟩
  cases hc : concerns n e with
  | false => rfl
  | true =>
    obtain ⟨q, hq⟩ := hlocated n hc
    rw [hn] at hq
    cases hq

/-- An event that changes no counter's value may be added to the past. -/
theorem Counted.ignored (h : Counted store now past) (htime : e.timestamp = now)
    (hnow : store.Reaches now now)
    (hlocated : ∀ n, concerns n e = true → ∃ q, store.tree.descend .root (path n) = some q)
    (hsame : ∀ n, concerns n e = true → act (valueBy n past now) e = valueBy n past now) :
    Counted store now (past ++ [e]) := by
  refine ⟨h.building, h.sound, h.linked, h.upTo, h.late_append htime, h.reaches_append htime hnow,
    fun n q hq t => ?_, h.recent, h.absent_append hlocated⟩
  rw [h.shows n q hq t, valueBy_append]
  split
  · rename_i hcond
    rw [htime] at hcond
    rw [valueBy_of_late h.late hcond.2, hsame n hcond.1]
  · rfl

/-- An event may write the counter that it is about. -/
theorem Counted.wrote (h : Counted store now past) (htime : e.timestamp = now)
    (hnow : store.Reaches now now) (hconcerns : ∀ n, concerns n e = true ↔ n = name)
    (hq : store.tree.descend .root (path name) = some q) (hv : act (valueBy name past now) e = v) :
    Counted (store.wrote now v q) now (past ++ [e]) := by
  have hw := h.writable hq
  have hlocated : ∀ n, concerns n e = true → ∃ q, store.tree.descend .root (path n) = some q := by
    intro n hn
    rw [(hconcerns n).1 hn]
    exact ⟨q, hq⟩
  have hc : (store.wrote now v q).closed = false := by rw [closed_wrote, h.building]
  refine ⟨hc, h.sound.takes (.write hw), by rw [tree_wrote]; exact h.linked, ?_,
    h.late_append htime,
    fun e' he' => (h.reaches_append htime hnow e' he').takes (.write hw) hc, fun n p hp t =>
      ?_, fun n p hp o ho => ?_,
    by rw [tree_wrote]; exact h.absent_append hlocated⟩
  · exact h.upTo.takes (.write hw) hc fun t ht => Int.le_of_eq (Option.some.inj ht).symm
  · rw [tree_wrote] at hp
    rw [hw.valueAt_wrote h.sound, h.shows n p hp, valueBy_append, htime]
    have hsame : p = q ↔ n = name := by
      refine ⟨fun hpq => ?_, fun hn => ?_⟩
      · have hpath : path n = path name := h.linked.descend_inj (hpq ▸ hp) hq
        simpa [path] using hpath
      · rw [hn, hq] at hp
        exact (Option.some.inj hp).symm
    simp only [hsame, hconcerns]
    split
    · rename_i hcond
      obtain ⟨rfl, hle⟩ := hcond
      rw [valueBy_of_late h.late hle, hv]
    · rfl
  · rw [tree_wrote] at hp
    rw [hw.ongoing_wrote] at ho
    split at ho
    · obtain rfl := Option.some.inj ho
      exact Int.le_refl now
    · exact h.recent n p hp o ho

/-! ## Looking back -/

/-- A query after closing finds the value that a counter had. -/
theorem Counted.single_ended (h : Counted store now past)
    (hq : store.tree.descend .root (path name) = some q) {first last : Time}
    (hreaches : store.Reaches first last) (hfirst : first ≤ t) (hlast : t ≤ last)
    (hlatest : last < Time.latest) :
    ∃ iv, Store.single t q (store.ended (store.stop.elim 0 Time.after)) = .ok iv ∧
      iv.value = valueBy name past t := by
  obtain ⟨hlt, hreach⟩ := hreaches.ended hfirst hlast hlatest
  have hcontains := h.linked.contains_descend _ h.linked.contains_root hq
  refine ⟨_, single_ok_iff.2 ⟨by rw [tree_ended]; exact hcontains, hreach, rfl⟩, ?_⟩
  rw [intervalAt_value, timelineOf_ended, (h.sound.seamless q).valueAt_close hlt, h.shows name q hq]

end

end StateHistory.Counter
