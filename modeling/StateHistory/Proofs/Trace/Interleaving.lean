import StateHistory.Proofs.TimeOrder
import StateHistory.Trace.Event

/-!
# Interleavings of events in order

`Interleaving` says that a list takes others apart, each time the first element of one of them: the
order inside each is kept, and nothing is lost or doubled. `Merges` is the interleaving that takes
the earliest first event, of several that of the first list. Where each list is in order of time
already, that is stable sorting (`Merges.eq_sortByTime`).
-/

namespace StateHistory

/-- The list takes the others apart, each time the first element of one of them. -/
inductive Interleaving {α : Type} : List (List α) → List α → Prop
  | nil {ls : List (List α)} (h : ∀ l ∈ ls, l = []) : Interleaving ls []
  | cons {before after : List (List α)} {x : α} {l xs : List α}
    (h : Interleaving (before ++ l :: after) xs) :
    Interleaving (before ++ (x :: l) :: after) (x :: xs)

/-- Events in order of time. -/
def InOrder (es : List Event) : Prop := es.Pairwise fun a b => a.timestamp ≤ b.timestamp

/-- The interleaving that takes the earliest first event, of several that of the first list. -/
inductive Merges : List (List Event) → List Event → Prop
  | nil {ls : List (List Event)} (h : ∀ l ∈ ls, l = []) : Merges ls []
  | cons {before after : List (List Event)} {e : Event} {l es : List Event}
    (hbefore : ∀ l ∈ before, ∀ e' ∈ l.head?, e.timestamp < e'.timestamp)
    (hafter : ∀ l ∈ after, ∀ e' ∈ l.head?, e.timestamp ≤ e'.timestamp)
    (h : Merges (before ++ l :: after) es) : Merges (before ++ (e :: l) :: after) (e :: es)

/-- The events of one time, in order. -/
def eventsAt (t : Time) (es : List Event) : List Event := es.filter fun e => e.timestamp = t

/-- Sorting by time that keeps events of one time in order. -/
def sortByTime (es : List Event) : List Event := es.mergeSort fun a b => a.timestamp ≤ b.timestamp

section
variable {t : Time} {e : Event} {l es es' : List Event} {ls : List (List Event)}

theorem Merges.interleaving (h : Merges ls es) : Interleaving ls es := by
  induction h with
  | nil h => exact .nil h
  | cons _ _ _ ih => exact .cons ih

/-! ## What the times of the events say -/

@[simp] theorem eventsAt_cons (t : Time) (e : Event) (es : List Event) :
    eventsAt t (e :: es) = if e.timestamp = t then e :: eventsAt t es else eventsAt t es := by
  simp [eventsAt, List.filter_cons]

@[simp] theorem eventsAt_append (t : Time) (es es' : List Event) :
    eventsAt t (es ++ es') = eventsAt t es ++ eventsAt t es' :=
  List.filter_append ..

theorem eventsAt_eq_nil (h : ∀ e ∈ es, t < e.timestamp) : eventsAt t es = [] := by
  refine List.filter_eq_nil_iff.2 fun e he => ?_
  have hne : e.timestamp ≠ t := (Int.ne_of_lt (h e he)).symm
  simpa using hne

theorem InOrder.of_cons (h : InOrder (e :: es)) : InOrder es := (List.pairwise_cons.1 h).2

theorem InOrder.le_of_mem (h : InOrder (e :: es)) : ∀ e' ∈ es, e.timestamp ≤ e'.timestamp :=
  (List.pairwise_cons.1 h).1

/-- A bound on the first event in order is one on all of them. -/
theorem InOrder.forall_of_head (h : InOrder es) {p : Time → Prop}
    (hp : ∀ a b : Time, a ≤ b → p a → p b) (hhead : ∀ e ∈ es.head?, p e.timestamp) :
    ∀ e ∈ es, p e.timestamp := by
  cases es with
  | nil => simp
  | cons e es =>
    have he : p e.timestamp := hhead e rfl
    intro e' he'
    rcases List.mem_cons.1 he' with rfl | hmem
    · exact he
    · exact hp _ _ (h.le_of_mem e' hmem) he

/-- Events in order are told by those of each time. -/
theorem InOrder.eq_of_eventsAt (h : InOrder es) (h' : InOrder es')
    (hsame : ∀ t, eventsAt t es = eventsAt t es') :
    es = es' :=
  eq_of_filter_time h h' hsame

/-! ## Sorting -/

theorem inOrder_sortByTime (es : List Event) : InOrder (sortByTime es) :=
  pairwise_sortedBy Event.timestamp es

/-- Sorting is stable: it leaves the events of one time as they were. -/
theorem eventsAt_sortByTime (t : Time) (es : List Event) :
    eventsAt t (sortByTime es) = eventsAt t es :=
  filter_time_sortedBy Event.timestamp es t

/-! ## Merging lists in order sorts -/

/-- A bound on the first events of lists in order is one on all events. -/
theorem forall_flatten_of_head {p : Time → Prop} (hp : ∀ a b : Time, a ≤ b → p a → p b)
    (hls : ∀ l ∈ ls, InOrder l) (hhead : ∀ l ∈ ls, ∀ e ∈ l.head?, p e.timestamp) :
    ∀ e ∈ ls.flatten, p e.timestamp := by
  intro e he
  obtain ⟨l, hl, he⟩ := List.mem_flatten.1 he
  exact (hls l hl).forall_of_head hp (hhead l hl) e he

theorem inOrder_tail {before after : List (List Event)}
    (hls : ∀ l' ∈ before ++ (e :: l) :: after, InOrder l') :
    ∀ l' ∈ before ++ l :: after, InOrder l' := by
  intro l' hl'
  simp only [List.mem_append, List.mem_cons] at hl'
  rcases hl' with hl' | rfl | hl'
  · exact hls l' (by simp [hl'])
  · exact (hls (e :: l') (by simp)).of_cons
  · exact hls l' (by simp [hl'])

theorem Merges.mem_flatten (h : Merges ls es) : e ∈ es → e ∈ ls.flatten := by
  induction h with
  | nil => simp
  | cons _ _ _ ih =>
    intro he
    rcases List.mem_cons.1 he with rfl | he
    · simp
    · have := ih he
      simp only [List.flatten_append, List.flatten_cons, List.mem_append, List.mem_cons] at this ⊢
      exact this.imp_right (·.imp_left .inr)

theorem Merges.inOrder (h : Merges ls es) (hls : ∀ l ∈ ls, InOrder l) : InOrder es := by
  induction h with
  | nil => exact .nil
  | @cons before after e l es hbefore hafter h ih =>
    refine List.pairwise_cons.2 ⟨fun e' he' => ?_, ih (inOrder_tail hls)⟩
    have hmem := h.mem_flatten he'
    simp only [List.flatten_append, List.flatten_cons, List.mem_append] at hmem
    rcases hmem with he' | he' | he'
    · exact Int.le_of_lt (forall_flatten_of_head (p := (e.timestamp < ·))
        (fun _ _ hab ha => Int.lt_of_lt_of_le ha hab)
        (fun l' hl' => hls l' (by simp [hl'])) hbefore e' he')
    · exact (hls (e :: l) (by simp)).le_of_mem e' he'
    · exact forall_flatten_of_head (p := (e.timestamp ≤ ·)) (fun _ _ hab ha => Int.le_trans ha hab)
        (fun l' hl' => hls l' (by simp [hl'])) hafter e' he'

/-- Events of one time come out list by list. -/
theorem Merges.eventsAt_eq (h : Merges ls es) (hls : ∀ l ∈ ls, InOrder l) (t : Time) :
    eventsAt t es = eventsAt t ls.flatten := by
  induction h with
  | nil h => rw [List.flatten_eq_nil_iff.2 h]
  | @cons before after e l es hbefore hafter h ih =>
    have ih := ih (inOrder_tail hls)
    simp only [List.flatten_append, List.flatten_cons, eventsAt_append, eventsAt_cons] at ih ⊢
    by_cases he : e.timestamp = t
    · -- the lists before it have only later events
      have hnone : eventsAt t before.flatten = [] := eventsAt_eq_nil <| he ▸
        forall_flatten_of_head (p := (e.timestamp < ·))
          (fun _ _ hab ha => Int.lt_of_lt_of_le ha hab)
          (fun l' hl' => hls l' (by simp [hl'])) hbefore
      simp [he, ih, hnone]
    · simp [he, ih]

/-- **Merging lists in order is stable sorting.** -/
theorem Merges.eq_sortByTime (h : Merges ls es) (hls : ∀ l ∈ ls, InOrder l) :
    es = sortByTime ls.flatten :=
  (h.inOrder hls).eq_of_eventsAt (inOrder_sortByTime _) fun t => by
    rw [h.eventsAt_eq hls, eventsAt_sortByTime]

end

end StateHistory
