import Mathlib.Data.List.TakeWhile
import StateHistory.Proofs.Store.Stacked
import StateHistory.Provider.CallStack

/-!
# The calls of one thread

What entries and exits mean, for one thread by itself: an entry puts its function on a stack, an
exit takes the top off, and an entry that tells its end has its function taken off at that time.
Such ends wait in a queue until the first event that does not come before them, or until there are
no more events (`touches`).
-/

namespace StateHistory.CallStack

open Touch

/-- The touches of a stack so far, and the times of the pops that wait, in order. -/
structure Replay where
  done : List Touch := []
  due : List Time := []
deriving DecidableEq, Repr

namespace Replay

/-- Puts a time behind all those that are no later. -/
def enqueue (t : Time) : List Time → List Time
  | [] => [t]
  | d :: rest => if d ≤ t then d :: enqueue t rest else t :: d :: rest

/-- Makes the pops that are due by `t`, each at its own time. -/
def catchUp (m : Replay) (t : Time) : Replay where
  done := m.done ++ (m.due.takeWhile (· ≤ t)).map .pop
  due := m.due.dropWhile (· ≤ t)

/-- An event, after the pops that are due by then. -/
def feed (m : Replay) (e : Event) : Replay :=
  let m := m.catchUp e.timestamp
  match e.name with
  | "entry" =>
    { done := m.done ++ [.push e.timestamp (e.fieldValue "function")]
      due := (e.fieldLong "end").elim m.due (enqueue · m.due) }
  | "exit" => { m with done := m.done ++ [.pop e.timestamp] }
  | _ => m

/-- All touches once there are no more events: the pops that still wait are made. -/
def finish (m : Replay) : List Touch := m.done ++ m.due.map .pop

end Replay

/-- Some events, one after the other. -/
def replay (events : List Event) : Replay := events.foldl Replay.feed {}

/-- The touches of a stack that the events of its thread come down to. -/
def touches (events : List Event) : List Touch := (replay events).finish

namespace Replay

section
variable {m : Replay} {e : Event} {t t' d : Time} {due : List Time} {done : List Touch}

/-! ## Catching up -/

theorem catchUp_catchUp (hle : t ≤ t') : (m.catchUp t).catchUp t' = m.catchUp t' := by
  obtain ⟨done, due⟩ := m
  induction due generalizing done with
  | nil => simp [catchUp]
  | cons d due ih =>
    by_cases hd : d ≤ t
    · have hd' : d ≤ t' := Int.le_trans hd hle
      simpa [catchUp, hd, hd'] using ih (done ++ [.pop d])
    · simp [catchUp, hd]

/-- The first pop that waits may be made as soon as it is due. -/
theorem catchUp_cons (hle : d ≤ t) :
    catchUp ⟨done, d :: due⟩ t = catchUp ⟨done ++ [.pop d], due⟩ t := by
  simp [catchUp, hle]

theorem catchUp_of_pending (h : ∀ d ∈ due, t < d) : catchUp ⟨done, due⟩ t = ⟨done, due⟩ := by
  cases due with
  | nil => simp [catchUp]
  | cons d due =>
    have hd : ¬ d ≤ t := Int.not_le.2 (h d (by simp))
    simp [catchUp, hd]

/-- When no pop waits any more, all touches are made. -/
theorem done_catchUp (h : (m.catchUp t).due = []) : (m.catchUp t).done = m.finish := by
  have hdue : m.due.takeWhile (· ≤ t) = m.due := by
    have happend :=
      List.takeWhile_append_dropWhile (p := fun d : Time => decide (d ≤ t)) (l := m.due)
    have hdrop : m.due.dropWhile (· ≤ t) = [] := h
    rwa [hdrop, List.append_nil] at happend
  simp only [catchUp, finish, hdue]

theorem enqueue_of_lt (h : ∀ d ∈ due, t < d) : enqueue t due = t :: due := by
  cases due with
  | nil => rfl
  | cons d due =>
    have hd : ¬ d ≤ t := Int.not_le.2 (h d (by simp))
    simp [enqueue, hd]

/-! ## Events by name -/

theorem feed_entry (h : e.name = "entry") : m.feed e =
    { done := (m.catchUp e.timestamp).done ++ [.push e.timestamp (e.fieldValue "function")]
      due :=
        (e.fieldLong "end").elim (m.catchUp e.timestamp).due
        (enqueue · (m.catchUp e.timestamp).due) } := by
  simp [feed, h]

theorem feed_exit (h : e.name = "exit") : m.feed e =
    { m.catchUp e.timestamp with done := (m.catchUp e.timestamp).done ++ [.pop e.timestamp] } := by
  simp [feed, h]

theorem feed_other (hentry : e.name ≠ "entry") (hexit : e.name ≠ "exit") :
    m.feed e = m.catchUp e.timestamp := by
  simp [feed]

end

end Replay

/-! ## Heights -/

/-- The number of pushes. -/
def pushes (past : List Touch) : Nat := past.countP fun
  | push _ _ => true
  | pop _ => false

/-- A stack is no higher than there were pushes. -/
theorem length_stackOf_le (past : List Touch) : (stackOf past).length ≤ pushes past := by
  have hfrom : ∀ (past : List Touch) (stack : List Value),
      (past.foldl act stack).length ≤ stack.length + pushes past := by
    intro past
    induction past with
    | nil => simp [pushes]
    | cons o past ih =>
      intro stack
      have := ih (o.act stack)
      cases o with
      | push t v => simp [pushes, act] at this ⊢; omega
      | pop t => simp [pushes, act] at this ⊢; omega
  simpa [stackOf] using hfrom past []

theorem pushes_catchUp (m : Replay) (t : Time) : pushes (m.catchUp t).done = pushes m.done := by
  simp [Replay.catchUp, pushes]

theorem pushes_feed_le (m : Replay) (e : Event) : pushes (m.feed e).done ≤ pushes m.done + 1 := by
  have hcatch := pushes_catchUp m e.timestamp
  unfold pushes at hcatch ⊢
  by_cases hentry : e.name = "entry"
  · simp [Replay.feed_entry hentry, hcatch]
  by_cases hexit : e.name = "exit"
  · simp [Replay.feed_exit hexit, hcatch]
  · simp [Replay.feed_other hentry hexit, hcatch]

/-- Each event puts at most one function on a stack. -/
theorem pushes_foldl_le (m : Replay) (events : List Event) :
    pushes (events.foldl Replay.feed m).done ≤ pushes m.done + events.length := by
  induction events generalizing m with
  | nil => exact Nat.le_refl _
  | cons e events ih =>
    have hfeed := pushes_feed_le m e
    have hrest := ih (m.feed e)
    rw [List.foldl_cons, List.length_cons]
    omega

end StateHistory.CallStack
