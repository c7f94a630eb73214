import StateHistory.Analysis.Run
import StateHistory.Proofs.StateSystem.Reached

/-!
# Closing after the last event

Once the deferred changes are applied or dropped, the state system is closed just after the last
recorded time. Nothing that was recorded comes later, so a live state system can always be closed
there (`closeAtStop_ok`).
-/

namespace StateHistory.Analysis

open StateSystem Store

/-- Closes the state system just after the last recorded time. -/
def closeAtStop : Write Unit := do
  let stop ← Write.ask (query fun s => .ok s.stop)
  close (stop.elim 0 Time.after)

theorem closing_true : closing true = (do let _ ← flush Time.latest; closeAtStop : Write Unit) :=
  rfl

theorem closing_false : closing false = closeAtStop := rfl

section
variable {s : StateSystem}

theorem ask_stop (hlive : s.disposed = false) :
    Write.ask (query fun s => .ok s.stop) s = .ok s.store.stop s := by
  rw [Write.ask, query_of_live hlive]

theorem closeAtStop_ok (hlive : s.disposed = false)
    (hstop : ∀ stop, s.store.stop = some stop → stop ≤ Time.latest) :
    closeAtStop s =
      .ok () ((s.publish (s.store.ended (s.store.stop.elim 0 Time.after))).finish .built) := by
  have hlate : ∀ stop, s.store.stop = some stop → stop ≤ s.store.stop.elim 0 Time.after := by
    intro stop hs
    have := hstop stop hs
    rw [hs]
    simp only [Option.elim_some, Time.after]
    lia
  have hclose : close (s.store.stop.elim 0 Time.after) s =
      .ok () ((s.publish (s.store.ended (s.store.stop.elim 0 Time.after))).finish .built) := by
    unfold StateSystem.close
    rw [edit_of_ok hlive (close_ok_iff.2 ⟨hlate, rfl⟩)]
  exact (bind_of_ok (ask_stop hlive)).trans hclose

end

end StateHistory.Analysis
