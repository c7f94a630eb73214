import StateHistory.Analysis.Basic

/-!
# Schedules

An order of analyses in which each comes after those it depends on. The analyses without
dependencies stand in line first, in the order of their registration. Whenever the head of the line
is placed, those that were waiting for it alone join the line, again in the order of registration.
Analyses that never join the line depend on each other in a cycle, or on such analyses.
-/

namespace StateHistory

/-- An analysis to be placed, with the dependencies it still waits for. -/
structure Job where
  id : String
  waitsFor : List String
deriving DecidableEq, Repr, Inhabited

namespace Job

/-- The job once `id` has been placed. -/
def release (id : String) (j : Job) : Job := { j with waitsFor := j.waitsFor.filter (· ≠ id) }

/-- Does the job wait for nothing? -/
def isFree (j : Job) : Bool := j.waitsFor.isEmpty

end Job

namespace Schedule

/-- The first dependency that is no job, with the job that has it. -/
def unknown? (jobs : List Job) : Option (String × String) :=
  jobs.findSome? fun j =>
    (j.waitsFor.find? fun d => !jobs.any (·.id == d)).map (j.id, ·)

/-- Places the jobs of a line and those that join it, at most `fuel` of them; gives their order and
the jobs that are left waiting. -/
def place : Nat → List String → List Job → List String × List Job
  | 0, _, waiting => ([], waiting)
  | _ + 1, [], waiting => ([], waiting)
  | fuel + 1, id :: line, waiting =>
    let (free, waiting) := (waiting.map (·.release id)).partition (·.isFree)
    let (placed, stuck) := place fuel (line ++ free.map (·.id)) waiting
    (id :: placed, stuck)

/-- An order of the jobs that keeps their dependencies. -/
def order (jobs : List Job) : Except Refusal (List String) :=
  match unknown? jobs with
  | some (id, dependency) => .error (.unknownDependency id dependency)
  | none =>
    let (free, waiting) := jobs.partition (·.isFree)
    match place jobs.length (free.map (·.id)) waiting with
    | (placed, []) => .ok placed
    | (_, stuck) => .error (.cycle (stuck.map (·.id)))

end Schedule

end StateHistory
