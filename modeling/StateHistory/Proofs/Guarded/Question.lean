import StateHistory.Proofs.Guarded.Store
import StateHistory.Proofs.StateSystem.Question

/-!
# Guarded questions

Every question to a state system can be asked with guards. Of a state system that was restored from
an image, whatever the image says, all of them are answered without a fault, and the answer is that
of the plain question (`guarded_ask`).
-/

namespace StateHistory

/-- The times that a question is about. -/
def StateSystem.Question.times : Question → List Time
  | .single t _ | .full t | .top t _ => [t]
  | .several _ ts => ts
  | .history _ a b | .histories _ a b | .firstValue _ a b => [a, b]
  | _ => []

namespace Guarded

open StateSystem (Question Answer query_of_live)

/-- What an operation gives, if it does not fail. -/
def attempt {α : Type} (x : Checked α) : Checked (Option α) := ExceptT.mk do
  let r ← x.run
  return .ok r.toOption

/-- The path of `q` as text. -/
def pathText (t : Tree) (q : Quark) : Checked String := do
  return Tree.joinPath (← path t q)

/-- The attribute at `path` below `base`, or a failure that names the whole path. -/
def locate (base : Quark) (names : List String) (s : StateSystem) : Checked Quark := do
  let store ← plain s.live
  match ← find store.tree base names with
  | some q => return q
  | none =>
    let above ← attempt (path store.tree base)
    throw (.attributeNotFound (Tree.joinPath (above.getD [] ++ names)))

/-- Asks the live store. -/
def query {α : Type} (f : Store → Checked α) (s : StateSystem) : Checked α := do
  let store ← plain s.live
  f store

/-- The recorded intervals of `q` that share a time with `[start, stop]`, which must not be
inverted. -/
def history (search : Search) (q : Quark) (start stop : Time) (s : StateSystem) :
    Checked (List Interval) := do
  let store ← plain s.live
  if stop < start then throw (.timeRange stop (some start) store.stop)
  range search q start stop store

/-- The first recorded interval of `q` in `[start, stop]` with a value other than null. -/
def firstValue (search : Search) (q : Quark) (start stop : Time) (s : StateSystem) :
    Checked (Option Interval) := do
  return (← history search q start stop s).find? fun iv => !iv.value.isNull

/-- The recorded intervals of several attributes between two times. -/
def histories (search : Search) (qs : List Quark) (a b : Time) (s : StateSystem) :
    Checked (List Interval) :=
  query (rangeOfAll search qs (min a b) (max a b)) s

/-- The answer of a system to a question. -/
def ask (search : Search) (s : StateSystem) : Question → Checked Answer
  | .start => query (fun store => return .time store.start) s
  | .stop => query (fun store => return .time store.stop) s
  | .size => query (fun store => return .number store.tree.size) s
  | .find base names => query (fun store => return .quark (← find store.tree base names)) s
  | .locate base names => return .quark (some (← locate base names s))
  | .select base pattern => query (fun store => return .quarks (← select store.tree base pattern)) s
  | .below q recursive => query (fun store => return .quarks (← below store.tree q recursive)) s
  | .name q => query (fun store => return .text (← plain (store.tree.node q)).name) s
  | .parent q => query (fun store => return .quark (← plain (store.tree.node q)).parent) s
  | .path q => query (fun store => return .names (← path store.tree q)) s
  | .pathText q => query (fun store => return .text (← pathText store.tree q)) s
  | .ongoingValue q => query (fun store => return .value (← plain (store.ongoingValue q))) s
  | .ongoingStart q => query (fun store => return .time (← plain (store.ongoingStart q))) s
  | .depth q => query (fun store => return .number (← plain (store.depth q))) s
  | .peek q => query (fun store => return .value (← peek q store)) s
  | .single t q => query (fun store => return .interval (some (← single search t q store))) s
  | .full t => query (fun store => return .intervals (← full search t store)) s
  | .several qs ts => query (fun store => return .intervals (← query2d search qs ts store)) s
  | .history q a b => return .intervals (← history search q a b s)
  | .histories qs a b => return .intervals (← histories search qs a b s)
  | .firstValue q a b => return .interval (← firstValue search q a b s)
  | .top t q => query (fun store => return .interval (← top search t q store)) s
  | .image => return .image (← plain s.image)

section
variable {s : StateSystem} {search : Search} {exact : Prop}

theorem Runs.attempt {α : Type} {x : Checked α} {m : Except Failure α} (h : Runs exact x.run m) :
    Runs exact (attempt x).run (.ok m.toOption) := by
  obtain ⟨r, hr, hexact⟩ := h
  refine ⟨.ok r.toOption, ?_, fun he => by rw [hexact he]⟩
  unfold Guarded.attempt
  rw [hr]
  rfl

theorem pathText_runs {t : Tree} (h : t.Linked) (q : Quark) :
    Runs exact (pathText t q).run (t.pathText q) := by
  have htext : t.pathText q = t.path q >>= fun names => .ok (Tree.joinPath names) := by
    unfold Tree.pathText
    cases t.path q <;> rfl
  rw [htext]
  exact (runs_path h q).andThen fun _ _ => runs_ok _

theorem locate_runs (h : ∀ store, s.live = .ok store → store.tree.Linked) (base : Quark)
    (names : List String) :
    Runs exact (locate base names s).run (s.locate base names) := by
  refine (runs_plain _).andThen fun store hs => ?_
  have hlinked := h store (Except.ok.inj hs)
  rw [find_eq hlinked]
  cases hfind : store.tree.find? base names with
  | some q => exact runs_ok _
  | none =>
    exact (runs_path hlinked base).attempt.andThen
      (g :=
        fun above => .error (.attributeNotFound (Tree.joinPath (above.getD [] ++ names))))
        fun _ _ => runs_ok _

theorem history_runs (hsearch : ∀ p size, Boundary p size (search p size)) (q : Quark)
    (start stop : Time) :
    Runs (search = partitionPoint) (history search q start stop s).run
      (s.history q start stop) := by
  refine (runs_plain _).andThen fun store _ => ?_
  by_cases hinverted : stop < start
  · simp only [hinverted, ↓reduceIte]
    exact runs_ok _
  · simp only [hinverted, ↓reduceIte]
    exact range_runs hsearch q start stop

/-- Every question to a readable store is answered. -/
theorem runs_ask (hsearch : ∀ p size, Boundary p size (search p size))
    (h : ∀ store, s.live = .ok store → store.Readable) (question : Question)
    (hq : ∀ t ∈ question.times, t.InRange) :
    Runs (search = partitionPoint) (ask search s question).run (question.ask s) := by
  have hlive : ∀ {store}, (plain s.live).run = .ok (.ok store) → store.Readable := fun hstore =>
    h _ (Except.ok.inj hstore)
  have hlinked : ∀ store, s.live = .ok store → store.tree.Linked := fun store hs =>
    (h store hs).grown.toLinked
  cases question with
  | start => exact (runs_plain _).andThen fun _ _ => runs_ok _
  | stop => exact (runs_plain _).andThen fun _ _ => runs_ok _
  | size => exact (runs_plain _).andThen fun _ _ => runs_ok _
  | find base names =>
    exact (runs_plain _).andThen fun _ hs =>
      (runs_of_eq (find_eq (hlive hs).grown.toLinked base names)).lift.andThen fun _ _ => runs_ok _
  | locate base names => exact (locate_runs hlinked base names).andThen fun _ _ => runs_ok _
  | select base pattern =>
    exact (runs_plain _).andThen fun _ hs =>
      (runs_select (hlive hs).grown.toLinked base pattern).andThen fun _ _ => runs_ok _
  | below q recursive =>
    exact (runs_plain _).andThen fun _ hs =>
      (runs_below (hlive hs).grown q recursive).andThen fun _ _ => runs_ok _
  | name q => exact (runs_plain _).andThen fun _ _ => (runs_plain _).andThen fun _ _ => runs_ok _
  | parent q => exact (runs_plain _).andThen fun _ _ => (runs_plain _).andThen fun _ _ => runs_ok _
  | path q =>
    exact (runs_plain _).andThen fun _ hs =>
      (runs_path (hlive hs).grown.toLinked q).andThen fun _ _ => runs_ok _
  | pathText q =>
    exact (runs_plain _).andThen fun _ hs =>
      (pathText_runs (hlive hs).grown.toLinked q).andThen fun _ _ => runs_ok _
  | ongoingValue q => exact (runs_plain _).andThen fun _ _ =>
    (runs_plain _).andThen fun _ _ => runs_ok _
  | ongoingStart q => exact (runs_plain _).andThen fun _ _ =>
    (runs_plain _).andThen fun _ _ => runs_ok _
  | depth q => exact (runs_plain _).andThen fun _ _ => (runs_plain _).andThen fun _ _ => runs_ok _
  | peek q => exact (runs_plain _).andThen fun _ hs =>
    (peek_runs (hlive hs) q).andThen fun _ _ => runs_ok _
  | single t q =>
    exact (runs_plain _).andThen fun _ hs =>
      (single_runs (hlive hs) hsearch (hq t (by simp [Question.times])) q).andThen fun _ _ =>
        runs_ok _
  | full t =>
    exact (runs_plain _).andThen fun _ hs =>
      (full_runs (hlive hs) hsearch (hq t (by simp [Question.times]))).andThen fun _ _ => runs_ok _
  | several qs ts =>
    exact (runs_plain _).andThen fun _ hs =>
      (query2d_runs (hlive hs) hsearch qs hq).andThen fun _ _ => runs_ok _
  | history q a b => exact (history_runs hsearch q a b).andThen fun _ _ => runs_ok _
  | histories qs a b =>
    exact ((runs_plain _).andThen fun _ _ => rangeOfAll_runs hsearch qs _ _).andThen fun _ _ =>
      runs_ok _
  | firstValue q a b =>
    exact ((history_runs hsearch q a b).andThen fun _ _ => runs_ok _).andThen fun _ _ => runs_ok _
  | top t q =>
    exact (runs_plain _).andThen fun _ hs =>
      (top_runs (hlive hs) hsearch (hq t (by simp [Question.times])) q).andThen fun _ _ => runs_ok _
  | image => exact (runs_plain _).andThen fun _ _ => runs_ok _

theorem ask_runs (hsearch : ∀ p size, Boundary p size (search p size))
    (h : ∀ store, s.live = .ok store → store.Unpacked) (question : Question)
    (hq : ∀ t ∈ question.times, t.InRange) :
    Runs (search = partitionPoint) (ask search s question).run (question.ask s) :=
  runs_ask hsearch (fun store hs => (h store hs).readable) question hq

/-- **Whatever image a state system is restored from, every question to it is answered**, without
fetching what is not there, without leaving the 64 bits of times, and without a loop that does not
end; each round of a sweep gets past a time. That holds with any search that comes to a boundary,
and with the usual one the answer is that of the plain question. -/
theorem guarded_ask (hsearch : ∀ p size, Boundary p size (search p size)) {i : Image}
    (hi : i.Ranged) {id : String} (hs : StateSystem.ofImage id i = .ok s) (question : Question)
    (hq : ∀ t ∈ question.times, t.InRange) :
    (∃ answer, (ask search s question).run = .ok answer) ∧
      (ask partitionPoint s question).run = .ok (question.ask s) := by
  have hunpacked : ∀ store, s.live = .ok store → store.Unpacked := by
    intro store hlive
    unfold StateSystem.ofImage at hs
    cases hstore : Store.ofImage i with
    | error e =>
      rw [hstore] at hs
      cases hs
    | ok restored =>
      rw [hstore] at hs
      obtain rfl := Except.ok.inj hs
      obtain rfl : restored = store := Except.ok.inj hlive
      exact Store.unpacked_ofImage hi hstore
  constructor
  · obtain ⟨answer, hanswer, -⟩ := ask_runs hsearch hunpacked question hq
    exact ⟨answer, hanswer⟩
  · obtain ⟨answer, hanswer, hexact⟩ := ask_runs boundary_partitionPoint hunpacked question hq
    rw [hanswer, hexact rfl]

end

/-- An image in which two attributes have one path, and intervals end before they begin, stand in no
order, have the quark of no attribute, or reach to the ends of 64 bits. It has no end. -/
def malformed : Image where
  attributes := [⟨"?", some ⟨7⟩⟩, ⟨"a", some ⟨0⟩⟩, ⟨"a", some ⟨0⟩⟩, ⟨"b", some ⟨1⟩⟩]
  intervals := [[], [⟨⟨9⟩, 20, 10, .int 1⟩, ⟨⟨1⟩, 9223372036854775807, 9223372036854775807, .null⟩,
    ⟨⟨1⟩, 5, -9223372036854775808, .int 2⟩],
      [⟨⟨2⟩, -9223372036854775808, 9223372036854775807, .int 3⟩],
    [⟨⟨3⟩, 9223372036854775807, -9223372036854775808, .int 4⟩]]
  start := some (-9223372036854775808)
  stop := none

/-- A query over several times, among them the first and the last of 64 bits, of all that the image
has. -/
theorem guarded_ask_malformed :
    ∃ s, StateSystem.ofImage "m" malformed = .ok s ∧
      (ask partitionPoint s (.several [⟨1⟩, ⟨2⟩, ⟨3⟩]
        [15, -9223372036854775808, 9223372036854775807])).run =
        .ok (.ok (.intervals [⟨⟨1⟩, -9223372036854775808, 19, .null⟩,
          ⟨⟨1⟩, 9223372036854775807, 9223372036854775807, .null⟩,
          ⟨⟨2⟩, -9223372036854775808, 9223372036854775807, .int 3⟩,
          ⟨⟨3⟩, -9223372036854775808, 9223372036854775806, .null⟩,
          ⟨⟨3⟩, -9223372036854775807, 9223372036854775807, .null⟩])) := by
  have hrestored : ∃ s, StateSystem.ofImage "m" malformed = .ok s := ⟨_, rfl⟩
  obtain ⟨s, hs⟩ := hrestored
  obtain ⟨-, hasked⟩ := guarded_ask boundary_partitionPoint (i := malformed) (by decide) hs
    (.several [⟨1⟩, ⟨2⟩, ⟨3⟩] [15, -9223372036854775808, 9223372036854775807]) (by decide)
  have hfacts : s.disposed = false ∧ s.store.start = some (-9223372036854775808) ∧
    s.store.stop = none ∧
      s.store.closed = true ∧ ∀ q ∈ [⟨1⟩, ⟨2⟩, ⟨3⟩], s.store.tree.contains q = true := by
    obtain rfl := Except.ok.inj hs
    decide
  obtain ⟨hlive, hstart, hstop, hclosed, hqs⟩ := hfacts
  -- the times that are asked for are put in order
  have hts : s.store.answerable (-9223372036854775808)
    [15, -9223372036854775808, 9223372036854775807] =
      [-9223372036854775808, 15, 9223372036854775807] := by
    refine Store.ascending_unique (Store.answerable_ascending ..) (by decide) fun t => ?_
    simp only [Store.mem_answerable, hclosed, hstop, ↓reduceIte, Option.getD_none, List.mem_cons,
      List.not_mem_nil, or_false, Time.latest]
    lia
  have hanswer : Question.ask s
    (.several [⟨1⟩, ⟨2⟩, ⟨3⟩] [15, -9223372036854775808, 9223372036854775807]) =
      .ok (.intervals ([⟨1⟩, ⟨2⟩, ⟨3⟩].flatMap fun q => s.store.swept q
        [-9223372036854775808, 15, 9223372036854775807])) := by
    simp only [Question.ask, query_of_live hlive, Store.query2d_of_start hqs hstart, hts]
    rfl
  refine ⟨s, hs, hasked.trans (congrArg Except.ok (hanswer.trans ?_))⟩
  obtain rfl := Except.ok.inj hs
  decide +kernel

end Guarded

end StateHistory
