import StateHistory.Proofs.Analysis.Stages

/-!
# Analyses that depend on others

Whatever the analyses of a session do and in whatever order they do it, one comes to hold a state
system only after all it depends on are complete, and starts its provider with their state systems.
One that depends on an analysis which was cut short is cut short too: as long as it waits, whatever
it does brings the end of that nearer (`Analysis.waits`).
-/

namespace StateHistory

namespace Analysis

/-- How many turns an analysis takes at most until it has got what it waits for. -/
def waits (a : Analysis) : Nat :=
  match a.phase with
  | .starting => a.dependencies.length + 2
  | .awaiting pending _ => pending.length + 1
  | _ => 0

section
variable {a a' : Analysis} {see : String → Option Analysis}

theorem Worked.waits_eq (h : a.Worked a') : a'.waits = 0 := by
  cases h with
  | goesOn phase_eq _ _ => rw [waits, phase_eq]
  | completes phase_eq _ _ => rw [waits, phase_eq]
  | stops phase_eq _ => rw [waits, phase_eq]

/-- As long as an analysis waits, whatever it does brings the end of that nearer. -/
theorem Advances.waits_lt (h : a.Advances see a') (hwaits : 0 < a.waits) : a'.waits < a.waits := by
  cases h with
  | starts phase phase_eq _ _ =>
    rw [waits, waits, phase, phase_eq]
    exact Nat.lt_succ_self _
  | gets phase _ _ _ phase_eq _ _ =>
    rw [waits, waits, phase, phase_eq]
    exact Nat.lt_succ_self _
  | givesUp phase phase_eq _ _ =>
    rw [waits, waits, phase, phase_eq]
    exact Nat.succ_pos _
  | opens phase worked =>
    rw [worked.waits_eq]
    exact hwaits
  | builds phase worked =>
    rw [worked.waits_eq]
    exact hwaits

theorem Proceeds.waits_lt (h : a.Proceeds a') (hwaits : 0 < a.waits) : a'.waits < a.waits := by
  cases h with
  | step hstep => exact (advances_step hstep).waits_lt hwaits
  | expire hexpire => exact (advances_expire (fun _ => none) hexpire).waits_lt hwaits

end

end Analysis

namespace Session

open Analysis Relation

/-- The analysis `id` asks for `d` to be complete first. -/
def DependsOn (s : Session) (id d : String) : Prop := ∃ a, s.find? id = some a ∧ d ∈ a.dependencies

section
variable {s s' : Session} {a : Analysis} {id d : String}

theorem Ordered.completed_of_dependsOn (hs : s.Ordered) (h : TransGen s.DependsOn id d)
    (hid : s.Completed id) : s.Completed d := by
  have hdirect : ∀ {i j}, s.DependsOn i j → s.Completed i → s.Completed j := by
    rintro i j ⟨a, ha, hj⟩ ⟨b, hb, hcompleted⟩
    obtain rfl : a = b := Option.some.inj (ha.symm.trans hb)
    exact (hs.stage a (mem_of_find? ha).1).ready (hs.of_completed ha hcompleted).2 j hj
  induction h with
  | single h => exact hdirect h hid
  | tail _ h ih => exact hdirect h ih

/-- **The provider starts with the state systems of all it depends on**, and with no other. -/
theorem Ordered.of_starts {folder : Folder} {context : Context} (hs : s.Ordered)
    (ha : a ∈ s.analyses) (h : a.Starts folder context) :
    (∀ d ∈ a.dependencies, ∃ b system, s.find? d = some b ∧ b.outcome = .completed ∧
      b.system = some system ∧
      context.system? d = some system) ∧ ∀ d ∉ a.dependencies, context.system? d = none := by
  obtain ⟨-, -, got, hgot, hready, hcontext⟩ := (hs.stage a ha).of_awaiting h.1
  rw [List.append_nil] at hgot
  rw [hgot]
  refine ⟨fun d hd => ?_, fun d hd => by rw [hcontext, if_neg hd]⟩
  obtain ⟨b, hb, hcompleted⟩ := hready d hd
  obtain ⟨system, hsystem⟩ := Option.ne_none_iff_exists'.1 (hs.of_completed hb hcompleted).2
  refine ⟨b, system, hb, hcompleted, hsystem, ?_⟩
  rw [hcontext, if_pos hd, published, hb]
  exact hsystem

/-- An analysis one of whose dependencies is not complete shows nothing and is not complete either;
while it runs it can go on, and whatever it does brings the end of its waiting nearer. -/
theorem Ordered.blocked (hs : s.Ordered) (ha : a ∈ s.analyses) (hd : d ∈ a.dependencies)
    (hnot : ¬ s.Completed d) :
    a.system = none ∧ (a.outcome.isTerminal = true → Cut a.outcome) ∧ (a.outcome = .running →
      (∃ a' folder, s.Turn a a' folder ∧ a.Proceeds a') ∧ ∀ a', a.Proceeds a' →
      a'.waits < a.waits) := by
  have hstage := hs.stage a ha
  have hnone : a.system = none := by
    by_contra hsystem
    exact hnot (hstage.ready hsystem d hd)
  refine ⟨hnone, ?_⟩
  cases hstage with
  | idle _ outcome _ => simp [outcome, Outcome.isTerminal]
  | starting phase outcome _ =>
    have hstep : a.step s.find? s.folder =
        some ({ a with phase := .awaiting a.dependencies {} }.notify (.started a.id),
          s.folder) := by
      rw [Analysis.step, phase]
    have hwaits : 0 < a.waits := by
      rw [waits, phase]
      exact Nat.succ_pos _
    exact ⟨by simp [outcome, Outcome.isTerminal],
      fun _ => ⟨⟨_, _, .step (seen_find? s) hstep, .step hstep⟩, fun a' h => h.waits_lt hwaits⟩⟩
  | @awaiting got pending context phase outcome _ dependencies ready _ =>
    have hwaits : 0 < a.waits := by
      rw [waits, phase]
      exact Nat.succ_pos _
    cases pending with
    | nil => exact absurd (ready d (List.append_nil got ▸ dependencies ▸ hd)) hnot
    | cons first pending =>
      obtain ⟨a', hexpire⟩ : ∃ a', a.expire = some a' := by
        rw [Analysis.expire, phase]
        exact ⟨_, rfl⟩
      exact ⟨by simp [outcome, Outcome.isTerminal],
        fun _ => ⟨⟨a', s.folder, .expire hexpire, .expire hexpire⟩, fun a' h => h.waits_lt hwaits⟩⟩
  | building _ _ ready => exact absurd (ready d hd) hnot
  | completed _ _ _ ready => exact absurd (ready d hd) hnot
  | stopped _ outcome _ => exact ⟨fun _ => outcome, fun hrunning => by
      rcases outcome with h | ⟨_, h⟩ <;> cases hrunning.symm.trans h⟩

/-- **An outcome that is final stays.** -/
theorem find?_of_moves_over (hs : s.Distinct) (h : ReflTransGen Move s s')
    (ha : s.find? id = some a) (hover : a.phase = .over) :
    ∃ a', s'.find? id = some a' ∧ a'.phase = .over ∧ a'.outcome = a.outcome := by
  induction h with
  | refl => exact ⟨a, ha, hover, rfl⟩
  | @tail s₁ s₂ hmoves hmove ih =>
    obtain ⟨b, hb, hover, houtcome⟩ := ih
    cases hmove with
    | turn hmem h =>
      obtain ⟨b', hb', hover', houtcome', -⟩ :=
        h.find?_over (distinct_of_moves hmoves hs) hmem hb hover
      exact ⟨b', hb', hover', houtcome'.trans houtcome⟩
    | dispose i =>
      refine ⟨b.disposed i, ?_, by simp [Analysis.disposed, hover], houtcome⟩
      rw [find?_map (f := (·.disposed i)) fun _ => rfl, hb]
      rfl
    | files => exact ⟨b, hb, hover, houtcome⟩

/-- **An analysis runs after those it depends on, or not at all.** Whatever sources and providers
do, wherever analyses are called off, lose patience or have their data given up, in whatever order
they go on: one that is complete has all it depends on complete, directly or through others; the
provider starts when all direct dependencies are complete, with the state systems that these show
and no other; and one with a dependency that was cut short shows no state system, whatever saved
history there is, and ends cut short as well, since as long as it waits it can go on and comes
nearer to its end. What has ended has ended for good. -/
theorem prerequisites_run {s s₁ : Session} {ids : List String} (hsetup : s.SetUp)
    (haccept : s.scheduleAll = .ok ids s₁) :
    (ReflTransGen Move s s₁ ∧ ∀ held, ReflTransGen Move s₁ (s₁.settle held)) ∧
    (∀ a ∈ (s₁.settle fun _ _ => false).analyses, a.outcome.isTerminal = true) ∧
    (∀ s', ReflTransGen Move s₁ s' → ∀ a ∈ s'.analyses, a.outcome ≠ .pending) ∧
    ∀ s', ReflTransGen Move s s' → ∀ a ∈ s'.analyses,
      (a.outcome = .completed → ∀ d, TransGen s'.DependsOn a.id d → s'.Completed d) ∧
      (∀ folder context, a.Starts folder context →
        (∀ d ∈ a.dependencies, ∃ b system, s'.find? d = some b ∧ b.outcome = .completed ∧
          b.system = some system ∧
          context.system? d = some system) ∧
        (∀ d ∉ a.dependencies, context.system? d = none) ∧
        ∀ see, a.step see folder = some (match a.provider.start context with
          | .ok handle => { a with system := some (.new a.id), phase := .building handle 0 none }
          | .error e => { a with system := some (.new a.id) }.endFailed e.message, folder)) ∧
      (∀ start, (a.withStart start).expire = a.expire.map (withStart start) ∧
        ∀ folder see, (∀ context, ¬ a.Starts folder context) →
          (a.withStart start).step see folder = (a.step see folder).map fun p =>
            (p.1.withStart start, p.2)) ∧
      (∀ d ∈ a.dependencies, ∀ b, s'.find? d = some b → Cut b.outcome →
        a.system = none ∧ (a.outcome.isTerminal = true → Cut a.outcome) ∧ (a.outcome = .running →
          (∃ a' folder, s'.Turn a a' folder ∧ a.Proceeds a') ∧ ∀ a', a.Proceeds a' →
          a'.waits < a.waits)) ∧
      (a.outcome.isTerminal = true → ∀ s'', ReflTransGen Move s' s'' →
        ∃ a', s''.find? a.id = some a' ∧ a'.outcome = a.outcome) := by
  have hordered := hsetup.ordered
  obtain ⟨hmoves, hscheduled⟩ := moves_scheduleAll hordered.distinct haccept
  have hordered₁ := ordered_of_moves hmoves hordered
  have hstill : ∀ s', ReflTransGen Move s₁ s' → ∀ a ∈ s'.analyses,
      a.phase ≠ .idle := fun s' h a ha =>
    scheduled_of_moves h (fun b hb _ => hscheduled b hb) a ha rfl
  refine ⟨⟨hmoves, moves_settle s₁⟩, fun a ha => ?_, fun s' h a ha hpending => ?_,
    fun s' h a ha => ?_⟩
  · have hsettle := moves_settle s₁ fun _ _ => false
    have hover := (idle_or_over_settle hordered₁.distinct ha).resolve_left (hstill _ hsettle a ha)
    exact ((ordered_of_moves hsettle hordered₁).stage a ha).isTerminal_iff.2 hover
  · exact hstill s' h a ha (((ordered_of_moves h hordered₁).stage a ha).pending_iff.1 hpending)
  · have hs' := ordered_of_moves h hordered
    have hfind := find?_of_mem hs'.distinct ha
    refine ⟨?complete, ?starts, ?otherwise, ?blocked, ?final⟩
    case complete => exact fun hcompleted d hd =>
      hs'.completed_of_dependsOn hd ⟨a, hfind, hcompleted⟩
    case starts =>
      intro folder context hstarts
      obtain ⟨hgets, hnothing⟩ := hs'.of_starts ha hstarts
      exact ⟨hgets, hnothing, fun see => step_of_starts hstarts⟩
    case otherwise => exact fun start =>
      ⟨expire_withStart start a, fun folder see => step_withStart start⟩
    case blocked =>
      intro d hd b hb hcut
      refine hs'.blocked ha hd ?_
      rintro ⟨c, hc, hcompleted⟩
      obtain rfl : b = c := Option.some.inj (hb.symm.trans hc)
      exact hcut.ne_completed hcompleted
    case final =>
      intro hterminal s'' h'
      have hover := (hs'.stage a ha).isTerminal_iff.1 hterminal
      obtain ⟨a', ha', -, houtcome⟩ := find?_of_moves_over hs'.distinct h' hfind hover
      exact ⟨a', ha', houtcome⟩

end

/-- An analysis that has nothing to do. -/
def idling (id : String) (dependencies : List String) : Analysis where
  id := id
  provider := .ofHandler 1 fun _ => pure ()
  source := ⟨[]⟩
  dependencies := dependencies

/-- One analysis that depends on another, and one that depends also on a third, whose source
fails. -/
def branches : Session where
  analyses := [idling "base" [], { idling "broken" [] with source := ⟨[.failure (.other "lost")]⟩ },
    idling "top" ["base"], idling "late" ["base", "broken"]]

theorem prerequisites_run_branches :
    branches.SetUp ∧ ∃ s₁, branches.scheduleAll = .ok ["base", "broken", "top", "late"] s₁ ∧
    (s₁.settle fun _ _ => false).outcomes = [("base", .completed), ("broken", .failed "lost"),
      ("top", .completed), ("late", .failed "prerequisite 'broken' failed: lost")] ∧
    (∃ a, (s₁.settle fun _ _ => false).find? "late" = some a ∧ a.system = none ∧ Cut a.outcome) ∧
    ∀ d, TransGen (s₁.settle fun _ _ => false).DependsOn "top" d → (s₁.settle fun _ _ =>
      false).Completed d := by
  have hsetup : branches.SetUp := setUp_of_new _ _ (by decide) (by
    intro a ha
    simp only [List.mem_cons, List.not_mem_nil, or_false] at ha
    rcases ha with rfl | rfl | rfl | rfl <;> exact ⟨rfl, rfl, rfl⟩)
  obtain ⟨s₁, hs₁⟩ : ∃ s₁, branches.scheduleAll = .ok ["base", "broken", "top", "late"] s₁ :=
    ⟨_, rfl⟩
  have hfinal : (match branches.scheduleAll with
      | .ok _ s₁ => let s := s₁.settle fun _ _ => false
        some (s.outcomes, (s.find? "late").map (·.dependencies), (s.find? "broken").map (·.outcome),
          (s.find? "top").map (·.outcome))
      | .error _ _ => none) = some ([("base", .completed), ("broken", .failed "lost"),
          ("top", .completed),
        ("late", .failed "prerequisite 'broken' failed: lost")], some ["base", "broken"],
          some (.failed "lost"),
        some .completed) := by decide +kernel
  simp only [hs₁, Option.some.injEq, Prod.mk.injEq, Option.map_eq_some_iff] at hfinal
  obtain ⟨houtcomes, ⟨late, hlate, hdependencies⟩, ⟨broken, hbroken, hfailed⟩,
      ⟨top, htop, hcompleted⟩⟩ := hfinal
  obtain ⟨⟨hmoves, hsettle⟩, hover, -, hall⟩ := prerequisites_run hsetup hs₁
  have hreached := hmoves.trans (hsettle fun _ _ => false)
  obtain ⟨-, -, -, hblocked, -⟩ := hall _ hreached late (mem_of_find? hlate).1
  obtain ⟨hcomplete, -⟩ := hall _ hreached top (mem_of_find? htop).1
  obtain ⟨hnone, hcut, -⟩ :=
    hblocked "broken" (by rw [hdependencies]; decide) broken hbroken (.inr ⟨_, hfailed⟩)
  refine ⟨hsetup, s₁, hs₁, houtcomes,
    ⟨late, hlate, hnone, hcut (hover late (mem_of_find? hlate).1)⟩, fun d hd => ?_⟩
  exact hcomplete hcompleted d ((mem_of_find? htop).2 ▸ hd)

end Session

end StateHistory
