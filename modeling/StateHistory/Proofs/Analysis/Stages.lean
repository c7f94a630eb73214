import Mathlib.Data.List.Induction
import StateHistory.Proofs.Analysis.Interleaved

/-!
# How far the analyses of a session have come

The `Stage` of an analysis says how far it has come, and what that tells about those it depends on:
it holds the state systems of those it has waited for, and one of its own only when all of them are
complete. Whatever happens to one analysis brings it from stage to stage (`Stage.advance`,
`Turn.stage`) and takes no other from its stage, so all moves keep a session in order
(`ordered_of_moves`).
-/

namespace StateHistory

namespace Context

theorem system?_insert (c : Context) (id : String) (system : StateSystem) (d : String) :
    (c.insert id system).system? d = if d = id then some system else c.system? d := by
  by_cases hd : d = id
  · have hnone : (c.systems.filter (·.1 ≠ id)).find? (·.1 == id) = none := by
      rw [List.find?_eq_none]
      intro p hp
      simpa using List.of_mem_filter hp
    rw [if_pos hd, hd, system?, insert, List.find?_append, hnone]
    simp
  · have hsame : (fun p : String × StateSystem => decide (p.1 ≠ id ∧ (p.1 == d) = true)) = fun p =>
        p.1 == d := by
      funext p
      by_cases hp : p.1 = d <;> simp [hp, hd]
    simp only [system?, insert, List.find?_append, List.find?_filter, hd, decide_eq_true_eq, hsame]
    simp [Ne.symm hd]

theorem system?_disposed (c : Context) (id d : String) :
    (c.disposed id).system? d = if d = id then (c.system? d).map (·.dispose) else c.system? d := by
  have hkeys : ∀ p : String × StateSystem,
      (if p.1 = id then (p.1, p.2.dispose) else p).1 = p.1 := by
    intro p
    split <;> rfl
  simp only [system?, disposed, List.find?_map, Function.comp_def, hkeys, Option.map_map]
  cases hfind : c.systems.find? (·.1 == d) with
  | none => simp
  | some p =>
    have hp : p.1 = d := by simpa using List.find?_some hfind
    simp only [Option.map_some, hp]
    split <;> rfl

end Context

namespace Analysis

/-- The analysis as it is before anyone schedules it. -/
structure IsNew (a : Analysis) : Prop where
  phase_eq : a.phase = .idle
  outcome_eq : a.outcome = .pending
  unpublished : a.system = none

section
variable {a a' : Analysis} {see : String → Option Analysis}

theorem Advances.ne_over (h : a.Advances see a') : a.phase ≠ .over := by
  cases h with
  | starts phase _ _ _ => rw [phase]; exact nofun
  | gets phase _ _ _ _ _ _ => rw [phase]; exact nofun
  | givesUp phase _ _ _ => rw [phase]; exact nofun
  | opens phase _ => rw [phase]; exact nofun
  | builds phase _ => rw [phase]; exact nofun

end

end Analysis

namespace Session

open Analysis Relation

/-- A session as it is set up: new analyses are registered one after the other. -/
inductive SetUp : Session → Prop
  | empty (folder : Folder) : SetUp { folder }
  | add {s s' : Session} {a : Analysis} (hs : SetUp s) (hnew : a.IsNew) (h : s.add a = .ok s') :
      SetUp s'

/-- The analysis of this id has completed. -/
def Completed (s : Session) (d : String) : Prop := ∃ b, s.find? d = some b ∧ b.outcome = .completed

/-- The state system that the analysis of this id shows. -/
def published (s : Session) (d : String) : Option StateSystem := (s.find? d).bind (·.system)

/-- How far an analysis has come, and what that tells about those it depends on. -/
inductive Stage (s : Session) (a : Analysis) : Prop
  | idle (phase : a.phase = .idle) (outcome : a.outcome = .pending) (unpublished : a.system = none)
  | starting (phase : a.phase = .starting) (outcome : a.outcome = .running)
      (unpublished : a.system = none)
  | awaiting {got pending : List String} {context : Context}
    (phase : a.phase = .awaiting pending context)
    (outcome : a.outcome = .running) (unpublished : a.system = none)
    (dependencies : a.dependencies = got ++ pending)
    (ready : ∀ d ∈ got, s.Completed d)
    (context_eq : ∀ d, context.system? d = if d ∈ got then s.published d else none)
  | building {handle : Handler} {processed : Nat} {last : Option Time}
    (phase : a.phase = .building handle processed last)
    (outcome : a.outcome = .running) (ready : ∀ d ∈ a.dependencies, s.Completed d)
  | completed (phase : a.phase = .over) (outcome : a.outcome = .completed)
    (published : a.system.isSome = true) (ready : ∀ d ∈ a.dependencies, s.Completed d)
  | stopped (phase : a.phase = .over) (outcome : Cut a.outcome)
    (ready : a.system = none ∨ ∀ d ∈ a.dependencies, s.Completed d)

/-- Every analysis of the session is at one of the stages. -/
structure Ordered (s : Session) : Prop where
  distinct : s.Distinct
  stage : ∀ a ∈ s.analyses, s.Stage a

/-- Whoever has completed in `s` has in `s'`, with the same state system. -/
def Stays (s s' : Session) : Prop :=
  ∀ d, s.Completed d → s'.Completed d ∧ s'.published d = s.published d

section
variable {s s' : Session} {a a' b : Analysis} {folder : Folder} {id d : String}
  {see : String → Option Analysis}

/-! ## Setting up -/

/-- An analysis that is registered has an id of its own. -/
theorem Distinct.add (hids : s.Distinct) (h : s.add a = .ok s') :
    s'.Distinct ∧ ∀ b ∈ s'.analyses, b ∈ s.analyses ∨ b = a := by
  unfold Session.add at h
  split at h
  · cases h
  · rename_i hfind
    obtain rfl := Except.ok.inj h
    refine ⟨?_, fun b hb => by simpa using hb⟩
    rw [Distinct, List.map_append, List.map_singleton, List.nodup_append]
    refine ⟨hids, List.nodup_singleton _, fun i hi j hj hij => ?_⟩
    obtain ⟨b, hb, rfl⟩ := List.mem_map.1 hi
    rw [List.mem_singleton] at hj
    rw [← hj, ← hij, find?_of_mem hids hb] at hfind
    exact hfind rfl

theorem SetUp.new (h : s.SetUp) : s.Distinct ∧ ∀ a ∈ s.analyses, a.IsNew := by
  induction h with
  | empty => exact ⟨List.nodup_nil, fun _ ha => absurd ha List.not_mem_nil⟩
  | @add s s' a _ hnew h ih =>
    obtain ⟨hdistinct, hmem⟩ := ih.1.add h
    refine ⟨hdistinct, fun b hb => ?_⟩
    rcases hmem b hb with hb | rfl
    · exact ih.2 b hb
    · exact hnew

/-- **Any new analyses with ids of their own can be set up.** -/
theorem setUp_of_new (analyses : List Analysis) (folder : Folder)
    (hids : (analyses.map (·.id)).Nodup) (hnew : ∀ a ∈ analyses, a.IsNew) :
    SetUp ⟨analyses, folder⟩ := by
  induction analyses using List.reverseRecOn with
  | nil => exact .empty folder
  | append_singleton analyses a ih =>
    rw [List.map_append, List.map_singleton, List.nodup_append] at hids
    refine .add (ih hids.1 fun b hb => hnew b (List.mem_append_left _ hb)) (hnew a (by simp)) ?_
    have hfind : find? ⟨analyses, folder⟩ a.id = none := by
      refine List.find?_eq_none.2 fun b hb hid => ?_
      exact hids.2.2 b.id (List.mem_map_of_mem hb) a.id (List.mem_singleton.2 rfl)
        (beq_iff_eq.1 hid)
    simp [Session.add, hfind]

theorem SetUp.ordered (h : s.SetUp) : s.Ordered :=
  ⟨h.new.1, fun a ha => .idle (h.new.2 a ha).phase_eq (h.new.2 a ha).outcome_eq
    (h.new.2 a ha).unpublished⟩

/-! ## Stages -/

theorem Stage.pending_iff (h : s.Stage a) : a.outcome = .pending ↔ a.phase = .idle := by
  cases h with
  | idle phase outcome => exact ⟨fun _ => phase, fun _ => outcome⟩
  | starting phase outcome | awaiting phase outcome | building phase outcome
  | completed phase outcome =>
    simp [phase, outcome]
  | stopped phase outcome => rcases outcome with h | ⟨_, h⟩ <;> simp [phase, h]

theorem Stage.isTerminal_iff (h : s.Stage a) : a.outcome.isTerminal = true ↔ a.phase = .over := by
  cases h with
  | idle phase outcome | starting phase outcome | awaiting phase outcome | building phase outcome =>
    simp [phase, outcome, Outcome.isTerminal]
  | completed phase outcome => simp [phase, outcome, Outcome.isTerminal]
  | stopped phase outcome => rcases outcome with h | ⟨_, h⟩ <;> simp [phase, h, Outcome.isTerminal]

/-- A run that is complete is over, and its state system is there. -/
theorem Stage.of_completed (h : s.Stage a) (hcompleted : a.outcome = .completed) :
    a.phase = .over ∧ a.system ≠ none := by
  cases h with
  | idle _ outcome | starting _ outcome | awaiting _ outcome | building _ outcome =>
    cases hcompleted.symm.trans outcome
  | completed phase _ published => exact ⟨phase, Option.isSome_iff_ne_none.1 published⟩
  | stopped _ outcome => exact absurd hcompleted outcome.ne_completed

/-- **Whoever holds a state system has all it depends on complete.** -/
theorem Stage.ready (h : s.Stage a) (hsystem : a.system ≠ none) :
    ∀ d ∈ a.dependencies, s.Completed d := by
  cases h with
  | idle _ _ unpublished | starting _ _ unpublished | awaiting _ _ unpublished =>
    exact absurd unpublished hsystem
  | building _ _ ready => exact ready
  | completed _ _ _ ready => exact ready
  | stopped _ _ ready => exact ready.resolve_left hsystem

theorem Stage.of_idle (h : s.Stage a) (hphase : a.phase = .idle) : a.system = none := by
  cases h with
  | idle _ _ unpublished => exact unpublished
  | starting phase | awaiting phase | building phase | completed phase | stopped phase =>
    cases phase.symm.trans hphase

theorem Stage.of_starting (h : s.Stage a) (hphase : a.phase = .starting) :
    a.outcome = .running ∧ a.system = none := by
  cases h with
  | starting _ outcome unpublished => exact ⟨outcome, unpublished⟩
  | idle phase | awaiting phase | building phase | completed phase | stopped phase =>
    cases phase.symm.trans hphase

theorem Stage.of_awaiting {pending : List String} {context : Context} (h : s.Stage a)
    (hphase : a.phase = .awaiting pending context) : a.outcome = .running ∧ a.system = none ∧ ∃ got,
      a.dependencies = got ++ pending ∧ (∀ d ∈ got, s.Completed d) ∧
        ∀ d, context.system? d = if d ∈ got then s.published d else none := by
  cases h with
  | awaiting phase outcome unpublished dependencies ready context_eq =>
    obtain ⟨rfl, rfl⟩ := Phase.awaiting.inj (phase.symm.trans hphase)
    exact ⟨outcome, unpublished, _, dependencies, ready, context_eq⟩
  | idle phase | starting phase | building phase | completed phase | stopped phase =>
    cases phase.symm.trans hphase

theorem Stage.of_building {handle : Handler} {processed : Nat} {last : Option Time} (h : s.Stage a)
    (hphase : a.phase = .building handle processed last) :
    a.outcome = .running ∧ ∀ d ∈ a.dependencies, s.Completed d := by
  cases h with
  | building _ outcome ready => exact ⟨outcome, ready⟩
  | idle phase | starting phase | awaiting phase | completed phase | stopped phase =>
    cases phase.symm.trans hphase

theorem Stage.mono (h : s.Stage a) (hstays : s.Stays s') : s'.Stage a := by
  cases h with
  | idle phase outcome unpublished => exact .idle phase outcome unpublished
  | starting phase outcome unpublished => exact .starting phase outcome unpublished
  | awaiting phase outcome unpublished dependencies ready context_eq =>
    refine .awaiting phase outcome unpublished dependencies
      (fun d hd => (hstays d (ready d hd)).1) fun d => ?_
    rw [context_eq]
    split
    · rename_i hd
      exact (hstays d (ready d hd)).2.symm
    · rfl
  | building phase outcome ready => exact .building phase outcome fun d hd =>
    (hstays d (ready d hd)).1
  | completed phase outcome published ready => exact .completed phase outcome published fun d hd =>
    (hstays d (ready d hd)).1
  | stopped phase outcome ready =>
    exact .stopped phase outcome (ready.imp_right fun ready d hd => (hstays d (ready d hd)).1)

/-- The stage of an analysis is a matter of its phase, its outcome and its state system. -/
theorem Stage.congr (h : s.Stage a) (hphase : a'.phase = a.phase)
    (houtcome : a'.outcome = a.outcome) (hsystem : a'.system = a.system)
    (hdependencies : a'.dependencies = a.dependencies) : s.Stage a' := by
  cases h with
  | idle phase outcome unpublished =>
    exact .idle (hphase.trans phase) (houtcome.trans outcome) (hsystem.trans unpublished)
  | starting phase outcome unpublished =>
    exact .starting (hphase.trans phase) (houtcome.trans outcome) (hsystem.trans unpublished)
  | awaiting phase outcome unpublished dependencies ready context_eq =>
    exact .awaiting (hphase.trans phase) (houtcome.trans outcome) (hsystem.trans unpublished)
      (hdependencies.trans dependencies) ready context_eq
  | building phase outcome ready =>
    exact .building (hphase.trans phase) (houtcome.trans outcome) (hdependencies ▸ ready)
  | completed phase outcome published ready =>
    exact .completed (hphase.trans phase) (houtcome.trans outcome) (hsystem ▸ published)
      (hdependencies ▸ ready)
  | stopped phase outcome ready =>
    exact .stopped (hphase.trans phase) (houtcome ▸ outcome)
      (by rw [hsystem, hdependencies]; exact ready)

/-! ## Turns and moves -/

theorem Ordered.of_completed (hs : s.Ordered) (hb : s.find? d = some b)
    (hcompleted : b.outcome = .completed) :
    b.phase = .over ∧ b.system ≠ none := (hs.stage b (mem_of_find? hb).1).of_completed hcompleted

/-- What is seen of an analysis that is complete is how it stands. -/
theorem Ordered.seen (hs : s.Ordered) (hsee : s.Seen see) {c : Analysis} (h : see d = some c)
    (hcompleted : c.outcome = .completed) :
    s.find? d = some c := by
  obtain ⟨b, hb, hshows⟩ := hsee d c h
  cases hshows with
  | asIs => exact hb
  | between hstep =>
    -- A step that is under way is one of an analysis that has not completed.
    exact absurd (hs.of_completed hb hcompleted).1 (advances_step hstep).ne_over

/-- **Whatever an analysis does brings it from one stage to another.** -/
theorem Stage.advance (hstage : s.Stage a) (h : a.Advances see a') (halike : a.Alike a')
    (hseen : ∀ d c, see d = some c → c.outcome = .completed → s.find? d = some c) : s.Stage a' := by
  have hworked : (∀ d ∈ a.dependencies, s.Completed d) → a.outcome = .running → a.Worked a' →
      s.Stage a' := by
    intro hready hrunning hw
    rw [← halike.dependencies_eq] at hready
    cases hw with
    | goesOn phase_eq outcome_eq _ => exact .building phase_eq (outcome_eq.trans hrunning) hready
    | completes phase_eq outcome_eq published =>
      exact .completed phase_eq outcome_eq published hready
    | stops phase_eq cut => exact .stopped phase_eq cut (.inr hready)
  cases h with
  | starts phase phase_eq outcome_eq system_eq =>
    obtain ⟨hrunning, hnone⟩ := hstage.of_starting phase
    have hgot : a'.dependencies = [] ++ a.dependencies := halike.dependencies_eq
    exact .awaiting phase_eq (outcome_eq.trans hrunning) (system_eq.trans hnone) hgot nofun fun _ =>
      rfl
  | @gets d pending context other system phase seen completed published phase_eq
      outcome_eq system_eq =>
    obtain ⟨hrunning, hnone, got, hgot, hready, hcontext⟩ := hstage.of_awaiting phase
    have hfind := hseen d other seen completed
    have hgot' : a'.dependencies = (got ++ [d]) ++ pending := by
      rw [halike.dependencies_eq, hgot, List.append_assoc, List.singleton_append]
    refine .awaiting phase_eq (outcome_eq.trans hrunning) (system_eq.trans hnone) hgot' ?_ fun i =>
      ?_
    · intro i hi
      rcases List.mem_append.1 hi with hi | hi
      · exact hready i hi
      · exact List.mem_singleton.1 hi ▸ ⟨other, hfind, completed⟩
    · rw [Context.system?_insert, hcontext]
      by_cases hi : i = d
      · simp [hi, Session.published, hfind, published]
      · simp [hi]
  | givesUp phase phase_eq cut unpublished =>
    exact .stopped phase_eq cut (.inl (unpublished (hstage.of_awaiting phase).2.1))
  | opens phase worked =>
    obtain ⟨hrunning, -, got, hgot, hready, -⟩ := hstage.of_awaiting phase
    rw [List.append_nil] at hgot
    exact hworked (hgot ▸ hready) hrunning worked
  | builds phase worked =>
    obtain ⟨hrunning, hready⟩ := hstage.of_building phase
    exact hworked hready hrunning worked

/-- An analysis that has ended takes no turn that changes how. -/
theorem Turn.of_over (h : s.Turn a a' folder) (hover : a.phase = .over) :
    a'.phase = .over ∧ a'.outcome = a.outcome ∧ a'.system = a.system := by
  cases h with
  | schedule h => cases hover.symm.trans (scheduleAfter_ok_iff.1 h).1
  | step _ h => exact absurd hover (advances_step h).ne_over
  | expire h => exact absurd hover (advances_expire s.find? h).ne_over
  | cancel => exact ⟨hover, rfl, rfl⟩
  | vary h =>
    cases h with
    | source | start => exact ⟨hover, rfl, rfl⟩
    | handler phase => cases hover.symm.trans phase

theorem Turn.stage (hs : s.Ordered) (h : s.Turn a a' folder) (hstage : s.Stage a) : s.Stage a' := by
  have halike := h.alike
  cases h with
  | schedule h =>
    obtain ⟨hidle, rfl⟩ := scheduleAfter_ok_iff.1 h
    exact .starting rfl rfl (hstage.of_idle hidle)
  | step hsee h => exact hstage.advance (advances_step h) halike fun _ _ => hs.seen hsee
  | expire h => exact hstage.advance (advances_expire s.find? h) halike fun _ _ hc _ => hc
  | cancel => exact hstage.congr rfl rfl rfl rfl
  | vary h =>
    cases h with
    | source | start => exact hstage.congr rfl rfl rfl rfl
    | handler phase =>
      obtain ⟨hrunning, hready⟩ := hstage.of_building phase
      exact .building rfl hrunning hready

/-- **What has ended has ended for good.** -/
theorem Turn.find?_over (hs : s.Distinct) (ha : a ∈ s.analyses) (h : s.Turn a a' folder)
    (hb : s.find? d = some b) (hover : b.phase = .over) :
    ∃ b', find? { s.put a' with folder } d = some b' ∧
      b'.phase = .over ∧ b'.outcome = b.outcome ∧ b'.system = b.system := by
  rw [find?_put ha h.alike.id_eq]
  split
  · rename_i hd
    obtain rfl : b = a := Option.some.inj (hb.symm.trans (hd ▸ find?_of_mem hs ha))
    exact ⟨a', rfl, h.of_over hover⟩
  · exact ⟨b, hb, hover, rfl, rfl⟩

theorem Turn.stays (hs : s.Ordered) (ha : a ∈ s.analyses) (h : s.Turn a a' folder) :
    s.Stays { s.put a' with folder } := by
  rintro d ⟨b, hb, hcompleted⟩
  have hover := (hs.of_completed hb hcompleted).1
  obtain ⟨b', hb', -, houtcome, hsystem⟩ := h.find?_over hs.distinct ha hb hover
  exact ⟨⟨b', hb', houtcome.trans hcompleted⟩, by rw [published, published, hb, hb']; exact hsystem⟩

theorem completed_disposed (id d : String) :
    Completed { s with analyses := s.analyses.map (·.disposed id) } d ↔ s.Completed d := by
  simp only [Completed, find?_map (f := (·.disposed id)) fun _ => rfl]
  cases s.find? d with
  | none => simp
  | some b => simp [disposed]

theorem published_disposed (id d : String) :
    published { s with analyses := s.analyses.map (·.disposed id) } d =
    if d = id then (s.published d).map (·.dispose) else s.published d := by
  simp only [published, find?_map (f := (·.disposed id)) fun _ => rfl]
  cases hfind : s.find? d with
  | none => simp
  | some b =>
    rw [← (mem_of_find? hfind).2]
    rfl

/-- Giving up data takes no analysis from its stage: those that have got hold of the data share
it. -/
theorem Stage.disposed (h : s.Stage a) (id : String) :
    Stage { s with analyses := s.analyses.map (·.disposed id) } (a.disposed id) := by
  have hready : ∀ {ds : List String}, (∀ d ∈ ds, s.Completed d) →
      ∀ d ∈ ds, Completed { s with analyses := s.analyses.map (·.disposed id) } d :=
    fun h d hd => (completed_disposed id d).2 (h d hd)
  have hnone : a.system = none → (a.disposed id).system = none := by
    intro hnone
    simp [Analysis.disposed, hnone]
  cases h with
  | idle phase outcome unpublished =>
    exact .idle (by simp [Analysis.disposed, phase]) outcome (hnone unpublished)
  | starting phase outcome unpublished =>
    exact .starting (by simp [Analysis.disposed, phase]) outcome (hnone unpublished)
  | @awaiting got pending context phase outcome unpublished dependencies ready context_eq =>
    have hphase : (a.disposed id).phase = .awaiting pending (context.disposed id) := by
      simp [Analysis.disposed, phase]
    refine .awaiting hphase outcome (hnone unpublished) dependencies (hready ready) fun d => ?_
    rw [Context.system?_disposed, context_eq, published_disposed]
    split
    · split <;> rfl
    · rfl
  | @building handle processed last phase outcome ready =>
    have hphase : (a.disposed id).phase = .building handle processed last := by
      simp [Analysis.disposed, phase]
    exact .building hphase outcome (hready ready)
  | completed phase outcome published ready =>
    refine .completed (by simp [Analysis.disposed, phase]) outcome ?_ (hready ready)
    simp only [Analysis.disposed]
    split
    · simpa using published
    · exact published
  | stopped phase outcome ready =>
    exact .stopped (by simp [Analysis.disposed, phase]) outcome (ready.imp hnone hready)

/-- **A move keeps every analysis at one of its stages.** -/
theorem Move.ordered (h : s.Move s') (hs : s.Ordered) : s'.Ordered := by
  refine ⟨distinct_of_moves (.single h) hs.distinct, fun b hb => ?_⟩
  cases h with
  | @turn a a' folder ha h =>
    rcases mem_put hb with rfl | hb
    · exact (h.stage hs (hs.stage a ha)).mono (h.stays hs ha)
    · exact (hs.stage b hb).mono (h.stays hs ha)
  | dispose id =>
    obtain ⟨c, hc, rfl⟩ := List.mem_map.1 hb
    exact (hs.stage c hc).disposed id
  | files folder => exact (hs.stage b hb).mono fun _ h => ⟨h, rfl⟩

theorem ordered_of_moves (h : ReflTransGen Move s s') (hs : s.Ordered) : s'.Ordered := by
  induction h with
  | refl => exact hs
  | tail _ hmove ih => exact hmove.ordered ih

end

end Session

end StateHistory
