import StateHistory.Proofs.Analysis.Moves
import StateHistory.Proofs.StateSystem.Status

/-!
# What the listeners of a run are told

A run proceeds by its own steps, whatever the other analyses and the folder look like at each of
them, and by giving up waiting; between its steps anyone may call it off or give up its data.
Through all of that `Course` is kept: the listeners have heard of the start, of every milestone
among the events handled so far, and of the end if it has come, and the end agrees with the outcome
and with the state system. Where the data comes from is decided by the one step that finds a saved
history, or none (`Opening`), and so is the number that completion tells.
-/

namespace StateHistory

/-- Hears some messages one after the other, unless gone away. -/
def Listener.hearAll (ns : List Notification) (l : Listener) : Listener :=
  { l with inbox := l.inbox.map (· ++ ns) }

/-- What is told about handling some events: the number and the time of each event that completes an
interval. -/
def milestones (id : String) (interval : Nat) (es : List Event) : List Notification :=
  (List.range (es.length / interval)).filterMap fun k =>
    es[(k + 1) * interval - 1]?.map fun e => .progress id ((k + 1) * interval) e.timestamp

section
variable {id : String} {interval : Nat} {e : Event} {es : List Event} {n : Notification}
  {ns : List Notification} {ls : List Listener}

@[simp] theorem milestones_nil (id : String) (interval : Nat) : milestones id interval [] = [] := by
  simp [milestones]

theorem milestone_lt {k : Nat} (h : k < es.length / interval) :
    (k + 1) * interval - 1 < es.length := by
  have hpos : 0 < interval := Nat.pos_of_ne_zero fun h0 => by simp [h0] at h
  have hle : (k + 1) * interval ≤ es.length := (Nat.le_div_iff_mul_le hpos).1 (Nat.succ_le_of_lt h)
  have hone : 0 < (k + 1) * interval := Nat.mul_pos (Nat.succ_pos k) hpos
  omega

/-- No interval is left out. -/
theorem length_milestones (id : String) (interval : Nat) (es : List Event) :
    (milestones id interval es).length = es.length / interval := by
  unfold milestones
  rw [List.filterMap_length_eq_length.2, List.length_range]
  intro k hk
  simpa using milestone_lt (List.mem_range.1 hk)

/-- An event is a milestone when it completes an interval. -/
theorem milestones_append (id : String) (interval : Nat) (es : List Event) (e : Event) :
    milestones id interval (es ++ [e]) = milestones id interval es ++
      if (es.length + 1) % interval = 0 then [.progress id (es.length + 1) e.timestamp]
        else [] := by
  have hold : ∀ k ∈ List.range (es.length / interval), (es ++ [e])[(k + 1) * interval - 1]? =
      es[(k + 1) * interval - 1]? := fun k hk =>
    List.getElem?_append_left (milestone_lt (List.mem_range.1 hk))
  unfold milestones
  rw [List.length_append, List.length_singleton]
  split
  · rename_i hmod
    have hdiv := Nat.succ_div_of_mod_eq_zero hmod
    have hlast : (es.length / interval + 1) * interval = es.length + 1 := by
      rw [← hdiv]
      exact Nat.div_mul_cancel (Nat.dvd_of_mod_eq_zero hmod)
    rw [hdiv, List.range_succ, List.filterMap_append]
    congr 1
    · exact List.filterMap_congr fun k hk => by rw [hold k hk]
    · simp [hlast]
  · rename_i hmod
    rw [Nat.succ_div_of_mod_ne_zero hmod, List.append_nil]
    exact List.filterMap_congr fun k hk => by rw [hold k hk]

theorem hearAll_nil (l : Listener) : l.hearAll [] = l := by
  obtain ⟨callsOff, inbox⟩ := l
  cases inbox <;> simp [Listener.hearAll]

theorem tell_hearAll :
    Listener.tell n (ls.map (·.hearAll ns)) = ls.map (·.hearAll (ns ++ [n])) := by
  simp [Listener.tell, Listener.hear, Listener.hearAll, Function.comp_def]

end

namespace Analysis

open StateSystem

/-- The number of events between two messages on progress. -/
def interval (a : Analysis) : Nat := max a.config.progressInterval 1

/-- What is told about a run that has handled some events and goes on. -/
def messages (a : Analysis) (es : List Event) : List Notification :=
  .started a.id :: milestones a.id a.interval es

/-- The message about an end says what the outcome and the state system say. -/
def Agrees (a : Analysis) : Notification → Prop
  | .completed id _ =>
    id = a.id ∧ a.outcome = .completed ∧ ∃ s, a.system = some s ∧ s.status = .built
  | .cancelled id =>
    id = a.id ∧ a.outcome = .cancelled ∧ ∀ s, a.system = some s → s.status = .cancelled
  | .failed id reason =>
    id = a.id ∧ a.outcome = .failed reason ∧ ∀ s, a.system = some s → s.status = .failed reason
  | _ => False

/-- Where the data of a run comes from. -/
inductive Basis where
  /-- The run still waits, or it ended while it did. -/
  | undecided
  | saved
  | events
deriving DecidableEq, Repr

/-- A run loads what it finds. -/
def Basis.of : Option StateSystem → Basis
  | some _ => .saved
  | none => .events

/-- In its run from `ready` to `a'` the analysis opened in `b`, on what it saw of the files. -/
def Opening (ready b : Analysis) (folder : Folder) (a' : Analysis) : Prop :=
  ∃ context, Relation.ReflTransGen Move ready b ∧ b.phase = .awaiting [] context ∧
    Relation.ReflTransGen Move (b.opened folder context) a'

/-- What decided where the data comes from. -/
def Decided (ready a' : Analysis) (basis : Basis) : Prop :=
  basis ≠ .undecided → ∃ b folder, Opening ready b folder a' ∧ basis = .of (b.loadHistory folder)

/-- A message of completion gives the number of the events, when the source has given all of them,
and none when the source was not asked. -/
def Basis.Counts (basis : Basis) (a a' : Analysis) (es : List Event) (rest : List Read) :
    Notification → Prop
  | .completed _ n => basis = .saved ∧ n = 0 ∧ es = [] ∧ a'.source = a.source ∨
      basis = .events ∧ n = es.length ∧ Source.next ⟨rest⟩ = (.nothing, a'.source)
  | _ => True

/-- The source has been asked for what comes before `rest`, and at most once more. -/
def ReadUpTo (a' : Analysis) (rest : List Read) : Prop :=
  a'.source = ⟨rest⟩ ∨ a'.source = (Source.next ⟨rest⟩).2

/-- The analysis is as it was scheduled, and its listeners have heard some messages. -/
structure Heard (a a' : Analysis) (ns : List Notification) : Prop where
  id_eq : a'.id = a.id
  provider_eq : a'.provider = a.provider
  config_eq : a'.config = a.config
  listeners_eq : a'.listeners = a.listeners.map (·.hearAll ns)

/-- How far the run of `a` has come in `a'`: where its data comes from, which events it has handled
and what has been told. -/
inductive Stage (a a' : Analysis) : Basis → List Event → List Notification → Prop
  | starting (hphase : a'.phase = .starting) (hnone : a'.system = none)
    (hrunning : a'.outcome = .running)
    (hsource : a'.source = a.source) : Stage a a' .undecided [] []
  | awaiting {pending : List String} {context : Context}
    (hphase : a'.phase = .awaiting pending context)
    (hnone : a'.system = none) (hrunning : a'.outcome = .running) (hsource : a'.source = a.source) :
    Stage a a' .undecided [] (a.messages [])
  | building {es : List Event} {handle : Handler} {last : Option Time} {s : StateSystem}
    (hphase : a'.phase = .building handle es.length last) (hkeeps : ∀ e, (handle e).KeepsStatus)
    (hsystem : a'.system = some s) (hbuilding : s.status = .building)
    (hrunning : a'.outcome = .running)
    (hreads : a.source.reads = es.map .event ++ a'.source.reads) :
    Stage a a' .events es (a.messages es)
  | ended {basis : Basis} {es : List Event} {rest : List Read} {final : Notification}
    (hphase : a'.phase = .over)
    (hreads : a.source.reads = es.map .event ++ rest) (hasked : a'.ReadUpTo rest)
    (hagrees : a'.Agrees final)
    (hcounts : basis.Counts a a' es rest final) : Stage a a' basis es (a.messages es ++ [final])

/-- The run of `a` has come to `a'`, with its data from there, these events handled and these
messages told. -/
structure Course (a a' : Analysis) (basis : Basis) (es : List Event) (ns : List Notification) : Prop
    extends Heard a a' ns where
  stage : Stage a a' basis es ns

section
variable {a a₁ a' ready : Analysis} {basis : Basis} {es : List Event} {ns : List Notification}
  {n : Notification} {s : StateSystem} {rest : List Read} {reason : String}

theorem Heard.notify (h : Heard a a' ns) (n : Notification) :
    Heard a (a'.notify n) (ns ++ [n]) := by
  refine ⟨h.id_eq, h.provider_eq, h.config_eq, ?_⟩
  change Listener.tell n a'.listeners = _
  rw [h.listeners_eq, tell_hearAll]

/-! ## What a stage is about -/

theorem Agrees.congr (h : a₁.Agrees n) (hid : a'.id = a₁.id) (houtcome : a'.outcome = a₁.outcome)
    (hstatus : a'.system.map (·.status) = a₁.system.map (·.status)) : a'.Agrees n := by
  have hall : ∀ status, (∀ s, a₁.system = some s → s.status = status) → ∀ s, a'.system = some s →
      s.status = status := by
    intro status hall s hs
    rw [hs, Option.map_some] at hstatus
    obtain ⟨s₁, hs₁, heq⟩ := Option.map_eq_some_iff.1 hstatus.symm
    exact heq.symm.trans (hall s₁ hs₁)
  cases n with
  | started id => exact h
  | progress id events time => exact h
  | completed id events =>
    obtain ⟨rfl, hcompleted, s, hs, hbuilt⟩ := h
    rw [hs, Option.map_some] at hstatus
    obtain ⟨s', hs', heq⟩ := Option.map_eq_some_iff.1 hstatus
    exact ⟨hid.symm, houtcome.trans hcompleted, s', hs', heq.trans hbuilt⟩
  | cancelled id =>
    obtain ⟨rfl, hcancelled, hs⟩ := h
    exact ⟨hid.symm, houtcome.trans hcancelled, hall _ hs⟩
  | failed id reason =>
    obtain ⟨rfl, hfailed, hs⟩ := h
    exact ⟨hid.symm, houtcome.trans hfailed, hall _ hs⟩

theorem Basis.Counts.congr (h : basis.Counts a a₁ es rest n) (hsource : a'.source = a₁.source) :
    basis.Counts a a' es rest n := by
  cases n with
  | completed id k =>
    unfold Basis.Counts at *
    rwa [hsource]
  | _ => trivial

/-- A stage is about the phase, the source, the outcome and the state of construction. -/
theorem Stage.congr (h : Stage a a₁ basis es ns) (hid : a'.id = a₁.id)
    (hphase : a'.phase = a₁.phase) (hsource : a'.source = a₁.source)
    (houtcome : a'.outcome = a₁.outcome)
    (hstatus : a'.system.map (·.status) = a₁.system.map (·.status)) : Stage a a' basis es ns := by
  cases h with
  | starting hphase' hnone hrunning hsource' =>
    exact .starting (hphase.trans hphase') (by simpa [hnone] using hstatus)
      (houtcome.trans hrunning) (hsource.trans hsource')
  | awaiting hphase' hnone hrunning hsource' =>
    exact .awaiting (hphase.trans hphase') (by simpa [hnone] using hstatus)
      (houtcome.trans hrunning) (hsource.trans hsource')
  | building hphase' hkeeps hsystem hbuilding hrunning hreads =>
    rw [hsystem, Option.map_some, hbuilding] at hstatus
    obtain ⟨s', hs', hbuilding'⟩ := Option.map_eq_some_iff.1 hstatus
    exact .building (hphase.trans hphase') hkeeps hs' hbuilding' (houtcome.trans hrunning)
      (by rw [hsource, hreads])
  | ended hphase' hreads hasked hagrees hcounts =>
    refine .ended (hphase.trans hphase') hreads ?_ (hagrees.congr hid houtcome hstatus)
      (hcounts.congr hsource)
    unfold ReadUpTo at *
    rwa [hsource]

/-! ## Ends -/

/-- The message about the end ends a run. -/
theorem Heard.ended (h : Heard a a' (a.messages es)) (hphase : a'.phase = .over)
    (hreads : a.source.reads = es.map .event ++ rest) (hasked : a'.ReadUpTo rest)
    (hagrees : (a'.notify n).Agrees n) (hcounts : basis.Counts a a' es rest n) :
    Course a (a'.notify n) basis es (a.messages es ++ [n]) :=
  ⟨h.notify n, .ended hphase hreads hasked hagrees (hcounts.congr rfl)⟩

theorem Heard.endCancelled (h : Heard a a' (a.messages es))
    (hreads : a.source.reads = es.map .event ++ rest) (hasked : a'.ReadUpTo rest)
    (hsystem : ∀ s, a'.system = some s → s.status = .building) (basis : Basis) :
    Course a a'.endCancelled basis es (a.messages es ++ [.cancelled a'.id]) := by
  refine Heard.ended ⟨h.id_eq, h.provider_eq, h.config_eq, h.listeners_eq⟩ rfl hreads hasked
    ⟨rfl, rfl, fun s hs => ?_⟩ trivial
  obtain ⟨s', hs', rfl⟩ := Option.map_eq_some_iff.1 hs
  simp [finish, hsystem s' hs', Status.isFinished]

theorem Heard.endFailed (h : Heard a a' (a.messages es))
    (hreads : a.source.reads = es.map .event ++ rest) (hasked : a'.ReadUpTo rest)
    (hsystem : ∀ s, a'.system = some s → (s.finish (.failed reason)).status = .failed reason)
    (basis : Basis) :
    Course a (a'.endFailed reason) basis es (a.messages es ++ [.failed a'.id reason]) := by
  refine Heard.ended ⟨h.id_eq, h.provider_eq, h.config_eq, h.listeners_eq⟩ rfl hreads hasked
    ⟨rfl, rfl, fun s hs => ?_⟩ trivial
  obtain ⟨s', hs', rfl⟩ := Option.map_eq_some_iff.1 hs
  exact hsystem s' hs'

theorem Heard.endCompleted (h : Heard a a' (a.messages es))
    (hreads : a.source.reads = es.map .event ++ rest) (hasked : a'.ReadUpTo rest)
    (hsystem : a'.system = some s) (hbuilt : s.status = .built) {processed : Nat}
    (hcounts : basis.Counts a a' es rest (.completed a'.id processed)) :
    Course a (a'.endCompleted processed) basis es (a.messages es ++ [.completed a'.id processed]) :=
  Heard.ended ⟨h.id_eq, h.provider_eq, h.config_eq, h.listeners_eq⟩ rfl hreads hasked
    ⟨rfl, rfl, s, hsystem, hbuilt⟩ hcounts

theorem status_failed (hs : s.status = .building) (reason : String) :
    (s.finish (.failed reason)).status = .failed reason := by
  simp [finish, hs, Status.isFinished]

/-! ## Steps -/

/-- What a run does while it waits for a dependency. -/
theorem Heard.await (h : Heard a a₁ (a.messages [])) (hnone : a₁.system = none)
    (hrunning : a₁.outcome = .running) (hsource : a₁.source = a.source)
    {see : String → Option Analysis} {d : String} {pending : List String} {context : Context}
    (hstep : a₁.await see d pending context = some a') : ∃ ns, Course a a' .undecided [] ns := by
  have hasked : a₁.ReadUpTo a.source.reads := Or.inl hsource
  have hsystem : ∀ s, a₁.system = some s → s.status = .building := by simp [hnone]
  have hfailed : ∀ reason s, a₁.system = some s →
      (s.finish (.failed reason)).status = .failed reason := by simp [hnone]
  unfold Analysis.await at hstep
  split at hstep
  · obtain rfl := Option.some.inj hstep
    exact ⟨_, h.endCancelled rfl hasked hsystem _⟩
  · cases hsee : see d with
    | none => simp [hsee] at hstep
    | some other =>
      simp only [hsee] at hstep
      split at hstep
      · obtain rfl := Option.some.inj hstep
        exact ⟨_, ⟨h.id_eq, h.provider_eq, h.config_eq, h.listeners_eq⟩,
          .awaiting rfl hnone hrunning hsource⟩
      · obtain rfl := Option.some.inj hstep
        exact ⟨_, h.endFailed rfl hasked (hfailed _) _⟩
      · split at hstep
        · obtain rfl := Option.some.inj hstep
          exact ⟨_, h.endFailed rfl hasked (hfailed _) _⟩
        · cases hstep

/-- What a run does once it waits for nothing. -/
theorem Heard.opened (h : Heard a a₁ (a.messages [])) (hrunning : a₁.outcome = .running)
    (hsource : a₁.source = a.source) {k : Stock} (hprovider : a.provider = k.provider)
    (folder : Folder) (context : Context) :
    ∃ ns, Course a (a₁.opened folder context) (.of (a₁.loadHistory folder)) [] ns := by
  have hasked : a₁.ReadUpTo a.source.reads := Or.inl hsource
  unfold Analysis.opened
  cases hload : a₁.loadHistory folder with
  | some s =>
    have hloaded : Heard a { a₁ with system := some s } (a.messages []) :=
      ⟨h.id_eq, h.provider_eq, h.config_eq, h.listeners_eq⟩
    exact ⟨_, hloaded.endCompleted rfl hasked rfl (status_loadHistory hload)
      (Or.inl ⟨rfl, rfl, rfl, hsource⟩)⟩
  | none =>
    simp only
    cases hstart : a₁.provider.start context with
    | ok handle =>
      have hkeeps : ∀ e, (handle e).KeepsStatus := by
        rw [h.provider_eq, hprovider] at hstart
        exact k.keepsStatus hstart
      have hstage : Stage a { a₁ with
          system := some (.new a₁.id), phase := .building handle 0 none } .events []
          (a.messages []) := .building rfl hkeeps rfl rfl hrunning (by rw [← hsource]; rfl)
      exact ⟨_, ⟨h.id_eq, h.provider_eq, h.config_eq, h.listeners_eq⟩, hstage⟩
    | error f =>
      have hnew : Heard a { a₁ with system := some (.new a₁.id) } (a.messages []) :=
        ⟨h.id_eq, h.provider_eq, h.config_eq, h.listeners_eq⟩
      refine ⟨_, hnew.endFailed rfl hasked (fun s hs => ?_) _⟩
      obtain rfl := Option.some.inj hs
      rfl

/-- Handling an event tells of it if it is a milestone. -/
theorem Heard.reportProgress (h : Heard a a' (a.messages es)) (e : Event) :
    Heard a (a'.reportProgress (es.length + 1) e.timestamp) (a.messages (es ++ [e])) := by
  unfold Analysis.reportProgress messages interval
  rw [milestones_append, h.config_eq]
  split
  · have hheard := h.notify (.progress a'.id (es.length + 1) e.timestamp)
    rw [h.id_eq] at hheard ⊢
    exact hheard
  · rw [List.append_nil]
    exact h

/-- What a run does with an event: it goes on, or fails. -/
theorem Heard.handleEvent (h : Heard a a₁ (a.messages es)) {handle : Handler} {last : Option Time}
    {e : Event} (hkeeps : ∀ e, (handle e).KeepsStatus) (hsystem : a₁.system = some s)
    (hbuilding : s.status = .building) (hrunning : a₁.outcome = .running)
    (hreads : a.source.reads = es.map .event ++ .event e :: a₁.source.reads) :
    ∃ es' ns, Course a (a₁.handleEvent handle es.length last e s) .events es' ns := by
  -- an event that ends the run has been read, though it is not among those that are handled
  have hasked : a₁.ReadUpTo (.event e :: a₁.source.reads) := Or.inr rfl
  unfold Analysis.handleEvent
  split
  · refine ⟨es, _, h.endFailed hreads hasked (fun s' hs' => ?_) _⟩
    rw [hsystem] at hs'
    obtain rfl := Option.some.inj hs'
    exact status_failed hbuilding _
  · cases hrecord : record handle e s with
    | error f s' =>
      have hstatus := ((keepsStatus_record (hkeeps e)).of_error hrecord).trans hbuilding
      have hrefused : Heard a { a₁ with system := some s' } (a.messages es) :=
        ⟨h.id_eq, h.provider_eq, h.config_eq, h.listeners_eq⟩
      refine ⟨es, _, hrefused.endFailed hreads hasked (fun s'' hs => ?_) _⟩
      obtain rfl := Option.some.inj hs
      exact status_failed hstatus _
    | ok u s' =>
      have hstatus := ((keepsStatus_record (hkeeps e)).of_ok hrecord).trans hbuilding
      let a₂ : Analysis :=
        { a₁ with system := some s', phase := .building handle (es.length + 1) (some e.timestamp) }
      have hheard : Heard a a₂ (a.messages es) :=
        ⟨h.id_eq, h.provider_eq, h.config_eq, h.listeners_eq⟩
      have hlength : (es ++ [e]).length = es.length + 1 := by simp
      have hstage : Stage a a₂ .events (es ++ [e]) (a.messages (es ++ [e])) :=
        .building (by rw [hlength]) hkeeps rfl hstatus hrunning (by simpa using hreads)
      refine ⟨es ++ [e], _, hheard.reportProgress e, ?_⟩
      -- telling of the event leaves the rest of the analysis as it is
      simp only [Analysis.reportProgress]
      split
      · exact hstage.congr rfl rfl rfl rfl rfl
      · exact hstage

/-- The end of the events ends the run. -/
theorem Heard.concluded (h : Heard a a₁ (a.messages es)) (hbuilding : s.status = .building)
    {folder : Folder} (hreads : a.source.reads = es.map .event ++ rest)
    (hend : Source.next ⟨rest⟩ = (.nothing, a₁.source)) :
    ∃ ns, Course a (a₁.concluded es.length s folder).1 .events es ns := by
  have hasked : a₁.ReadUpTo rest := Or.inr (by rw [hend])
  unfold Analysis.concluded
  rcases status_closing a₁.config.flushAtEnd hbuilding with
    ⟨s', hclosing, hbuilt⟩ | ⟨f, s', hclosing, hfailed⟩
  · rw [hclosing]
    have hclosed : Heard a { a₁ with system := some s' } (a.messages es) :=
      ⟨h.id_eq, h.provider_eq, h.config_eq, h.listeners_eq⟩
    exact ⟨_, hclosed.endCompleted hreads hasked rfl hbuilt (Or.inr ⟨rfl, rfl, hend⟩)⟩
  · rw [hclosing]
    have hrefused : Heard a { a₁ with system := some s' } (a.messages es) :=
      ⟨h.id_eq, h.provider_eq, h.config_eq, h.listeners_eq⟩
    refine ⟨_, hrefused.endFailed hreads hasked (fun s hs => ?_) _⟩
    obtain rfl := Option.some.inj hs
    exact hfailed

/-- What a run does that has its provider started. -/
theorem Heard.build (h : Heard a a₁ (a.messages es)) {handle : Handler} {last : Option Time}
    (hkeeps : ∀ e, (handle e).KeepsStatus) (hsystem : a₁.system = some s)
    (hbuilding : s.status = .building) (hrunning : a₁.outcome = .running)
    (hreads : a.source.reads = es.map .event ++ a₁.source.reads) (folder : Folder) :
    ∃ es' ns, Course a (a₁.build handle es.length last folder).1 .events es' ns := by
  have hall : ∀ s', a₁.system = some s' → s'.status = .building := by
    intro s' hs'
    rw [hsystem] at hs'
    obtain rfl := Option.some.inj hs'
    exact hbuilding
  unfold Analysis.build
  split
  · exact ⟨es, _, h.endCancelled hreads (Or.inl rfl) hall _⟩
  · have hgetD : a₁.system.getD (.new a₁.id) = s := by rw [hsystem, Option.getD_some]
    have hsource : ∀ source, Heard a { a₁ with source } (a.messages es) := fun _ =>
      ⟨h.id_eq, h.provider_eq, h.config_eq, h.listeners_eq⟩
    cases hr : a₁.source.reads with
    | nil =>
      have hnext : a₁.source.next = (.nothing, a₁.source) := by simp [Source.next, hr]
      have hend : Source.next ⟨[]⟩ = (.nothing, a₁.source) := by rw [← hr, hnext]
      rw [hr] at hreads
      simp only [hnext, hgetD]
      exact ⟨es, (hsource _).concluded hbuilding hreads hend⟩
    | cons r rest =>
      have hnext : a₁.source.next = (r, ⟨rest⟩) := by simp [Source.next, hr]
      rw [hr] at hreads
      simp only [hnext, hgetD]
      cases r with
      | event e => exact (hsource ⟨rest⟩).handleEvent hkeeps hsystem hbuilding hrunning hreads
      | nothing => exact ⟨es, (hsource ⟨rest⟩).concluded hbuilding hreads rfl⟩
      | failure f =>
        exact ⟨es, _, (hsource ⟨rest⟩).endFailed hreads (Or.inr rfl)
          (fun s' hs' => status_failed (hall s' hs') _) _⟩

/-! ## Runs -/

/-- What decided stays decided. -/
theorem Decided.move (h : Decided ready a₁ basis) (hmove : a₁.Move a') :
    Decided ready a' basis := by
  intro hne
  obtain ⟨b, folder, ⟨context, hbefore, hphase, hafter⟩, hbasis⟩ := h hne
  exact ⟨b, folder, ⟨context, hbefore, hphase, hafter.tail hmove⟩, hbasis⟩

theorem decided_undecided : Decided ready a' .undecided := fun hne => absurd rfl hne

theorem Course.proceeds (h : Course a a₁ basis es ns) (hdecided : Decided ready a₁ basis)
    (hrun : Relation.ReflTransGen Move ready a₁) {k : Stock} (hprovider : a.provider = k.provider)
    (hproceeds : a₁.Proceeds a') :
    ∃ basis' es' ns', Course a a' basis' es' ns' ∧ Decided ready a' basis' := by
  have hheard := h.toHeard
  cases h.stage with
  | starting hphase hnone hrunning hsource =>
    cases hproceeds with
    | step hstep =>
      simp only [Analysis.step, hphase, Option.some.injEq, Prod.mk.injEq] at hstep
      obtain ⟨rfl, -⟩ := hstep
      have hwaits : Heard a { a₁ with phase := .awaiting a₁.dependencies {} } [] :=
        ⟨hheard.id_eq, hheard.provider_eq, hheard.config_eq, hheard.listeners_eq⟩
      have htold := hwaits.notify (.started a₁.id)
      have hmessages : [] ++ [.started a₁.id] = a.messages [] := by simp [messages, hheard.id_eq]
      rw [hmessages] at htold
      exact ⟨_, [], _, ⟨htold, .awaiting rfl hnone hrunning hsource⟩, decided_undecided⟩
    | expire hexpire => simp [Analysis.expire, hphase] at hexpire
  | @awaiting pending context hphase hnone hrunning hsource =>
    have hasked : a₁.ReadUpTo a.source.reads := Or.inl hsource
    cases pending with
    | nil =>
      cases hproceeds with
      | step hstep =>
        simp only [Analysis.step, hphase, Option.some.injEq, Prod.mk.injEq] at hstep
        obtain ⟨rfl, -⟩ := hstep
        obtain ⟨ns', hcourse⟩ := hheard.opened hrunning hsource hprovider _ context
        exact ⟨_, [], ns', hcourse, fun _ => ⟨a₁, _, ⟨context, hrun, hphase, .refl⟩, rfl⟩⟩
      | expire hexpire => simp [Analysis.expire, hphase] at hexpire
    | cons d pending =>
      cases hproceeds with
      | step hstep =>
        simp only [Analysis.step, hphase, Option.map_eq_some_iff, Prod.mk.injEq] at hstep
        obtain ⟨a₂, hawait, rfl, -⟩ := hstep
        obtain ⟨ns', hcourse⟩ := hheard.await hnone hrunning hsource hawait
        exact ⟨_, [], ns', hcourse, decided_undecided⟩
      | expire hexpire =>
        simp only [Analysis.expire, hphase, Option.some.injEq] at hexpire
        subst hexpire
        split
        · exact ⟨_, [], _, hheard.endCancelled rfl hasked (by simp [hnone]) _, decided_undecided⟩
        · exact ⟨_, [], _, hheard.endFailed rfl hasked (by simp [hnone]) _, decided_undecided⟩
  | building hphase hkeeps hsystem hbuilding hrunning hreads =>
    have hstays := hdecided.move (.proceed hproceeds)
    cases hproceeds with
    | step hstep =>
      simp only [Analysis.step, hphase, Option.some.injEq] at hstep
      obtain rfl := congrArg Prod.fst hstep
      obtain ⟨es', ns', hcourse⟩ := hheard.build hkeeps hsystem hbuilding hrunning hreads _
      exact ⟨_, es', ns', hcourse, hstays⟩
    | expire hexpire => simp [Analysis.expire, hphase] at hexpire
  | ended hphase hreads hasked hagrees hcounts =>
    cases hproceeds with
    | step hstep => simp [Analysis.step, hphase] at hstep
    | expire hexpire => simp [Analysis.expire, hphase] at hexpire

/-- A run keeps its course, whatever happens. -/
theorem Course.move (h : Course a a₁ basis es ns) (hdecided : Decided ready a₁ basis)
    (hrun : Relation.ReflTransGen Move ready a₁) {k : Stock} (hprovider : a.provider = k.provider)
    (hmove : a₁.Move a') :
    ∃ basis' es' ns', Course a a' basis' es' ns' ∧ Decided ready a' basis' := by
  have hstays := hdecided.move hmove
  cases hmove with
  | proceed hproceeds => exact h.proceeds hdecided hrun hprovider hproceeds
  | cancel =>
    exact ⟨basis, es, ns, ⟨⟨h.id_eq, h.provider_eq, h.config_eq, h.listeners_eq⟩,
      h.stage.congr rfl rfl rfl rfl rfl⟩, hstays⟩
  | dispose =>
    have hstatus : (a₁.system.map (·.dispose)).map (·.status) = a₁.system.map (·.status) := by
      rw [Option.map_map]
      congr 1
      funext s
      simp only [Function.comp_apply, dispose]
      split <;> rfl
    exact ⟨basis, es, ns,
      ⟨⟨h.id_eq, h.provider_eq, h.config_eq, h.listeners_eq⟩,
        h.stage.congr rfl rfl rfl rfl hstatus⟩, hstays⟩

theorem course_run (hready : a.scheduleAfter = .ok ready) (hsystem : a.system = none) {k : Stock}
    (hprovider : a.provider = k.provider) (hrun : Relation.ReflTransGen Move ready a') :
    ∃ basis es ns, Course a a' basis es ns ∧ Decided ready a' basis := by
  induction hrun with
  | refl =>
    unfold scheduleAfter at hready
    cases hphase : a.phase with
    | idle =>
      rw [hphase] at hready
      obtain rfl := Except.ok.inj hready
      refine ⟨.undecided, [], [], ⟨⟨rfl, rfl, rfl, ?_⟩, .starting rfl hsystem rfl rfl⟩,
        decided_undecided⟩
      simp [hearAll_nil]
    | _ => simp [hphase] at hready
  | tail hbefore hmove ih =>
    obtain ⟨basis, es, ns, h, hdecided⟩ := ih
    exact h.move hdecided hbefore hprovider hmove

/-! ## Runs end -/

/-- A run that has not ended can go on by itself. -/
theorem Course.exists_proceeds (h : Course a a₁ basis es ns) (hnot : a₁.phase ≠ .over) :
    ∃ a', a₁.Proceeds a' := by
  -- unless it waits, it takes a step even if there is no other analysis and no file
  have hgoes : (a₁.step (fun _ => none) {}).isSome → ∃ a', a₁.Proceeds a' := by
    intro hsome
    obtain ⟨⟨a', folder⟩, hstep⟩ := Option.isSome_iff_exists.1 hsome
    exact ⟨a', .step hstep⟩
  cases h.stage with
  | starting hphase hnone hrunning hsource => exact hgoes (by rw [Analysis.step, hphase]; rfl)
  | @awaiting pending context hphase hnone hrunning hsource =>
    cases pending with
    | nil => exact hgoes (by rw [Analysis.step, hphase]; rfl)
    | cons d pending => exact ⟨_, .expire (by rw [Analysis.expire, hphase])⟩
  | building hphase hkeeps hsystem hbuilding hrunning hreads =>
    exact hgoes (by rw [Analysis.step, hphase]; rfl)
  | ended hphase => exact absurd hphase hnot

/-- What a message of completion says, in terms of the step that opened the run. -/
def Counts (a ready a' : Analysis) (es : List Event) (rest : List Read) : Notification → Prop
  | .completed _ n => ∃ b folder, Opening ready b folder a' ∧
      ((b.loadHistory folder).isSome ∧ n = 0 ∧ es = [] ∧ a'.source = a.source ∨
        b.loadHistory folder = none ∧ n = es.length ∧ Source.next ⟨rest⟩ = (.nothing, a'.source))
  | _ => True

theorem Basis.Counts.decided (h : basis.Counts a a' es rest n) (hdecided : Decided ready a' basis) :
    a.Counts ready a' es rest n := by
  cases n with
  | completed id k =>
    rcases h with ⟨rfl, hcounts⟩ | ⟨rfl, hcounts⟩
    · obtain ⟨b, folder, hopening, hbasis⟩ := hdecided (by simp)
      refine ⟨b, folder, hopening, Or.inl ⟨?_, hcounts⟩⟩
      cases hload : b.loadHistory folder with
      | some s => rfl
      | none => simp [hload, Basis.of] at hbasis
    · obtain ⟨b, folder, hopening, hbasis⟩ := hdecided (by simp)
      refine ⟨b, folder, hopening, Or.inr ⟨?_, hcounts⟩⟩
      cases hload : b.loadHistory folder with
      | some s => simp [hload, Basis.of] at hbasis
      | none => rfl
  | _ => trivial

/-- **What the listeners of a run are told.** A run with a stock provider tells them of its start,
then of each interval of events without leaving one out, each time with the number and the time of
its last event. When it has ended, they have been told so once and last, and what they were told
agrees with the outcome and with the state system, if there is one. On completion the number is that
of the events that the source gave before it had nothing more to give, unless the run found a saved
history when it opened: then it is zero, and the source was never asked. Until the end the run is
under way and can go on by itself, which brings its end nearer. -/
theorem told_run {k : Stock} (hprovider : a.provider = k.provider) (hsystem : a.system = none)
    (hready : a.scheduleAfter = .ok ready) (hrun : Relation.ReflTransGen Move ready a') :
    ∃ es rest ns, a.source.reads = es.map .event ++ rest ∧ a'.ReadUpTo rest ∧ a'.id = a.id ∧
      a'.listeners = a.listeners.map (·.hearAll ns) ∧
      (milestones a.id a.interval es).length = es.length / a.interval ∧
      (a'.phase = .over → ∃ final, ns = .started a.id :: milestones a.id a.interval es ++ [final] ∧
        a'.Agrees final ∧
        a.Counts ready a' es rest final) ∧
      (a'.phase ≠ .over → a'.source = ⟨rest⟩ ∧ a'.outcome = .running ∧
        (ns = [] ∨ ns = .started a.id :: milestones a.id a.interval es) ∧
        (∃ b, a'.Proceeds b) ∧ ∀ b, a'.Proceeds b → b.stepsLeft < a'.stepsLeft) := by
  obtain ⟨basis, es, ns, h, hdecided⟩ := course_run hready hsystem hprovider hrun
  have hgoes : a'.phase ≠ .over → (∃ b, a'.Proceeds b) ∧ ∀ b, a'.Proceeds b →
      b.stepsLeft < a'.stepsLeft :=
    fun hnot => ⟨h.exists_proceeds hnot, fun b hb => hb.stepsLeft_lt⟩
  cases h.stage with
  | starting hphase hnone hrunning hsource =>
    exact ⟨[], a.source.reads, [], rfl, Or.inl hsource, h.id_eq, h.listeners_eq,
      length_milestones .., by simp [hphase],
      fun hnot => ⟨hsource, hrunning, Or.inl rfl, hgoes hnot⟩⟩
  | awaiting hphase hnone hrunning hsource =>
    exact ⟨[], a.source.reads, _, rfl, Or.inl hsource, h.id_eq, h.listeners_eq,
      length_milestones .., by simp [hphase],
      fun hnot => ⟨hsource, hrunning, Or.inr rfl, hgoes hnot⟩⟩
  | building hphase hkeeps hsystem hbuilding hrunning hreads =>
    exact ⟨es, a'.source.reads, _, hreads, Or.inl rfl, h.id_eq, h.listeners_eq,
      length_milestones .., by simp [hphase], fun hnot => ⟨rfl, hrunning, Or.inr rfl, hgoes hnot⟩⟩
  | ended hphase hreads hasked hagrees hcounts =>
    exact ⟨es, _, _, hreads, hasked, h.id_eq, h.listeners_eq, length_milestones ..,
      fun _ => ⟨_, rfl, hagrees, hcounts.decided hdecided⟩, fun hnot => absurd hphase hnot⟩

/-- An analysis of three events whose one listener hears of every second. -/
def watched : Analysis :=
  { id := "c", provider := Stock.counter.provider,
    source := .ofEvents [⟨1, "a", []⟩, ⟨3, "b", []⟩, ⟨4, "c", []⟩],
    config := { progressInterval := 2 }, listeners := [{}] }

theorem told_watched :
    ∃ ready a', watched.scheduleAfter = .ok ready ∧ Relation.ReflTransGen Move ready a' ∧
      a'.phase = .over ∧
      ∃ es, es.length = 3 ∧ [.started "c", .progress "c" 2 3, .completed "c" 3] =
        .started "c" :: milestones "c" watched.interval es ++ [.completed "c" es.length] ∧
      a'.Agrees (.completed "c" es.length) := by
  have hstep : ∀ {a b : Analysis}, a.step (fun _ => none) {} = some (b, {}) → Move a b := fun h =>
    .proceed (.step h)
  have hrun : ∃ a', Relation.ReflTransGen Move
        { watched with outcome := .running, phase := .starting } a' ∧
      a'.phase = .over ∧ a'.listeners.map (·.inbox) =
        [some [.started "c", .progress "c" 2 3, .completed "c" 3]] :=
    ⟨_, .tail (.tail (.tail (.tail (.tail (.tail .refl (hstep rfl)) (hstep rfl)) (hstep rfl))
      (hstep rfl)) (hstep rfl)) (hstep rfl), rfl, rfl⟩
  obtain ⟨a', hrun, hover, hinbox⟩ := hrun
  obtain ⟨es, rest, ns, -, -, -, hlisteners, -, hended, -⟩ :=
    told_run (a := watched) (k := .counter) rfl rfl rfl hrun
  obtain ⟨final, hns, hagrees, hcounts⟩ := hended hover
  have hheard : ns = [.started "c", .progress "c" 2 3, .completed "c" 3] := by
    rw [hlisteners] at hinbox
    simpa [watched, Listener.hearAll] using hinbox
  rw [hheard] at hns
  obtain rfl : final = .completed "c" 3 := by
    have hlast := congrArg List.getLast? hns
    rw [List.getLast?_concat] at hlast
    exact (Option.some.inj hlast).symm
  obtain ⟨b, folder, -, ⟨-, hzero, -⟩ | ⟨-, hthree, -⟩⟩ := hcounts
  · cases hzero
  · rw [hthree] at hns hagrees
    exact ⟨_, a', rfl, hrun, hover, es, hthree.symm, hthree ▸ hns, hagrees⟩

end

end Analysis

end StateHistory
