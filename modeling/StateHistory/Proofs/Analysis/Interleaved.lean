import StateHistory.Proofs.Analysis.Advances
import StateHistory.Proofs.Analysis.Schedule

/-!
# Sessions whose analyses run side by side

The analyses of a session run at the same time. Whoever steps next, and whatever happens in between,
is one `Move`: an analysis is scheduled, steps, loses patience or is called off, its source or its
provider turns out to do something else, or data is given up. Scheduling all analyses and letting
them run is a sequence of moves (`moves_scheduleAll`, `moves_settle`).
-/

namespace StateHistory

/-- The context after the data of one state system was given up. -/
def Context.disposed (id : String) (c : Context) : Context :=
  ⟨c.systems.map fun p => if p.1 = id then (p.1, p.2.dispose) else p⟩

namespace Analysis

/-- The source or the provider of an analysis does something else than before, as one that has a
state of its own may. -/
inductive Varies (a : Analysis) : Analysis → Prop
  | source (source : Source) : Varies a { a with source }
  | start (start : Context → Except Failure Handler) : Varies a { a with
      provider := { a.provider with start } }
  | handler {handle : Handler} {processed : Nat} {last : Option Time}
    (phase : a.phase = .building handle processed last)
    (other : Handler) : Varies a { a with phase := .building other processed last }

/-- The analysis after the data of a state system was given up. Whoever has got it to look at shares
it. -/
def disposed (id : String) (a : Analysis) : Analysis :=
  { a with
    system := if a.id = id then a.system.map (·.dispose) else a.system
    phase := match a.phase with
      | .awaiting pending context => .awaiting pending (context.disposed id)
      | phase => phase }

end Analysis

namespace Session

open Analysis Relation

/-- What is seen of an analysis: how it stands, or that its state system is as after a step whose
outcome is not there yet. -/
inductive Shows (b : Analysis) : Analysis → Prop
  | asIs : Shows b b
  | between {see : String → Option Analysis} {folder folder' : Folder} {b' : Analysis}
    (h : b.step see folder = some (b', folder')) : Shows b { b with system := b'.system }

/-- All that is seen of other analyses is shown by them. -/
def Seen (s : Session) (see : String → Option Analysis) : Prop :=
  ∀ d c, see d = some c → ∃ b, s.find? d = some b ∧ Shows b c

/-- What can happen to one analysis of a session, with the files that are there afterwards. -/
inductive Turn (s : Session) (a : Analysis) : Analysis → Folder → Prop
  | schedule {a' : Analysis} (h : a.scheduleAfter = .ok a') : Turn s a a' s.folder
  | step {see : String → Option Analysis} {a' : Analysis} {folder : Folder} (hsee : s.Seen see)
    (h : a.step see s.folder = some (a', folder)) : Turn s a a' folder
  | expire {a' : Analysis} (h : a.expire = some a') : Turn s a a' s.folder
  | cancel : Turn s a a.cancel s.folder
  | vary {a' : Analysis} (h : a.Varies a') : Turn s a a' s.folder

/-- What happens next in a session, as one analysis or one outside it has it. -/
inductive Move (s : Session) : Session → Prop
  | turn {a a' : Analysis} {folder : Folder} (ha : a ∈ s.analyses) (h : s.Turn a a' folder) :
      Move s { s.put a' with folder }
  | dispose (id : String) : Move s { s with analyses := s.analyses.map (·.disposed id) }
  | files (folder : Folder) : Move s { s with folder }

section
variable {s s' : Session} {a a' b : Analysis} {folder : Folder} {id d : String}

/-! ## Analyses by their ids -/

/-- The analyses of a session have ids of their own. -/
def Distinct (s : Session) : Prop := (s.analyses.map (·.id)).Nodup

/-- What there is to place of a session. -/
def jobs (s : Session) : List Job := s.analyses.map fun a => ⟨a.id, a.dependencies⟩

theorem ids_jobs (s : Session) : s.jobs.map (·.id) = s.analyses.map (·.id) := List.map_map ..

theorem nodup_jobs (s : Session) (hids : s.Distinct) : (s.jobs.map (·.id)).Nodup :=
  s.ids_jobs ▸ hids

theorem mem_of_find? (h : s.find? d = some b) : b ∈ s.analyses ∧ b.id = d :=
  ⟨List.mem_of_find?_eq_some h, by simpa using List.find?_some h⟩

theorem find?_of_mem (hids : s.Distinct) (ha : a ∈ s.analyses) : s.find? a.id = some a := by
  obtain ⟨b, hb⟩ : ∃ b, s.find? a.id = some b :=
    Option.isSome_iff_exists.1 (List.find?_isSome.2 ⟨a, ha, beq_self_eq_true a.id⟩)
  obtain ⟨hmem, hid⟩ := mem_of_find? hb
  rw [hb, List.inj_on_of_nodup_map hids hmem ha hid]

theorem find?_map {f : Analysis → Analysis} (hf : ∀ b, (f b).id = b.id) (folder : Folder)
    (d : String) :
    find? ⟨s.analyses.map f, folder⟩ d = (s.find? d).map f := by
  simp only [find?, List.find?_map, Function.comp_def, hf]

theorem find?_put (ha : a ∈ s.analyses) (hid : a'.id = a.id) (folder : Folder) (d : String) :
    find? { s.put a' with folder } d = if d = a.id then some a' else s.find? d := by
  rw [put, find?_map (fun b => by split <;> simp_all)]
  split
  · rename_i hd
    obtain ⟨b, hb⟩ : ∃ b, s.find? d = some b :=
      Option.isSome_iff_exists.1 (List.find?_isSome.2 ⟨a, ha, beq_iff_eq.2 hd.symm⟩)
    have hb' := (mem_of_find? hb).2.trans (hd.trans hid.symm)
    rw [hb, Option.map_some, if_pos hb']
  · cases hb : s.find? d with
    | none => rfl
    | some b =>
      have hb' := (mem_of_find? hb).2
      simp_all

theorem mem_put (h : b ∈ (s.put a').analyses) : b = a' ∨ b ∈ s.analyses := by
  obtain ⟨c, hc, rfl⟩ := List.mem_map.1 h
  split
  · exact .inl rfl
  · exact .inr hc

theorem ids_put (s : Session) (a' : Analysis) :
    (s.put a').analyses.map (·.id) = s.analyses.map (·.id) := by
  rw [put, List.map_map]
  refine List.map_congr_left fun b _ => ?_
  simp only [Function.comp_apply]
  split <;> simp_all

/-! ## Moves -/

theorem seen_find? (s : Session) : s.Seen s.find? := fun _ c h => ⟨c, h, .asIs⟩

theorem Turn.alike (h : s.Turn a a' folder) : a.Alike a' := by
  cases h with
  | schedule h =>
    obtain ⟨-, rfl⟩ := scheduleAfter_ok_iff.1 h
    exact ⟨rfl, rfl⟩
  | step _ h => exact Proceeds.alike (.step h)
  | expire h => exact Proceeds.alike (.expire h)
  | cancel => exact ⟨rfl, rfl⟩
  | vary h => cases h <;> exact ⟨rfl, rfl⟩

theorem Move.ids (h : s.Move s') : s'.analyses.map (·.id) = s.analyses.map (·.id) := by
  cases h with
  | turn => exact ids_put ..
  | dispose id => simp [Function.comp_def, disposed]
  | files => rfl

/-- No analysis of this id is still to be scheduled. -/
def Scheduled (s : Session) (id : String) : Prop := ∀ a ∈ s.analyses, a.id = id → a.phase ≠ .idle

theorem Turn.ne_idle (h : s.Turn a a' folder) (ha : a.phase ≠ .idle) : a'.phase ≠ .idle := by
  cases h with
  | schedule h => exact absurd (scheduleAfter_ok_iff.1 h).1 ha
  | step _ h => exact (advances_step h).ne_idle
  | expire h => exact (advances_expire s.find? h).ne_idle
  | cancel => exact ha
  | vary h =>
    cases h with
    | source | start => exact ha
    | handler => exact nofun

/-- **What is scheduled stays scheduled.** -/
theorem Move.scheduled (h : s.Move s') (hs : s.Scheduled id) : s'.Scheduled id := by
  intro b hb hid
  cases h with
  | turn ha h =>
    rcases mem_put hb with rfl | hb
    · exact h.ne_idle (hs _ ha (h.alike.id_eq ▸ hid))
    · exact hs b hb hid
  | dispose i =>
    obtain ⟨c, hc, rfl⟩ := List.mem_map.1 hb
    have hphase := hs c hc hid
    simp only [disposed]
    split
    · exact nofun
    · exact hphase
  | files => exact hs b hb hid

theorem scheduled_of_moves (h : ReflTransGen Move s s') (hs : s.Scheduled id) :
    s'.Scheduled id := by
  induction h with
  | refl => exact hs
  | tail _ hmove ih => exact hmove.scheduled ih

theorem ids_of_moves (h : ReflTransGen Move s s') :
    s'.analyses.map (·.id) = s.analyses.map (·.id) := by
  induction h with
  | refl => rfl
  | tail _ hmove ih => exact hmove.ids.trans ih

theorem distinct_of_moves (h : ReflTransGen Move s s') (hids : s.Distinct) : s'.Distinct := by
  rw [Distinct, ids_of_moves h]
  exact hids

/-! ## Scheduling and settling -/

theorem moves_schedule (hids : s.Distinct) (h : schedule id s = .ok () s') :
    ReflTransGen Move s s' ∧ s'.Scheduled id := by
  unfold schedule at h
  cases hfind : s.find? id with
  | none =>
    simp only [hfind, EStateM.Result.ok.injEq, true_and] at h
    subst h
    refine ⟨.refl, fun a ha hid => ?_⟩
    rw [← hid, find?_of_mem hids ha] at hfind
    cases hfind
  | some a =>
    obtain ⟨ha, hid⟩ := mem_of_find? hfind
    cases hready : a.scheduleAfter with
    | error e => simp [hfind, hready] at h
    | ok a' =>
      simp only [hfind, hready, EStateM.Result.ok.injEq, true_and] at h
      subst h
      have hturn : s.Turn a a' s.folder := .schedule hready
      refine ⟨.single (.turn ha hturn), fun b hb hb' => ?_⟩
      have hb := find?_of_mem (by rw [Distinct, ids_put]; exact hids) hb
      rw [hb', find?_put ha hturn.alike.id_eq, if_pos hid.symm] at hb
      obtain rfl := Option.some.inj hb
      rw [(scheduleAfter_ok_iff.1 hready).2]
      exact nofun

theorem moves_forM_schedule {ids : List String} (hids : s.Distinct)
    (h : ids.forM schedule s = .ok () s') :
    ReflTransGen Move s s' ∧ ∀ id ∈ ids, s'.Scheduled id := by
  induction ids generalizing s with
  | nil =>
    obtain ⟨-, rfl⟩ := EStateM.Result.ok.inj h
    exact ⟨.refl, nofun⟩
  | cons id ids ih =>
    change EStateM.bind (schedule id) (fun _ => ids.forM schedule) s = .ok () s' at h
    unfold EStateM.bind at h
    split at h
    · rename_i u s₁ hhead
      obtain ⟨hmoves, hscheduled⟩ := moves_schedule hids hhead
      obtain ⟨hmoves', hscheduled'⟩ := ih (distinct_of_moves hmoves hids) h
      refine ⟨hmoves.trans hmoves', fun i hi => ?_⟩
      rcases List.mem_cons.1 hi with rfl | hi
      · exact scheduled_of_moves hmoves' hscheduled
      · exact hscheduled' i hi
    · cases h

/-- **Scheduling all analyses is a sequence of moves** that leaves none of them idle. -/
theorem moves_scheduleAll {ids : List String} (hids : s.Distinct) (h : s.scheduleAll = .ok ids s') :
    ReflTransGen Move s s' ∧ ∀ a ∈ s'.analyses, a.phase ≠ .idle := by
  unfold scheduleAll at h
  cases horder : s.order with
  | error e => simp [horder] at h
  | ok order =>
    simp only [horder, bind, EStateM.bind] at h
    split at h
    · rename_i u s₁ hrun
      obtain ⟨rfl, rfl⟩ := EStateM.Result.ok.inj h
      obtain ⟨hmoves, hscheduled⟩ := moves_forM_schedule hids hrun
      refine ⟨hmoves, fun a ha => hscheduled a.id ?_ a ha rfl⟩
      have hid : a.id ∈ s.analyses.map (·.id) := ids_of_moves hmoves ▸ List.mem_map_of_mem ha
      exact (s.ids_jobs ▸ (Schedule.perm_of_order (s.nodup_jobs hids) horder).1).mem_iff.2 hid
    · cases h

/-- **Letting a session settle is a sequence of moves.** -/
theorem moves_settle (s : Session) (held : Session → Analysis → Bool) :
    ReflTransGen Move s (s.settle held) := by
  unfold settle
  generalize s.analyses.foldr (fun a n => a.stepsLeft + n) 0 = fuel
  induction fuel generalizing s with
  | zero => exact .refl
  | succ fuel ih =>
    unfold settleLoop
    split
    · rename_i s₁ hstep
      refine .head ?_ (ih s₁)
      obtain ⟨a, ha, a', ⟨folder, hnext, rfl⟩ | ⟨hexpire, rfl⟩⟩ := settleStep_cases hstep
      · exact .turn ha (.step (seen_find? s) hnext)
      · exact .turn ha (.expire hexpire)
    · exact .refl

end

end Session

end StateHistory
