import Mathlib.Data.String.Basic
import StateHistory.CommandLine.Report
import StateHistory.Proofs.Attribute.Below
import StateHistory.Proofs.StateSystem.Reached
import StateHistory.Proofs.Store.Growth
import StateHistory.Proofs.Store.RangeQuery

/-!
# Paths as they are written

A path is written with slashes between its names, and read by splitting at the slashes, where empty
parts are left out. So a path can be read back just when its names are `Plain`: none of them is
empty or has a slash in it (`splitPath_joinPath_iff`). In a tree whose siblings have different
names, the written path of an attribute then leads back to that attribute (`resolve_joinPath_iff`).
The reports of a state system show attributes by their written paths.
-/

namespace StateHistory.CommandLine

open Store (Sound Framed)
open StateHistory.Tree (joinPath)

/-- A name that is read as it is written. -/
def Plain (name : String) : Prop := name ≠ "" ∧ '/' ∉ name.toList

instance (name : String) : Decidable (Plain name) := inferInstanceAs (Decidable (_ ∧ _))

/-! ## Writing and reading -/

section
variable {name : String} {way way' : List String} {c : Char} {cs part : List Char}

/-- No part of a text that is split holds what it is split at. -/
theorem not_mem_of_mem_splitOn (h : part ∈ cs.splitOn c) : c ∉ part := by
  induction cs generalizing part with
  | nil =>
    rw [List.splitOn_nil, List.mem_singleton] at h
    simp [h]
  | cons d cs ih =>
    rw [List.splitOn_cons_eq_if_modifyHead] at h
    split at h
    · rcases List.mem_cons.1 h with rfl | h
      · simp
      · exact ih h
    · rename_i hne
      obtain ⟨first, rest, hparts⟩ := List.exists_cons_of_ne_nil (List.splitOn_ne_nil c cs)
      rw [hparts] at h ih
      rcases List.mem_cons.1 h with rfl | h
      · have hfirst := ih (List.mem_cons_self ..)
        have hne : d ≠ c := by simpa using hne
        simp [hne.symm, hfirst]
      · exact ih (List.mem_cons_of_mem _ h)

theorem splitPath_eq (path : String) :
    splitPath path = ((path.toList.splitOn '/').map String.ofList).filter (· ≠ "") := by
  rw [splitPath, String.splitToList_of_valid, List.splitOn_eq_splitOnP]

/-- Whatever is read has plain names. -/
theorem plain_of_mem_splitPath {path : String} (h : name ∈ splitPath path) : Plain name := by
  rw [splitPath_eq, List.mem_filter, List.mem_map] at h
  obtain ⟨⟨part, hpart, rfl⟩, hne⟩ := h
  refine ⟨by simpa using hne, ?_⟩
  rw [String.toList_ofList]
  exact not_mem_of_mem_splitOn hpart

theorem splitPath_joinPath (h : ∀ name ∈ way, Plain name) : splitPath (joinPath way) = way := by
  rw [splitPath_eq, joinPath, String.toList_intercalate]
  cases way with
  | nil => simp
  | cons name rest =>
    have hparts : ∀ part ∈ (name :: rest).map String.toList, '/' ∉ part := by
      intro part hpart
      obtain ⟨name', hname', rfl⟩ := List.mem_map.1 hpart
      exact (h name' hname').2
    have hslash : "/".toList = ['/'] := rfl
    have hback : (name :: rest).map (String.ofList ∘ String.toList) = name :: rest := by simp
    rw [hslash, List.splitOn_intercalate '/' hparts (by simp), List.map_map, hback,
      List.filter_eq_self]
    intro name' hname'
    simpa using (h name' hname').1

/-- **A path can be read back just when its names are plain.** -/
theorem splitPath_joinPath_iff : splitPath (joinPath way) = way ↔ ∀ name ∈ way, Plain name := by
  refine ⟨fun h name hname => ?_, splitPath_joinPath⟩
  rw [← h] at hname
  exact plain_of_mem_splitPath hname

/-- Different paths of plain names are written differently. -/
theorem eq_of_joinPath_eq (h : ∀ name ∈ way, Plain name) (h' : ∀ name ∈ way', Plain name)
    (heq : joinPath way = joinPath way') : way = way' := by
  rw [← splitPath_joinPath h, heq, splitPath_joinPath h']

end

/-! ## Finding what is written -/

/-- The path of an attribute as reports show it. -/
def pathOf (s : StateSystem) (q : Quark) : String := (s.store.tree.pathText q).toOption.getD ""

/-- An interval as reports show it. -/
def rowOf (s : StateSystem) (iv : Interval) : Row := ⟨pathOf s iv.quark, iv⟩

/-- A state system whose attributes can be named by their paths, with the intervals that its store
can have. -/
structure Shown (s : StateSystem) : Prop where
  live : s.disposed = false
  named : s.store.tree.Named
  lawful : s.store.Lawful

section
variable {s : StateSystem} {q q' : Quark} {way : List String} {path : String} {t start stop : Time}

theorem Shown.exists_way (h : Shown s) (hq : s.store.tree.contains q = true) :
    ∃ way, s.store.tree.path q = .ok way := by
  obtain ⟨way, hway⟩ := h.named.exists_way hq
  exact ⟨way, h.named.path_of_descend hway⟩

theorem pathText_eq (hway : s.store.tree.path q = .ok way) :
    s.store.tree.pathText q = .ok (joinPath way) := by
  rw [Tree.pathText, hway]
  rfl

theorem pathOf_eq (hway : s.store.tree.path q = .ok way) : pathOf s q = joinPath way := by
  rw [pathOf, pathText_eq hway]
  rfl

theorem Shown.ask_pathText (h : Shown s) (hq : s.store.tree.contains q = true) :
    ask s (·.tree.pathText q) = .ok (pathOf s q) := by
  obtain ⟨way, hway⟩ := h.exists_way hq
  rw [ask, StateSystem.query_of_live h.live, pathText_eq hway, pathOf_eq hway]

theorem Shown.resolve_eq_ok_iff (h : Shown s) :
    resolve s path = .ok q ↔ s.store.tree.descend .root (splitPath path) = some q := by
  have hlive : s.live = .ok s.store := by simp [StateSystem.live, h.live]
  unfold resolve StateSystem.locate
  rw [hlive, ← h.named.find?_root]
  simp only [bind, Except.bind]
  cases s.store.tree.find? .root (splitPath path) <;>
    simp [pure, Except.pure, throw, throwThe, MonadExceptOf.throw]

/-- **The written path of an attribute leads to it just when the names on the path are plain.** -/
theorem Shown.resolve_joinPath_iff (h : Shown s) (hway : s.store.tree.path q = .ok way) :
    resolve s (joinPath way) = .ok q ↔ ∀ name ∈ way, Plain name := by
  rw [h.named.path_eq_ok_iff] at hway
  rw [h.resolve_eq_ok_iff, ← splitPath_joinPath_iff]
  refine ⟨fun hread => h.named.descend_inj hread hway, fun hread => ?_⟩
  rw [hread, hway]

/-- Attributes with plain names on their paths are written differently. -/
theorem Shown.eq_of_pathOf_eq {way' : List String} (h : Shown s)
    (hway : s.store.tree.path q = .ok way) (hway' : s.store.tree.path q' = .ok way')
    (hplain : ∀ name ∈ way, Plain name) (hplain' : ∀ name ∈ way', Plain name)
    (heq : pathOf s q = pathOf s q') : q = q' := by
  rw [pathOf_eq hway, pathOf_eq hway'] at heq
  obtain rfl := eq_of_joinPath_eq hplain hplain' heq
  rw [h.named.path_eq_ok_iff] at hway hway'
  exact Option.some.inj (hway.symm.trans hway')

/-! ## Reports -/

/-- A list is gone through without failure. -/
theorem mapM_eq_map {α β ε : Type} {f : α → Except ε β} {g : α → β} {l : List α}
    (h : ∀ a ∈ l, f a = .ok (g a)) :
    l.mapM f = .ok (l.map g) := by
  induction l with
  | nil => rfl
  | cons a l ih =>
    rw [List.mapM_cons, h a (by simp), ih fun b hb => h b (by simp [hb])]
    rfl

theorem Shown.row_eq (h : Shown s) {iv : Interval} (hq : s.store.tree.contains iv.quark = true) :
    row s iv = .ok (rowOf s iv) := by
  rw [row, h.ask_pathText hq]
  rfl

/-- What is found is an attribute. -/
theorem Shown.contains_of_resolve (h : Shown s) (hq : resolve s path = .ok q) :
    s.store.tree.contains q = true :=
  h.named.contains_descend _ h.named.contains_root (h.resolve_eq_ok_iff.1 hq)

/-- What is answered at a time is about the attribute that was asked for. -/
theorem Shown.intervalAt_quark (h : Shown s) (hasked : s.store.checkAsked t = .ok ()) (q : Quark) :
    (s.store.intervalAt q t).quark = q := by
  cases hstart : s.store.start with
  | none =>
    rw [Store.checkAsked, hstart] at hasked
    cases hasked
  | some start =>
    obtain ⟨stop, hstop, -⟩ := h.lawful.toFramed.exists_stop hstart
    exact Store.Spanned.intervalAt_quark ⟨h.lawful.seamless, hstart, hstop⟩

theorem single_ok {store : Store} {iv : Interval} (h : Store.single t q store = .ok iv) :
    store.checkAsked t = .ok () ∧ iv = store.intervalAt q t := by
  unfold Store.single at h
  simp only [bind, Except.bind] at h
  cases hq : store.checkQuark q with
  | error e => rw [hq] at h; cases h
  | ok u =>
    cases ht : store.checkAsked t with
    | error e => rw [hq, ht] at h; cases h
    | ok u =>
      rw [hq, ht] at h
      exact ⟨rfl, (Except.ok.inj h).symm⟩

theorem full_ok {store : Store} {ivs : List Interval} (h : Store.full t store = .ok ivs) :
    store.checkAsked t = .ok () ∧ ivs = (List.range store.tree.size).map fun i =>
      store.intervalAt ⟨i⟩ t := by
  unfold Store.full at h
  simp only [bind, Except.bind] at h
  cases ht : store.checkAsked t with
  | error e => rw [ht] at h; cases h
  | ok u =>
    rw [ht] at h
    exact ⟨rfl, (Except.ok.inj h).symm⟩

/-- The report on one attribute names it by its path. -/
theorem Shown.report_single (h : Shown s) (hq : resolve s path = .ok q) (format : Format)
    (t : Time) :
    report s format (.single t path) = match s.query (Store.single t q) with
      | .ok iv => .ok (writtenRows format [⟨pathOf s q, iv⟩])
      | .error e => .error (.system e) := by
  simp only [report, ask, hq, bind, Except.bind]
  cases hiv : s.query (Store.single t q) with
  | error e => rfl
  | ok iv =>
    rw [StateSystem.query_of_live h.live] at hiv
    obtain ⟨hasked, rfl⟩ := single_ok hiv
    have hquark := h.intervalAt_quark hasked q
    have hin : s.store.tree.contains (s.store.intervalAt q t).quark = true := by
      rw [hquark]
      exact h.contains_of_resolve hq
    simp only [h.row_eq hin]
    rw [rowOf, hquark]
    rfl

theorem Shown.report_range (h : Shown s) (hq : resolve s path = .ok q) (format : Format)
    (start stop : Time) :
    report s format (.range path start stop) = match s.history q start stop with
      | .ok ivs => .ok (writtenRows format (ivs.map fun iv => ⟨pathOf s q, iv⟩))
      | .error e => .error (.system e) := by
  have hin := h.contains_of_resolve hq
  simp only [report, history, hq, bind, Except.bind]
  cases hivs : s.history q start stop with
  | error e => rfl
  | ok ivs =>
    have hquark : ∀ iv ∈ ivs, iv.quark = q := by
      have hrange :=
        Store.range_eq (h.lawful.seamless q).ordered
        (h.lawful.covered.contains_iff.1 hin) start stop
      rw [Store.history_eq (by simp [StateSystem.live, h.live]) hrange] at hivs
      split at hivs
      · cases hivs
      · obtain rfl := Except.ok.inj hivs
        intro iv hiv
        rcases Store.mem_recorded.1 (List.mem_of_mem_filter hiv) with hiv | ⟨o, -, rfl⟩
        · exact (h.lawful.seamless q).quark_eq iv hiv
        · rfl
    have hrows : ivs.mapM (row s) = .ok (ivs.map fun iv => ⟨pathOf s q, iv⟩) := by
      refine mapM_eq_map fun iv hiv => ?_
      rw [h.row_eq (by rw [hquark iv hiv]; exact hin), rowOf, hquark iv hiv]
    simp only [hrows]
    rfl

/-- The report on a time has a row for each attribute but the root, under its path. -/
theorem Shown.report_fullState (h : Shown s) {filter : Option String} {p : String → Bool}
    (hfilter : passes filter = .ok p) {ivs : List Interval}
    (hivs : s.query (Store.full t) = .ok ivs) (format : Format) :
    report s format (.fullState t filter) =
      .ok (writtenRows format (((ivs.filter (·.quark ≠ .root)).map (rowOf s)).filter fun r =>
        p r.path)) := by
  simp only [report, ask, hfilter, hivs, bind, Except.bind]
  rw [StateSystem.query_of_live h.live] at hivs
  obtain ⟨hasked, rfl⟩ := full_ok hivs
  rw [mapM_eq_map (g := rowOf s)]
  · rfl
  · intro iv hiv
    obtain ⟨i, hi, rfl⟩ := List.mem_map.1 (List.mem_of_mem_filter hiv)
    refine h.row_eq ?_
    rw [h.intervalAt_quark hasked]
    exact decide_eq_true (List.mem_range.1 hi)

/-- The attributes but for the root, as a walk finds them. -/
theorem Shown.exists_below (h : Shown s) : ∃ qs, s.store.tree.below .root true = .ok qs ∧ qs.Nodup ∧
    ∀ q, q ∈ qs ↔ s.store.tree.contains q = true ∧ q ≠ .root := by
  have hbelow := Tree.below_ok_iff.2 ⟨h.named.contains_root, rfl⟩
  obtain ⟨hroot, hnodup⟩ := List.nodup_cons.1 (Tree.nodup_below h.lawful.grown hbelow)
  refine ⟨_, hbelow, hnodup, fun q => ?_⟩
  have hmem := h.named.mem_below_iff (a := q) h.lawful.grown hbelow
  constructor
  · intro hq
    obtain ⟨way, hway⟩ := hmem.1 (List.mem_cons_of_mem _ hq)
    exact ⟨h.named.contains_descend _ h.named.contains_root hway, fun heq => hroot (heq ▸ hq)⟩
  · rintro ⟨hin, hne⟩
    exact (List.mem_cons.1 (hmem.2 (h.named.exists_way hin))).resolve_left hne

/-- The report on the tree shows the paths of its attributes. -/
theorem Shown.report_tree (h : Shown s) {filter : Option String} {p : String → Bool}
    (hfilter : passes filter = .ok p) {qs : List Quark}
    (hqs : s.store.tree.below .root true = .ok qs) (hin : ∀ q ∈ qs, s.store.tree.contains q = true)
    (format : Format) :
    report s format (.tree filter) = .ok (writtenPaths format ((qs.map (pathOf s)).filter p)) := by
  have hbelow : ask s (·.tree.below .root true) = .ok qs := by
    rw [ask, StateSystem.query_of_live h.live, hqs]
  simp only [report, hfilter, hbelow, bind, Except.bind]
  rw [mapM_eq_map fun q hq => h.ask_pathText (hin q hq)]
  rfl

end

end StateHistory.CommandLine
