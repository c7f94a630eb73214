import StateHistory.Archive.File
import StateHistory.Archive.Folder

/-!
# A file that replaces another

When nothing is in the way of a replacement, the path leads to the new bytes after it
(`Folder.read_replace`). A path is followed through directories only, so putting a file where no
directory stands leaves all other paths where they were.
-/

namespace StateHistory.Folder

/-- The same locations are directories. -/
def SameWays (f f' : Folder) : Prop :=
  ∀ l, f.node? l = some .directory ↔ f'.node? l = some .directory

/-- A file can be put at the path: it leads somewhere, and no directory stands there. -/
def Takes (f : Folder) (path : String) : Prop :=
  ∃ l, f.locate path = some l ∧ f.node? l ≠ some .directory

instance (f : Folder) (path : String) : Decidable (f.Takes path) :=
  decidable_of_iff (∃ l ∈ f.locate path, f.node? l ≠ some .directory) Iff.rfl

/-- Nothing is in the way of a replacement: once the directories on the way are made, which can be
done, a file can be put at the path, and the draft beside it. -/
structure Accepts (f : Folder) (draft path : String) : Prop where
  way : (f.makeParents path).1.isSome
  draft_free : (f.makeParents path).2.Takes draft
  path_free : (f.makeParents path).2.Takes path

instance (f : Folder) (draft path : String) : Decidable (f.Accepts draft path) :=
  decidable_of_iff ((f.makeParents path).1.isSome ∧ (f.makeParents path).2.Takes draft ∧
    (f.makeParents path).2.Takes path)
    ⟨fun ⟨hway, hdraft, hpath⟩ => ⟨hway, hdraft, hpath⟩,
      fun ⟨hway, hdraft, hpath⟩ => ⟨hway, hdraft, hpath⟩⟩

section
variable {f f' f'' : Folder} {l l' : Location} {n : Node} {draft path : String} {bytes : List UInt8}

/-! ## Nodes -/

theorem not_around (h : f.node? l ≠ some .directory) : l.isAround = false :=
  Bool.eq_false_iff.2 fun haround => h (by simp [node?, haround])

theorem node?_remove (hl : l.isAround = false) :
    (f.remove l).node? l' = if l' = l then none else f.node? l' := by
  have hfind : (f.nodes.filter (·.1 ≠ l)).find? (·.1 == l') =
      if l' = l then none else f.nodes.find? (·.1 == l') := by
    rw [List.find?_filter]
    split
    · subst l'
      rw [List.find?_eq_none]
      simp
    · rename_i hne
      congr 1
      funext p
      by_cases hp : p.1 = l'
      · simp [hp, hne]
      · simp [hp]
  unfold node? remove
  rw [hfind]
  by_cases heq : l' = l
  · simp [heq, hl]
  · simp [heq]

theorem node?_put (hl : l.isAround = false) :
    (f.put l n).node? l' = if l' = l then some n else f.node? l' := by
  have hrest : (f.remove l).node? l' = if l' = l then none else f.node? l' := node?_remove hl
  by_cases heq : l' = l
  · simp [node?, put, heq, hl]
  · rw [if_neg heq] at hrest ⊢
    rw [← hrest]
    simp [node?, put, Ne.symm heq]

/-! ## Ways -/

theorem isPath_eq (path : String) :
    isPath path = (path.utf8ByteSize ≤ pathLimit && !path.toList.any (· == '\x00')) := by
  unfold isPath
  rw [← String.contains_bool_eq]
  rfl

theorem SameWays.trans (h : f.SameWays f') (h' : f'.SameWays f'') : f.SameWays f'' :=
  fun l => (h l).trans (h' l)

theorem sameWays_put (hl : f.node? l ≠ some .directory) (bytes : List UInt8) :
    f.SameWays (f.put l (.file bytes)) := by
  intro l'
  rw [node?_put (not_around hl)]
  split
  · subst l'
    simp [hl]
  · exact Iff.rfl

theorem sameWays_remove (hl : f.node? l ≠ some .directory) : f.SameWays (f.remove l) := by
  intro l'
  rw [node?_remove (not_around hl)]
  split
  · subst l'
    simp [hl]
  · exact Iff.rfl

/-- A path is followed through directories only. -/
theorem SameWays.locate_eq (h : f.SameWays f') (path : String) :
    f'.locate path = f.locate path := by
  have hstep : f'.step = f.step := by
    funext l name
    simp only [step, ne_eq, h l]
  simp only [locate, hstep]

theorem SameWays.free (h : f.SameWays f') (hl : f.node? l ≠ some .directory) :
    f'.node? l ≠ some .directory :=
  fun hdirectory => hl ((h l).2 hdirectory)

theorem read_of_locate (hl : f.locate path = some l) (hfile : f.node? l = some (.file bytes)) :
    f.read path = some bytes := by
  simp [read, hl, hfile]

/-! ## Replacing -/

/-- **What was replaced has the new bytes**, if nothing was in the way. -/
theorem read_replace (h : f.Accepts draft path) (bytes : List UInt8) :
    (f.replace draft path bytes).read path = some bytes := by
  obtain ⟨way, hway⟩ := Option.isSome_iff_exists.1 h.way
  obtain ⟨old, hold, hold_free⟩ := h.draft_free
  obtain ⟨new, hnew, hnew_free⟩ := h.path_free
  generalize hmade : f.makeParents path = made at hway hold hold_free hnew hnew_free
  obtain ⟨_, f₁⟩ := made
  subst hway
  -- the draft is written, and then moved to the path
  let f₂ := f₁.put old (.file bytes)
  have hways₂ : f₁.SameWays f₂ := sameWays_put hold_free bytes
  have hcreate : f₁.create draft bytes = some f₂ := by simp [create, hold, hold_free, f₂]
  have hdraft : f₂.node? old = some (.file bytes) := by
    rw [node?_put (not_around hold_free), if_pos rfl]
  have hold₂ : f₂.locate draft = some old := (hways₂.locate_eq draft).trans hold
  have hnew₂ : f₂.locate path = some new := (hways₂.locate_eq path).trans hnew
  have hmove : f₂.move draft path = (f₂.remove old).put new (.file bytes) := by
    simp [move, read_of_locate hold₂ hdraft, hold₂, hnew₂, hways₂.free hnew_free]
  have hreplace : f.replace draft path bytes = (f₂.remove old).put new (.file bytes) := by
    simp [replace, hmade, hcreate, hmove]
  rw [hreplace]
  have hways₃ := hways₂.trans (sameWays_remove (hways₂.free hold_free))
  have hfree₃ := hways₃.free hnew_free
  have hnew₄ := ((hways₃.trans (sameWays_put hfree₃ bytes)).locate_eq path).trans hnew
  exact read_of_locate hnew₄ (by rw [node?_put (not_around hfree₃), if_pos rfl])

/-- A file can only be put at what can be a path. -/
theorem Takes.isPath (h : f.Takes path) : isPath path = true := by
  obtain ⟨l, hl, -⟩ := h
  unfold locate at hl
  split at hl
  · cases hl
  · rename_i hnot
    simp only [Bool.or_eq_true, Bool.not_eq_true', not_or, Bool.not_eq_false] at hnot
    exact hnot.2

end

end StateHistory.Folder
