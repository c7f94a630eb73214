import StateHistory.Archive.File
import StateHistory.Proofs.Archive.Document
import StateHistory.Proofs.StateSystem.Reached
import StateHistory.Proofs.Store.Attributes

/-!
# What is saved can be loaded

The bytes that a finished state system is saved as lead back to a finished state system with the
same name and the same image, for the provider version that it was saved for and for no other.
-/

namespace StateHistory

namespace StateSystem

/-- The store of a state system has one timeline for each attribute, and the links of its tree
agree. -/
theorem Reached.linked {s : StateSystem} (h : s.Reached) :
    s.store.tree.Linked ∧ s.store.Covered := by
  refine h.store (P := fun store => store.tree.Linked ∧ store.Covered) ⟨Tree.linked_empty,
    Store.covered_new⟩ Store.ofImage_ok ?_
  rintro c store ⟨hl, hc⟩
  have ht := Store.Call.trail hc c
  exact ⟨ht.linked hl, ht.covered hc⟩

end StateSystem

namespace Archive

section
variable {s : StateSystem} {d : Document} {v w : UInt32}

/-- The document of a finished state system. -/
def documentOf (v : UInt32) (s : StateSystem) : Document :=
  ⟨⟨magic, formatVersion, v, s.id⟩, s.store.image⟩

theorem save_eq (hb : s.isBuilt = true) (hd : s.disposed = false) (v : UInt32) :
    save v s = .ok (encode (documentOf v s)) := by
  simp [save, document, hb, StateSystem.image, StateSystem.live, hd, documentOf, bind, Except.bind,
    pure, Except.pure]

theorem fits_documentOf (hid : MessagePack.FitsString s.id) (hi : s.store.image.Fits) :
    (documentOf v s).Fits :=
  ⟨⟨rfl, hid⟩, hi⟩

theorem decode_encode (hf : d.Fits) (rest : List UInt8) : decode (encode d ++ rest) = some d := by
  unfold decode
  rw [reads_encode hf]
  rfl

theorem open_encode (hf : d.Fits) (path : String) : open? path (some (encode d)) = .ok d := by
  have h := decode_encode hf []
  rw [List.append_nil] at h
  simp only [open?, h]

/-- The version that a document was saved for leads to its state system, any other is refused. -/
theorem load_encode (hf : (documentOf v s).Fits) (path : String) (w : UInt32) :
    load path w (some (encode (documentOf v s))) =
      if v = w then StateSystem.ofImage s.id s.store.image
        else .error (versionMismatch "provider" w v) := by
  unfold load
  rw [open_encode hf]
  by_cases hvw : v = w
  · simp [documentOf, bind, Except.bind, hvw]
  · simp [documentOf, bind, Except.bind, hvw, throw, throwThe, MonadExceptOf.throw]

/-- **Documents survive writing and reading, and so do state systems.** A document is decoded from
its bytes whatever follows them. What a finished state system is saved as loads, for the version
that it was saved for, as a finished state system with the same name and the same image; for any
other version it is refused. -/
theorem load_save :
    (∀ d : Document, d.Fits → ∀ rest, decode (encode d ++ rest) = some d) ∧
    ∀ s : StateSystem, s.Reached → s.isBuilt = true → s.disposed = false →
    MessagePack.FitsString s.id →
      s.store.image.Fits → ∀ v, ∃ bytes, save v s = .ok bytes ∧ ∀ path w,
        (v = w → ∃ r, load path w (some bytes) = .ok r ∧ r.isBuilt = true ∧ r.id = s.id ∧
          r.image = s.image) ∧
        (v ≠ w → ∃ reason, load path w (some bytes) = .error (.persistence reason)) := by
  refine ⟨fun d => decode_encode, fun s hs hb hd hid hi v => ⟨_, save_eq hb hd v, fun path w => ?_⟩⟩
  rw [load_encode (fits_documentOf hid hi)]
  constructor
  · rintro rfl
    obtain ⟨hl, hc⟩ := hs.linked
    obtain ⟨store, hstore, himage⟩ := Store.ofImage_image hl hc
    refine ⟨⟨s.id, store, .built, store.stop, false, {}⟩, ?_, rfl, rfl, ?_⟩
    · rw [if_pos rfl, StateSystem.ofImage, hstore]
      rfl
    · simp [StateSystem.image, StateSystem.live, hd, himage, bind, Except.bind, pure, Except.pure]
  · exact fun hne => ⟨_, if_neg hne⟩

end

/-- Values of every kind, a state that is closed with its store, and an attribute without any. -/
def saved : StateSystem :=
  [.call (.step (.add .root ["a"])), .call (.step (.add .root ["b", "c"])),
    .call (.step (.write (-40) (.int (-7)) ⟨1⟩)), .call (.step (.write 300 (.string "x") ⟨1⟩)),
    .call (.step (.write 70000 (.custom ⟨"t", [1, 200]⟩) ⟨3⟩)),
    .call (.step (.write 70001 (.double 5) ⟨3⟩)),
    .close 5000000000].foldl StateSystem.Operation.after (.new "s")

theorem load_save_saved :
    decode (encode (documentOf 3 saved) ++ [1, 2]) = some (documentOf 3 saved) ∧
    ∃ bytes, save 3 saved = .ok bytes ∧
      (∃ r, load "s.ht" 3 (some bytes) = .ok r ∧ r.isBuilt = true ∧ r.id = "s" ∧
        r.image = saved.image) ∧
      ∃ reason, load "s.ht" 4 (some bytes) = .error (.persistence reason) := by
  have hreached : saved.Reached := StateSystem.Reached.operations (.new "s") _
  have hid : MessagePack.FitsString saved.id := by decide +kernel
  have hfits : saved.store.image.Fits := by decide +kernel
  obtain ⟨hdecode, hload⟩ := load_save
  obtain ⟨bytes, hsave, hbytes⟩ :=
    hload saved hreached (by decide +kernel) (by decide +kernel) hid hfits 3
  obtain ⟨r, hr, hbuilt, hname, himage⟩ := (hbytes "s.ht" 3).1 rfl
  refine ⟨hdecode _ (fits_documentOf hid hfits) _, bytes, hsave, ⟨r, hr, hbuilt, ?_, himage⟩, ?_⟩
  · rw [hname]
    decide +kernel
  · exact (hbytes "s.ht" 4).2 (by decide)

end Archive

end StateHistory
