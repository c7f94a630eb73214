import StateHistory.Archive.Folder
import StateHistory.Proofs.Archive.SaveLoad
import StateHistory.Proofs.Store.Dated
import StateHistory.Proofs.Store.Growth
import StateHistory.Proofs.Store.Restored

/-!
# A closed state system comes back from its file

A state system that was recorded at times of 64 bits and then closed has nothing in it that the
format could not hold, but for lists and strings too long to be counted (`Store.Lawful.fits_image`).
What it is saved as loads as the very same system, only without the changes that it had deferred
(`Archive.load_saved`).
-/

namespace StateHistory

/-- The lists and strings have lengths that the format can count. -/
structure Image.Countable (i : Image) : Prop where
  attributes_length : MessagePack.FitsLength i.attributes.length
  names_fit : ∀ e ∈ i.attributes, MessagePack.FitsString e.name
  intervals_fit : ∀ ivs ∈ i.intervals, MessagePack.FitsLength ivs.length ∧ ∀ iv ∈ ivs, iv.value.Fits

instance (i : Image) : Decidable i.Countable :=
  decidable_of_iff (MessagePack.FitsLength i.attributes.length ∧
    (∀ e ∈ i.attributes, MessagePack.FitsString e.name) ∧
      ∀ ivs ∈ i.intervals, MessagePack.FitsLength ivs.length ∧ ∀ iv ∈ ivs, iv.value.Fits)
    ⟨fun ⟨hal, hn, hi⟩ => ⟨hal, hn, hi⟩, fun ⟨hal, hn, hi⟩ => ⟨hal, hn, hi⟩⟩

/-- An entry has an attribute of the tree for its parent. -/
theorem Tree.Linked.contains_of_mem_entries {t : Tree} (h : t.Linked) {e : Entry}
    (he : e ∈ t.entries) {p : Quark} (hp : e.parent = some p) : t.contains p = true := by
  obtain ⟨i, hi⟩ := List.getElem?_of_mem he
  rw [Tree.getElem?_entries] at hi
  obtain ⟨n, hn, rfl⟩ := Option.map_eq_some_iff.1 hi
  exact h.contains_parent hn hp

namespace Store

variable {s : Store}

/-- An image has the intervals of each timeline. -/
theorem mem_intervals_image {ivs : List Interval} :
    ivs ∈ s.image.intervals ↔ ∃ q : Quark,
      q.index < s.timelines.size ∧ ivs = (s.timelineOf q).closed.toList := by
  simp only [image, List.mem_map, Array.mem_toList_iff]
  constructor
  · rintro ⟨l, hl, rfl⟩
    obtain ⟨i, hi, rfl⟩ := Array.mem_iff_getElem.1 hl
    exact ⟨⟨i⟩, hi, by rw [timelineOf_eq hi]⟩
  · rintro ⟨q, hq, rfl⟩
    exact ⟨s.timelines[q.index], Array.getElem_mem hq, by rw [timelineOf_eq hq]⟩

/-- What was recorded at times of 64 bits can be saved if it can be counted. -/
theorem Lawful.fits_image (h : s.Lawful) (hr : s.Ranged) (hc : s.image.Countable) :
    s.image.Fits := by
  have hsize : s.tree.size < 4294967296 := by
    have hlength := hc.attributes_length
    rwa [show s.image.attributes = s.tree.entries from rfl, Tree.length_entries] at hlength
  refine ⟨hc.attributes_length, fun e he => ⟨hc.names_fit e he, fun p hp => ?_⟩, ?_,
    fun ivs hivs => ?_, hr.start_inRange, hr.stop_inRange⟩
  · have hcontains := h.grown.toLinked.contains_of_mem_entries he hp
    exact Nat.lt_trans (of_decide_eq_true hcontains) hsize
  · have hcovered : s.timelines.size = s.tree.size := h.covered
    have hlength : s.image.intervals.length = s.tree.size := by simpa [image] using hcovered
    rw [hlength]
    exact hsize
  · obtain ⟨hlength, hvalues⟩ := hc.intervals_fit ivs hivs
    obtain ⟨q, hq, rfl⟩ := mem_intervals_image.1 hivs
    refine ⟨hlength, fun iv hiv => ?_⟩
    have hmem : iv ∈ (s.timelineOf q).closed := Array.mem_toList_iff.1 hiv
    obtain ⟨hstart, hstop⟩ := (hr.timelines q).closed_inRange iv hmem
    refine ⟨?_, hstart, hstop, hvalues iv hiv⟩
    rw [(h.seamless q).quark_eq iv hmem]
    exact Nat.lt_trans (lt_of_lt_of_eq hq h.covered) hsize

/-- A time of 64 bits to close at, just after the last recorded one. -/
theorem Ranged.closingTime (h : s.Ranged) : Time.InRange (s.stop.elim 0 Time.after) := by
  cases hs : s.stop with
  | none => exact ⟨by decide, by decide⟩
  | some stop => exact Time.inRange_after (h.stop_inRange stop hs)

end Store

namespace Archive

open StateSystem

theorem utf8ByteSize_le_joinPaths (dir path : String) :
    path.utf8ByteSize ≤ (joinPaths dir path).utf8ByteSize := by
  unfold joinPaths
  split
  · exact Nat.le_refl _
  · split <;> simp only [String.utf8ByteSize_append] <;> omega

/-- What names a file has a length that can be counted. -/
theorem fitsString_of_isPath {dir id : String} (h : Folder.isPath (pathOf dir id) = true) :
    MessagePack.FitsString id := by
  have hlimit : (pathOf dir id).utf8ByteSize ≤ 4095 := by
    rw [Folder.isPath, Bool.and_eq_true, decide_eq_true_eq] at h
    exact h.1
  have hjoin : (id ++ ".ht").utf8ByteSize ≤ (pathOf dir id).utf8ByteSize :=
    utf8ByteSize_le_joinPaths dir _
  have hlength : (MessagePack.utf8 id).length = id.utf8ByteSize := rfl
  rw [String.utf8ByteSize_append] at hjoin
  unfold MessagePack.FitsString MessagePack.FitsLength
  omega

/-- **A closed state system comes back from its file**, without the changes that it had deferred. -/
theorem load_saved {s : StateSystem} (hlawful : s.store.Lawful) (hranged : s.store.Ranged)
    (hclosed : s.store.closed = true) (hsettled : ∀ q, (s.store.timelineOf q).ongoing = none)
    (hstatus : s.status = .built) (hlive : s.disposed = false)
    (hpublished : s.published = s.store.stop) (hid : MessagePack.FitsString s.id)
    (hcount : s.store.image.Countable) (version : UInt32) :
    ∃ bytes, save version s = .ok bytes ∧ ∀ path, load path version (some bytes) = .ok { s with
      deferred := {} } := by
  have hbuilt : s.isBuilt = true := by rw [isBuilt, hstatus]; rfl
  refine ⟨_, save_eq hbuilt hlive version, fun path => ?_⟩
  have hstore : Store.ofImage s.store.image = .ok s.store :=
    Store.ofImage_of_settled hlawful.grown hlawful.covered hclosed hsettled
  rw [load_encode (fits_documentOf hid (hlawful.fits_image hranged hcount)), if_pos rfl,
    StateSystem.ofImage, hstore]
  obtain ⟨id, store, status, published, disposed, deferred⟩ := s
  obtain rfl : status = .built := hstatus
  obtain rfl : disposed = false := hlive
  obtain rfl : published = store.stop := hpublished
  rfl

end Archive

end StateHistory
