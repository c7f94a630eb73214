import StateHistory.Archive.Document
import StateHistory.Proofs.MessagePack.Codec

/-!
# Documents survive writing and reading

A document whose numbers fit the fields they are saved in, and whose strings and lists have lengths
that 32 bits can count, is read back as it was written: `reads_encode`. The proof follows the
records: a lemma for each, in which every member is read by the lemma of what it holds.
-/

namespace StateHistory

open MessagePack

/-! ## What can be saved -/

/-- The lengths of a value can be counted. -/
def Value.Fits : Value → Prop
  | .string s => FitsString s
  | .custom c => FitsString c.tag ∧ FitsLength c.payload.length
  | .null | .int _ | .long _ | .double _ => True

instance (v : Value) : Decidable v.Fits :=
  match v with
  | .string s => inferInstanceAs (Decidable (FitsString s))
  | .custom c => inferInstanceAs (Decidable (FitsString c.tag ∧ FitsLength c.payload.length))
  | .null | .int _ | .long _ | .double _ => isTrue trivial

/-- The quark has 32 bits and the bounds have 64. -/
structure Interval.Fits (iv : Interval) : Prop where
  quark_lt : iv.quark.index < 4294967296
  start_inRange : iv.start.InRange
  stop_inRange : iv.stop.InRange
  value_fits : iv.value.Fits

instance (iv : Interval) : Decidable iv.Fits :=
  decidable_of_iff (iv.quark.index < 4294967296 ∧ iv.start.InRange ∧ iv.stop.InRange ∧
    iv.value.Fits)
    ⟨fun ⟨hq, hs, ht, hv⟩ => ⟨hq, hs, ht, hv⟩, fun ⟨hq, hs, ht, hv⟩ => ⟨hq, hs, ht, hv⟩⟩

/-- The name can be counted and the parent has 32 bits. -/
structure Entry.Fits (e : Entry) : Prop where
  name_fits : FitsString e.name
  parent_lt : ∀ q, e.parent = some q → q.index < 4294967296

instance (e : Entry) : Decidable e.Fits :=
  decidable_of_iff (FitsString e.name ∧ ∀ q ∈ e.parent, q.index < 4294967296)
    ⟨fun ⟨hn, hp⟩ => ⟨hn, hp⟩, fun ⟨hn, hp⟩ => ⟨hn, hp⟩⟩

/-- The lists can be counted, what they hold can be saved, and the bounds have 64 bits. -/
structure Image.Fits (i : Image) : Prop where
  attributes_length : FitsLength i.attributes.length
  attributes_fit : ∀ e ∈ i.attributes, e.Fits
  intervals_length : FitsLength i.intervals.length
  intervals_fit : ∀ ivs ∈ i.intervals, FitsLength ivs.length ∧ ∀ iv ∈ ivs, iv.Fits
  start_inRange : ∀ t, i.start = some t → t.InRange
  stop_inRange : ∀ t, i.stop = some t → t.InRange

instance (i : Image) : Decidable i.Fits :=
  decidable_of_iff (FitsLength i.attributes.length ∧ (∀ e ∈ i.attributes, e.Fits) ∧
    FitsLength i.intervals.length ∧
      (∀ ivs ∈ i.intervals, FitsLength ivs.length ∧ ∀ iv ∈ ivs, iv.Fits) ∧
      (∀ t ∈ i.start, t.InRange) ∧
      ∀ t ∈ i.stop, t.InRange)
    ⟨fun ⟨hal, hav, hil, hiv, hs, ht⟩ => ⟨hal, hav, hil, hiv, hs, ht⟩,
      fun ⟨hal, hav, hil, hiv, hs, ht⟩ => ⟨hal, hav, hil, hiv, hs, ht⟩⟩

/-- The mark has four bytes and the name of the state system can be counted. -/
structure Header.Fits (h : Header) : Prop where
  magic_length : h.magic.length = 4
  ssid_fits : FitsString h.ssid

/-- A document that can be saved. -/
structure Document.Fits (d : Document) : Prop where
  header_fits : d.header.Fits
  store_fits : d.store.Fits

namespace Archive

/-! ## Scalars -/

theorem reads_byte (b : UInt8) : Reads (UInt8.ofNat <$> decodeNat 255) (encodeByte b) b := by
  have hlt : b.toNat < 256 := b.toNat_lt
  have := (reads_decodeNat 255 (n := b.toNat) (by omega) (by omega)).map UInt8.ofNat
  rwa [UInt8.ofNat_toNat] at this

theorem reads_version (v : UInt32) : Reads decodeVersion (encodeNat v.toNat) v := by
  have hlt : v.toNat < 4294967296 := v.toNat_lt
  have := (reads_decodeNat 4294967295 (n := v.toNat) (by omega) (by omega)).map UInt32.ofNat
  rwa [UInt32.ofNat_toNat] at this

theorem reads_timeOf {t : Time} (h : t.InRange) : Reads (timeOf (intHead t)) [] t := by
  unfold timeOf
  rw [intOf_intHead h.1 h.2]
  exact reads_pure t

theorem reads_timeHead {t : Time} (h : t.InRange) : Reads takeHead (encodeInt t) (intHead t) := by
  obtain ⟨hlo, hhi⟩ := h
  unfold Time.earliest at hlo
  unfold Time.latest at hhi
  exact reads_encodeInt hlo (by lia)

theorem reads_time {t : Time} (h : t.InRange) : Reads decodeTime (encodeInt t) t :=
  (reads_timeHead h).bind_nil (reads_timeOf h)

theorem reads_optionalTime {o : Option Time} (h : ∀ t, o = some t → t.InRange) :
    Reads (decodeOption timeOf) (encodeOption encodeInt o) o := by
  cases o with
  | none => exact reads_decodeOption_none timeOf
  | some t =>
    exact reads_decodeOption_some (reads_timeHead (h t rfl)) (intHead_ne_nil t)
      (reads_timeOf (h t rfl))

theorem reads_quarkOf {q : Quark} (h : q.index < 4294967296) :
    Reads (quarkOf (.nat q.index)) [] q := by
  have hint : intOf 0 4294967295 (.nat q.index) = pure (q.index : Int) := by
    simp only [intOf]
    rw [if_pos (by omega)]
  unfold quarkOf
  rw [hint]
  exact reads_pure q

theorem reads_quarkHead {q : Quark} (h : q.index < 4294967296) :
    Reads takeHead (encodeQuark q) (.nat q.index) := reads_encodeNat (by omega)

theorem reads_quark {q : Quark} (h : q.index < 4294967296) : Reads decodeQuark (encodeQuark q) q :=
  (reads_quarkHead h).bind_nil (reads_quarkOf h)

theorem reads_optionalQuark {o : Option Quark} (h : ∀ q, o = some q → q.index < 4294967296) :
    Reads (decodeOption quarkOf) (encodeOption encodeQuark o) o := by
  cases o with
  | none => exact reads_decodeOption_none quarkOf
  | some q =>
    exact reads_decodeOption_some (reads_quarkHead (h q rfl)) (by simp) (reads_quarkOf (h q rfl))

/-! ## Records -/

theorem reads_magic {bytes : List UInt8} (h : bytes.length = 4) :
    Reads decodeMagic (encodeArray encodeByte bytes) bytes := by
  have hhead := reads_encodeArrayHead (n := bytes.length) (by omega)
  have hbytes : Reads (times (UInt8.ofNat <$> decodeNat 255) bytes.length)
      (bytes.flatMap encodeByte) bytes :=
    reads_times fun b _ => reads_byte b
  rw [h] at hhead hbytes
  unfold encodeArray
  rw [h]
  exact hhead.bind hbytes

/-- A field that is read for the first time is kept. -/
theorem reads_field {α β : Type} {item : Decoder α} {bytes : List UInt8} {a : α}
    (h : Reads item bytes a) (keep : Option α → β) :
    Reads (do return keep (← once none item)) bytes (keep (some a)) :=
  (reads_once h).bind_nil (reads_pure _)

theorem reads_header {h : Header} (hf : h.Fits) : Reads decodeHeader (encodeHeader h) h := by
  have hfields : Reads (headerFields.decode (depthLimit - 2) {}) (encodeHeader h)
      ⟨some h.magic, some h.formatVersion, some h.providerVersion, some h.ssid⟩ := by
    refine Fields.reads_decode (show FitsLength 4 by decide) ?_
    refine Fields.reads_member 0 (by decide) rfl (by decide)
      (reads_field (reads_magic hf.magic_length) _) ?_
    refine Fields.reads_member 1 (by decide) rfl (by decide)
      (reads_field (reads_version h.formatVersion) _) ?_
    refine Fields.reads_member 2 (by decide) rfl (by decide)
      (reads_field (reads_version h.providerVersion) _) ?_
    refine Fields.reads_member 3 (by decide) rfl (by decide)
      (reads_field (reads_decodeString hf.ssid_fits) _) ?_
    exact Fields.reads_members_nil _
  exact hfields.bind_nil (reads_lift rfl)

theorem reads_entry {e : Entry} (hf : e.Fits) : Reads decodeEntry (encodeEntry e) e := by
  have hfields : Reads (entryFields.decode (depthLimit - 4) {}) (encodeEntry e)
      ⟨some e.name, some e.parent⟩ := by
    refine Fields.reads_decode (show FitsLength 2 by decide) ?_
    refine Fields.reads_member 0 (by decide) rfl (by decide)
      (reads_field (reads_decodeString hf.name_fits) _) ?_
    refine Fields.reads_member 1 (by decide) rfl (by decide)
      (reads_field (reads_optionalQuark hf.parent_lt) _) ?_
    exact Fields.reads_members_nil _
  exact hfields.bind_nil (reads_lift rfl)

theorem reads_custom {c : Custom} (htag : FitsString c.tag)
    (hpayload : FitsLength c.payload.length) :
    Reads decodeCustom
      (encodeMap [("tag", encodeString c.tag), ("payload", encodeArray encodeByte c.payload)])
        c := by
  have hbytes : Reads decodeBytes (encodeArray encodeByte c.payload) c.payload :=
    (reads_encodeArrayHead hpayload).bind (reads_times fun b _ => reads_byte b)
  have hfields : Reads (customFields.decode (depthLimit - 6) {})
      (encodeMap [("tag", encodeString c.tag), ("payload", encodeArray encodeByte c.payload)])
      ⟨some c.tag, some c.payload⟩ := by
    refine Fields.reads_decode (show FitsLength 2 by decide) ?_
    refine Fields.reads_member 0 (by decide) rfl (by decide)
      (reads_field (reads_decodeString htag) _) ?_
    refine Fields.reads_member 1 (by decide) rfl (by decide) (reads_field hbytes _) ?_
    exact Fields.reads_members_nil _
  exact hfields.bind_nil (reads_pure c)

/-! ## State values -/

/-- A value that is a map from the name of its kind to its content. -/
theorem reads_tagged {name : String} {content : List UInt8} {v : Value} (place : Nat)
    (hname : FitsString name) (hplace : placeOf valueKinds (utf8 name) = place)
    (h : Reads (decodeContent place) content v) :
    Reads decodeValue (encodeMap [(name, content)]) v := by
  have hp := reads_placeFrom valueKinds hname
  rw [hplace] at hp
  have hmember := hp.bind h
  refine (reads_encodeMapHead (show FitsLength 1 by decide)).bind ?_
  simpa only [bind_assoc, List.flatMap_cons, List.flatMap_nil, List.append_nil, ↓reduceIte]
    using hmember

theorem reads_value {v : Value} (hf : v.Fits) : Reads decodeValue (encodeValue v) v := by
  cases v with
  | null =>
    refine (reads_encodeStringHead (show FitsLength 4 by decide)).bind ?_
    exact ((reads_takeBytes (utf8 "Null")).map (placeOf valueKinds)).bind_nil (reads_pure _)
  | int v =>
    refine reads_tagged 1 (by decide) rfl ?_
    have hlo := v.le_toInt
    have hhi := v.toInt_lt
    have :=
      (reads_decodeInt (-2147483648) 2147483647 (n := v.toInt) hlo (by omega) (by omega)
      (by omega)).map
      fun n => Value.int (.ofInt n)
    rwa [Int32.ofInt_toInt] at this
  | long v =>
    refine reads_tagged 2 (by decide) rfl ?_
    have hrange : Time.InRange v.toInt := ⟨v.le_toInt, Int.le_of_lt_add_one v.toInt_lt⟩
    have := (reads_time hrange).map fun n => Value.long (.ofInt n)
    rwa [Int64.ofInt_toInt] at this
  | double bits => exact reads_tagged 3 (by decide) rfl ((reads_decodeDouble bits).map Value.double)
  | string s => exact reads_tagged 4 (by decide) rfl ((reads_decodeString hf).map Value.string)
  | custom c => exact reads_tagged 5 (by decide) rfl ((reads_custom hf.1 hf.2).map Value.custom)

/-! ## Images and documents -/

theorem reads_interval {iv : Interval} (hf : iv.Fits) :
    Reads decodeInterval (encodeInterval iv) iv := by
  have hfields : Reads (intervalFields.decode (depthLimit - 5) {}) (encodeInterval iv)
      ⟨some iv.quark, some iv.start, some iv.stop, some iv.value⟩ := by
    refine Fields.reads_decode (show FitsLength 4 by decide) ?_
    refine Fields.reads_member 0 (by decide) rfl (by decide)
      (reads_field (reads_quark hf.quark_lt) _) ?_
    refine Fields.reads_member 1 (by decide) rfl (by decide)
      (reads_field (reads_time hf.start_inRange) _) ?_
    refine Fields.reads_member 2 (by decide) rfl (by decide)
      (reads_field (reads_time hf.stop_inRange) _) ?_
    refine Fields.reads_member 3 (by decide) rfl (by decide)
      (reads_field (reads_value hf.value_fits) _) ?_
    exact Fields.reads_members_nil _
  exact hfields.bind_nil (reads_lift rfl)

theorem reads_image {i : Image} (hf : i.Fits) : Reads decodeImage (encodeImage i) i := by
  have hentries := reads_decodeArray hf.attributes_length fun e he =>
    reads_entry (hf.attributes_fit e he)
  have hintervals := reads_decodeArray hf.intervals_length fun ivs hivs =>
    reads_decodeArray (hf.intervals_fit ivs hivs).1 fun iv hiv =>
      reads_interval ((hf.intervals_fit ivs hivs).2 iv hiv)
  have hfields : Reads (imageFields.decode (depthLimit - 2) {}) (encodeImage i)
      ⟨some i.attributes, some i.intervals, some i.start, some i.stop⟩ := by
    refine Fields.reads_decode (show FitsLength 4 by decide) ?_
    refine Fields.reads_member 0 (by decide) rfl (by decide) (reads_field hentries _) ?_
    refine Fields.reads_member 1 (by decide) rfl (by decide) (reads_field hintervals _) ?_
    refine Fields.reads_member 2 (by decide) rfl (by decide)
      (reads_field (reads_optionalTime hf.start_inRange) _) ?_
    refine Fields.reads_member 3 (by decide) rfl (by decide)
      (reads_field (reads_optionalTime hf.stop_inRange) _) ?_
    exact Fields.reads_members_nil _
  exact hfields.bind_nil (reads_lift rfl)

/-- **A document is read back as it was written**, whatever bytes follow it. -/
theorem reads_encode {d : Document} (hf : d.Fits) : Reads decodeDocument (encode d) d := by
  have hfields : Reads (documentFields.decode (depthLimit - 1) {}) (encode d)
      ⟨some d.header, some d.store⟩ := by
    refine Fields.reads_decode (show FitsLength 2 by decide) ?_
    refine Fields.reads_member 0 (by decide) rfl (by decide)
      (reads_field (reads_header hf.header_fits) _) ?_
    refine Fields.reads_member 1 (by decide) rfl (by decide)
      (reads_field (reads_image hf.store_fits) _) ?_
    exact Fields.reads_members_nil _
  exact hfields.bind_nil (reads_pure d)

end Archive

end StateHistory
