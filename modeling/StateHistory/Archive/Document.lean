import StateHistory.MessagePack.Decode
import StateHistory.MessagePack.Encode
import StateHistory.Store.Image

/-!
# Saved histories as documents

The document that a finished state system is saved as: a header, which tells what wrote it, and the
image of the store. It is written in MessagePack with every record as a map of named fields.
-/

namespace StateHistory

/-- What wrote a document, and for which state system. -/
structure Header where
  magic : List UInt8
  formatVersion : UInt32
  providerVersion : UInt32
  ssid : String
deriving DecidableEq, Repr, Inhabited

/-- A saved history. -/
structure Document where
  header : Header
  store : Image
deriving DecidableEq, Repr, Inhabited

namespace Archive

open MessagePack

/-! ## Writing -/

def encodeByte (b : UInt8) : List UInt8 := encodeNat b.toNat

def encodeHeader (h : Header) : List UInt8 :=
  encodeMap [
    ("magic", encodeArray encodeByte h.magic),
    ("format_version", encodeNat h.formatVersion.toNat),
    ("provider_version", encodeNat h.providerVersion.toNat),
    ("ssid", encodeString h.ssid)]

def encodeQuark (q : Quark) : List UInt8 := encodeNat q.index

def encodeEntry (e : Entry) : List UInt8 :=
  encodeMap [("name", encodeString e.name), ("parent", encodeOption encodeQuark e.parent)]

/-- A value: null by its name, any other as a map from the name of its kind. -/
def encodeValue : Value → List UInt8
  | .null => encodeString "Null"
  | .int v => encodeMap [("Int", encodeInt v.toInt)]
  | .long v => encodeMap [("Long", encodeInt v.toInt)]
  | .double bits => encodeMap [("Double", encodeDouble bits)]
  | .string s => encodeMap [("String", encodeString s)]
  | .custom c =>
    encodeMap [("Custom",
      encodeMap [("tag", encodeString c.tag), ("payload", encodeArray encodeByte c.payload)])]

def encodeInterval (iv : Interval) : List UInt8 :=
  encodeMap [
    ("quark", encodeQuark iv.quark),
    ("start", encodeInt iv.start),
    ("end", encodeInt iv.stop),
    ("value", encodeValue iv.value)]

def encodeImage (i : Image) : List UInt8 :=
  encodeMap [
    ("attributes", encodeArray encodeEntry i.attributes),
    ("intervals", encodeArray (encodeArray encodeInterval) i.intervals),
    ("start", encodeOption encodeInt i.start),
    ("end", encodeOption encodeInt i.stop)]

/-- The bytes of a document. -/
def encode (d : Document) : List UInt8 :=
  encodeMap [("header", encodeHeader d.header), ("store", encodeImage d.store)]

/-! ## Reading -/

def timeOf (h : Head) : Decoder Time := intOf Time.earliest Time.latest h

def decodeTime : Decoder Time := do timeOf (← takeHead)

def quarkOf (h : Head) : Decoder Quark := (fun n => ⟨n.toNat⟩) <$> intOf 0 4294967295 h

def decodeQuark : Decoder Quark := do quarkOf (← takeHead)

def decodeVersion : Decoder UInt32 := UInt32.ofNat <$> decodeNat 4294967295

/-- Four bytes: an array of exactly four numbers, or the first four of some plain bytes. -/
def decodeMagic : Decoder (List UInt8) := do
  match ← takeHead with
  | .array 4 => times (UInt8.ofNat <$> decodeNat 255) 4
  | .bytes n => if 4 ≤ n then (·.take 4) <$> takeBytes n else failure
  | _ => failure

/-- The fields of a header that are read. -/
structure HeaderParts where
  magic : Option (List UInt8) := none
  formatVersion : Option UInt32 := none
  providerVersion : Option UInt32 := none
  ssid : Option String := none

def headerFields : Fields HeaderParts where
  names := ["magic", "format_version", "provider_version", "ssid"]
  read place p :=
    match place with
    | 0 => do return { p with magic := ← once p.magic decodeMagic }
    | 1 => do return { p with formatVersion := ← once p.formatVersion decodeVersion }
    | 2 => do return { p with providerVersion := ← once p.providerVersion decodeVersion }
    | _ => do return { p with ssid := ← once p.ssid decodeString }

def HeaderParts.toHeader (p : HeaderParts) : Option Header := do
  return ⟨← p.magic, ← p.formatVersion, ← p.providerVersion, ← p.ssid⟩

/-- How deep a document nests, the outermost container included, plus one. -/
def depthLimit : Nat := 1024

def decodeHeader : Decoder Header := do (← headerFields.decode (depthLimit - 2) {}).toHeader

/-- The fields of an entry that are read; a parent may be missing altogether. -/
structure EntryParts where
  name : Option String := none
  parent : Option (Option Quark) := none

def entryFields : Fields EntryParts where
  names := ["name", "parent"]
  read place p :=
    match place with
    | 0 => do return { p with name := ← once p.name decodeString }
    | _ => do return { p with parent := ← once p.parent (decodeOption quarkOf) }

def EntryParts.toEntry (p : EntryParts) : Option Entry := do
  return ⟨← p.name, p.parent.getD none⟩

def decodeEntry : Decoder Entry := do (← entryFields.decode (depthLimit - 4) {}).toEntry

/-- The fields of a custom value that are read. -/
structure CustomParts where
  tag : Option String := none
  payload : Option (List UInt8) := none

def customFields : Fields CustomParts where
  names := ["tag", "payload"]
  read place p :=
    match place with
    | 0 => do return { p with tag := ← once p.tag decodeString }
    | _ => do return { p with payload := ← once p.payload decodeBytes }

def decodeCustom : Decoder Custom := do
  let p ← customFields.decode (depthLimit - 6) {}
  return ⟨← p.tag, ← p.payload⟩

/-- The names of the kinds of values. -/
def valueKinds : List String := ["Null", "Int", "Long", "Double", "String", "Custom"]

/-- The content of a value of the kind at a place. -/
def decodeContent (place : Nat) : Decoder Value :=
  match place with
  | 0 => do
    match ← takeHead with
    | .nil => return .null
    | _ => failure
  | 1 => (fun n => .int (.ofInt n)) <$> decodeInt (-2147483648) 2147483647
  | 2 => (fun n => .long (.ofInt n)) <$> decodeInt Time.earliest Time.latest
  | 3 => .double <$> decodeDouble
  | 4 => .string <$> decodeString
  | 5 => .custom <$> decodeCustom
  | _ => failure

/-- A value: a map of one member from the name or place of its kind to its content, or for null the
name or place alone. -/
def decodeValue : Decoder Value := do
  match ← takeHead with
  | .map n =>
    if n = 1 then decodeContent (← placeFrom valueKinds (← takeHead)) else failure
  | head =>
    if (← placeFrom valueKinds head) = 0 then return .null else failure

/-- The fields of an interval that are read. -/
structure IntervalParts where
  quark : Option Quark := none
  start : Option Time := none
  stop : Option Time := none
  value : Option Value := none

def intervalFields : Fields IntervalParts where
  names := ["quark", "start", "end", "value"]
  read place p :=
    match place with
    | 0 => do return { p with quark := ← once p.quark decodeQuark }
    | 1 => do return { p with start := ← once p.start decodeTime }
    | 2 => do return { p with stop := ← once p.stop decodeTime }
    | _ => do return { p with value := ← once p.value decodeValue }

def IntervalParts.toInterval (p : IntervalParts) : Option Interval := do
  return ⟨← p.quark, ← p.start, ← p.stop, ← p.value⟩

def decodeInterval : Decoder Interval := do
  (← intervalFields.decode (depthLimit - 5) {}).toInterval

/-- The fields of an image that are read; the bounds may be missing altogether. -/
structure ImageParts where
  attributes : Option (List Entry) := none
  intervals : Option (List (List Interval)) := none
  start : Option (Option Time) := none
  stop : Option (Option Time) := none

def imageFields : Fields ImageParts where
  names := ["attributes", "intervals", "start", "end"]
  read place p :=
    match place with
    | 0 => do return { p with attributes := ← once p.attributes (decodeArray decodeEntry) }
    | 1 => do
      return { p with intervals := ← once p.intervals (decodeArray (decodeArray decodeInterval)) }
    | 2 => do return { p with start := ← once p.start (decodeOption timeOf) }
    | _ => do return { p with stop := ← once p.stop (decodeOption timeOf) }

def ImageParts.toImage (p : ImageParts) : Option Image := do
  return ⟨← p.attributes, ← p.intervals, p.start.getD none, p.stop.getD none⟩

def decodeImage : Decoder Image := do (← imageFields.decode (depthLimit - 2) {}).toImage

/-- The fields of a document that are read. -/
structure DocumentParts where
  header : Option Header := none
  store : Option Image := none

def documentFields : Fields DocumentParts where
  names := ["header", "store"]
  read place p :=
    match place with
    | 0 => do return { p with header := ← once p.header decodeHeader }
    | _ => do return { p with store := ← once p.store decodeImage }

def decodeDocument : Decoder Document := do
  let p ← documentFields.decode (depthLimit - 1) {}
  return ⟨← p.header, ← p.store⟩

/-- The document at the front of some bytes. -/
def decode (bytes : List UInt8) : Option Document := (decodeDocument bytes).map (·.1)

end Archive

end StateHistory
