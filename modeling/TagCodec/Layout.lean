import TagCodec.Json.Printer
import TagCodec.Json.Record
import TagCodec.Tag

namespace TagCodec

namespace Tag

/-- A tag is written as its number. -/
def reader : Json.Reader Tag := fun bound cs => do
  let (x, rest) ← Json.Reader.int32 bound cs
  return (⟨x⟩, rest)

def ofText (text : String) : Except JsonError Tag := reader.run text

end Tag

structure Entry where
  tag : Tag
  name : String
deriving DecidableEq, Repr

/-- Which tag stands for what. Two registries of one layout speak the same wire format as far as
names can tell. -/
structure Layout where
  allowDefault : Bool
  /-- Codecs, by the class that they are made for. -/
  explicit : List Entry
  /-- Constants, by the class of the value. -/
  constants : List Entry
  /-- Names of classes that may get a codec when they need one. -/
  fallback : List Entry
deriving DecidableEq, Repr

namespace Entry

def toJson (e : Entry) : Json :=
  .object [("tag", .ofTag e.tag.toInt), ("name", .string e.name)]

/-- The fields met so far. -/
structure Slots where
  tag : Option Tag
  name : Option String

def fields : List (Json.Reader.Field Slots) :=
  [.slot "tag" Slots.tag (fun p t => { p with tag := some t }) Tag.reader,
    .slot "name" Slots.name (fun p s => { p with name := some s }) Json.Reader.string]

def Slots.complete : Slots → Except JsonError Entry
  | ⟨some tag, some name⟩ => .ok ⟨tag, name⟩
  | _ => .error .misshapen

def reader : Json.Reader Entry := .record fields ⟨none, none⟩ Slots.complete

end Entry

namespace Layout

def entries (l : Layout) : List Entry := l.explicit ++ l.constants ++ l.fallback

/-- The largest tag, if there is any. -/
def maxTag? (l : Layout) : Option Tag := (l.entries.map Entry.tag).foldl
  (fun best t => some (best.elim t fun s => s.max t)) none

def toJson (l : Layout) : Json :=
  .object [("allow_default_codec", .bool l.allowDefault),
    ("explicit", .array (l.explicit.map Entry.toJson)),
    ("constants", .array (l.constants.map Entry.toJson)),
    ("fallback", .array (l.fallback.map Entry.toJson))]

/-- The fields met so far. -/
structure Slots where
  allowDefault : Option Bool
  explicit : Option (List Entry)
  constants : Option (List Entry)
  fallback : Option (List Entry)

def readEntries : Json.Reader (List Entry) := .list Entry.reader

def fields : List (Json.Reader.Field Slots) :=
  [.slot "allow_default_codec" Slots.allowDefault
      (fun p b => { p with allowDefault := some b }) Json.Reader.bool,
    .slot "explicit" Slots.explicit (fun p es => { p with explicit := some es }) readEntries,
    .slot "constants" Slots.constants (fun p es => { p with constants := some es }) readEntries,
    .slot "fallback" Slots.fallback (fun p es => { p with fallback := some es }) readEntries]

/-- No field may be missing. -/
def Slots.complete : Slots → Except JsonError Layout
  | ⟨some allow, some explicit, some constants, some fallback⟩ =>
    .ok ⟨allow, explicit, constants, fallback⟩
  | _ => .error .misshapen

def reader : Json.Reader Layout := .record fields ⟨none, none, none, none⟩ Slots.complete

def ofText (text : String) : Except JsonError Layout := reader.run text

end Layout

end TagCodec
