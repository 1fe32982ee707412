import TagCodec.Json.Printer
import TagCodec.Json.Record

namespace TagCodec

/-- The part of a registry that a configuration file settles. Two sides that share the file, and
their codecs and constants, give out the same tags. -/
structure Config where
  /-- Whether values without a registered codec may get one when they need it. -/
  allowDefault : Bool
  /-- The names of the classes that may. -/
  fallbackClasses : List String
deriving DecidableEq, Repr

inductive ConfigError
  | unreadable (path reason : String)
  | invalid (reason : JsonError)
deriving DecidableEq, Repr

def ConfigError.message : ConfigError → String
  | unreadable path reason => "failed to read config " ++ path ++ ": " ++ reason
  | invalid reason => "invalid config: " ++ reason.message

namespace Config

def default : Config := ⟨true, []⟩

def toJson (c : Config) : Json :=
  .object [("allow_default_codec", .bool c.allowDefault),
    ("fallback_classes", .array (c.fallbackClasses.map .string))]

/-- The fields met so far. -/
structure Slots where
  allowDefault : Option Bool
  fallbackClasses : Option (List String)

/-- A field that is missing has its default. -/
def Slots.complete (p : Slots) : Config :=
  ⟨p.allowDefault.getD default.allowDefault, p.fallbackClasses.getD default.fallbackClasses⟩

def fields : List (Json.Reader.Field Slots) :=
  [.slot "allow_default_codec" Slots.allowDefault
      (fun p b => { p with allowDefault := some b }) Json.Reader.bool,
    .slot "fallback_classes" Slots.fallbackClasses
      (fun p names => { p with fallbackClasses := some names }) (.list Json.Reader.string)]

def reader : Json.Reader Config :=
  .record fields ⟨none, none⟩ fun p => .ok p.complete

def ofText (text : String) : Except ConfigError Config :=
  match reader.run text with
  | .ok c => .ok c
  | .error e => .error (.invalid e)

/-- Reads what the system gave for a path: the bytes of a file, or why there are none. -/
def ofFile (path : String) (content : Except String (List UInt8)) : Except ConfigError Config :=
  match content with
  | .error reason => .error (.unreadable path reason)
  | .ok bs =>
    match String.fromUTF8? ⟨bs.toArray⟩ with
    | some text => ofText text
    | none => .error (.unreadable path "stream did not contain valid UTF-8")

end Config

end TagCodec
