import TagCodec.Catalog

namespace TagCodec

/-- The payload formats of the library and of its samples. A codec is an open interface, and the
formats that other programs implement it with are left out, but for the classes that they may lay
claim to, which `token` has. -/
inductive Format
  /-- The two coordinates. -/
  | point
  /-- The text. -/
  | label
  /-- The class name, then the fields as JSON. -/
  | shape
  /-- Both sides, each with its own tag. -/
  | pair
  /-- The number of the case. -/
  | ordinal (cls : Class) (e : Enumeration)
  /-- The fields as JSON. -/
  | fields (cls : Class) (t : RecordType)
  /-- The class name, then the id. Only the classes in `known` are read back. -/
  | token (cls : Class) (extra known : List Class)
deriving DecidableEq

/-- A codec is an instance of a format. Two instances of one format are two codecs. -/
structure Codec where
  id : Nat
  format : Format
deriving DecidableEq

namespace Format

/-- The class that the format is made for. -/
def primary : Format → Class
  | point => Catalog.point
  | label => Catalog.label
  | shape => Catalog.shape
  | pair => Catalog.pair
  | ordinal cls _ => cls
  | fields cls _ => cls
  | token cls _ _ => cls

/-- Further classes, which need not be related to the first. -/
def additional : Format → List Class
  | shape => [Catalog.triangle]
  | token _ extra _ => extra
  | _ => []

/-- The names of all classes that the format is responsible for. -/
def claims (f : Format) : List String := (f.primary :: f.additional).map Class.name

/-- Succeeds for the class that declares an enumeration. -/
def ordinalOf (cls : Class) : Except ConstructionError Format :=
  match cls.enumeration? with
  | some e => .ok (ordinal cls e)
  | none => .error (.notAnEnum cls.name)

/-- Succeeds for an ordinary class with known fields. -/
def fieldsOf (cls : Class) : Except ConstructionError Format :=
  match cls.record? with
  | some t => .ok (fields cls t)
  | none => .error (.noFields cls.name)

def debugText : Format → String
  | point => "PointCodec"
  | label => "LabelCodec"
  | shape => "ShapeCodec"
  | pair => "PairCodec"
  | ordinal cls e =>
    "EnumCodec \x7b class: " ++ cls.debugText ++ ", info: " ++ e.debugText ++ " \x7d"
  | fields cls _ => "DynamicCodec \x7b class: " ++ cls.debugText ++ ", structure: Structure \x7d"
  | token cls _ _ => "GenCodec(" ++ cls.name ++ ")"

end Format

end TagCodec
