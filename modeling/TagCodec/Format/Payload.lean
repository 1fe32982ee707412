import TagCodec.CodingError
import TagCodec.Format.Basic
import TagCodec.Value.Record

namespace TagCodec

/-- A run of fields and, where an object does not fit the format, the fault that ends it. -/
structure Payload where
  items : List Item
  fault? : Option CodingError
deriving DecidableEq

namespace Payload

def complete (items : List Item) : Payload := ⟨items, none⟩

end Payload

namespace Format

/-- The name by which a format calls the values that it expects. -/
def expected : Format → String
  | fields _ t => t.name
  | f => f.primary.name

/-- An object of the class `found` does not fit. -/
def mismatch (f : Format) (found : Class) : CodingError := .typeMismatch f.expected found.name

/-- The fields of a record of type `t`. No other object has them. -/
def recordJson (t : RecordType) (x : Leaf) : Except CodingError Json :=
  match x with
  | .record r => if r.type = t then .ok r.toJson else .error (.typeMismatch t.name x.cls.name)
  | _ => .error (.typeMismatch t.name x.cls.name)

def recordPayload (t : RecordType) (x : Leaf) : Payload :=
  match recordJson t x with
  | .ok v => .complete [.bytes v.text.toUTF8.data.toList]
  | .error e => ⟨[], some e⟩

/-- A shape names its class before its fields are looked at. -/
def payload (f : Format) (x : Leaf) : Payload :=
  match f, x with
  | point, .point p => .complete [.sint32 p.x, .sint32 p.y]
  | label, .label s => .complete [.text s]
  | shape, x =>
    match x.cls.record? with
    | some t =>
      let fields := recordPayload t x
      ⟨.text x.cls.name :: fields.items, fields.fault?⟩
    | none => ⟨[], some (shape.mismatch x.cls)⟩
  | ordinal cls e, x =>
    match e.ordinal? x with
    | some n => .complete [.varint (UInt64.ofNat n)]
    | none => ⟨[], some ((ordinal cls e).mismatch x.cls)⟩
  | fields _ t, x => recordPayload t x
  | token _ _ _, .token c id => .complete [.text c.name, .sint32 id]
  | f, x => ⟨[], some (f.mismatch x.cls)⟩

end Format

end TagCodec
