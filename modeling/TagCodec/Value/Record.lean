import TagCodec.Json.Printer
import TagCodec.Json.Parser
import TagCodec.Value.Basic

namespace TagCodec

def Record.values : Record → List Binary64
  | circle radius => [radius]
  | square side => [side]
  | triangle base height => [base, height]

def Record.toJson (r : Record) : Json :=
  .object (r.type.fields.zip (r.values.map Json.ofBinary64))

namespace RecordType

/-- Fails unless there is one value for each field. -/
def ofValues? : RecordType → List Binary64 → Option Record
  | circle, [radius] => some (.circle radius)
  | square, [side] => some (.square side)
  | triangle, [base, height] => some (.triangle base height)
  | _, _ => none

def fieldValue? : Json → Option Binary64
  | .number n => some n.toBinary64
  | _ => none

def values? (t : RecordType) : Json → Option (List Binary64)
  | .object members => t.fields.mapM fun f => Json.member? members f >>= fieldValue?
  | .array items => items.mapM fieldValue?
  | _ => none

/-- Members beyond the fields are ignored. -/
def ofJson (t : RecordType) (v : Json) : Except JsonError Record :=
  match t.values? v >>= t.ofValues? with
  | some r => .ok r
  | none => .error .misshapen

end RecordType

end TagCodec
