import TagCodec.Format.Basic
import TagCodec.Json.Parser
import TagCodec.Registry.Lookup
import TagCodec.Value.Record

namespace TagCodec

structure Decoder where
  input : Cursor
  /-- How many payloads are being read at the moment, one inside the other. -/
  depth : Nat
  /-- No object has this address or a higher one yet. -/
  fresh : Nat
  memo : Memo
deriving DecidableEq

abbrev Decode (α : Type) := EStateM CodingError Decoder α

/-- The number of payloads that may be open at once, so that no input can exhaust the stack. -/
def nestingLimit : Nat := 128

namespace Decode

def field (read : Read α) : Decode α := fun s =>
  match read s.input with
  | .ok a c => .ok a { s with input := c }
  | .error e c => .error (.field e) { s with input := c }

def lookup (l : Lookup α) : Decode α := fun s =>
  match l s.memo with
  | .ok a m => .ok a { s with memo := m }
  | .error e m => .error (.noCodec e) { s with memo := m }

def ofJson : Except JsonError α → Decode α
  | .ok a => return a
  | .error e => throw (.json e)

def allocate : Decode Nat := modifyGet fun s => (s.fresh, { s with fresh := s.fresh + 1 })

def object (x : Leaf) : Decode Value := do
  return .leaf (← allocate) x

/-- The depth is put back also after a failure. -/
def deeper (body : Decode α) : Decode α := fun s =>
  match body { s with depth := s.depth + 1 } with
  | .ok a t => .ok a { t with depth := t.depth - 1 }
  | .error e t => .error e { t with depth := t.depth - 1 }

def record (t : RecordType) : Decode Value := do
  let bs ← field Cursor.bytes
  let v ← ofJson (Json.parseBytes bs)
  object (.record (← ofJson (t.ofJson v)))

end Decode

/-- The shapes that can be read back. -/
def Catalog.shapes : ClassPath := .ofList [circle, square, triangle]

/-- Reads a payload, given how the sides of a pair are read. Of several classes with one name
a token gets the last. -/
def Format.read (f : Format) (side : Decode Value) : Decode Value :=
  match f with
  | point => do
    let x ← Decode.field Cursor.sint32
    let y ← Decode.field Cursor.sint32
    Decode.object (.point ⟨x, y⟩)
  | label => do
    Decode.object (.label (← Decode.field Cursor.text))
  | shape => do
    let name ← Decode.field Cursor.text
    match Catalog.shapes.get? name >>= Class.record? with
    | some t => Decode.record t
    | none => throw (.typeMismatch Catalog.shape.name name)
  | pair => do
    let left ← side
    let right ← side
    return .pair (← Decode.allocate) left right
  | ordinal cls e => do
    let n ← Decode.field Cursor.varint
    match e.ofOrdinal? n with
    | some x => Decode.object x
    | none => throw (.unknownOrdinal cls.name n)
  | fields _ t => Decode.record t
  | token cls _ known => do
    let name ← Decode.field Cursor.text
    match known.reverse.find? fun c => c.name == name with
    | some c => do
      let id ← Decode.field Cursor.sint32
      Decode.object (.token c id)
    | none => throw (.typeMismatch cls.name name)

/-- What a tag announces. -/
inductive Announced
  | value (v : Value)
  | payload (f : Format)

namespace Registry

def readTag (r : Registry) : Decode Announced := do
  let t ← Decode.field Cursor.tag
  if t.isNull then return .value .null
  if t.isBackReference then throw (.backReference t)
  match r.constantAt? t with
  | some v => return .value v
  | none => do
    let b ← Decode.lookup (r.resolveTag t)
    return .payload b.format

/-- Reads a value when there is room for this many more payloads. -/
def readWithin (r : Registry) : (room : Nat) → Decode Value
  | 0 => do
    match ← r.readTag with
    | .value v => return v
    | .payload _ => throw (.tooDeep nestingLimit)
  | room + 1 => do
    match ← r.readTag with
    | .value v => return v
    | .payload f => Decode.deeper (f.read (r.readWithin room))

def read (r : Registry) : Decode Value := do
  r.readWithin (nestingLimit - (← get).depth)

/-- Reads no tag, only a payload in the given format. -/
def readPayload (r : Registry) (f : Format) : Decode Value := f.read r.read

/-- The value that the bytes begin with. Objects get the address `fresh` and those after it. -/
def decode (r : Registry) (bs : List UInt8) (fresh : Nat) :
    EStateM CodingError Memo Value := fun m =>
  match r.read ⟨.ofList bs, 0, fresh, m⟩ with
  | .ok v s => .ok v s.memo
  | .error e s => .error e s.memo

end Registry

end TagCodec
