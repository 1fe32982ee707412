import TagCodec.Bytes.Output
import TagCodec.Format.Payload
import TagCodec.Registry.Lookup

namespace TagCodec

structure Encoder where
  out : Output
  memo : Memo
deriving DecidableEq

abbrev Encode (α : Type) := EStateM CodingError Encoder α

namespace Encode

def emit (item : Item) : Encode Unit := modify fun s => { s with out := s.out.put item }

def lookup (l : Lookup α) : Encode α := fun s =>
  match l s.memo with
  | .ok a m => .ok a { s with memo := m }
  | .error e m => .error (.noCodec e) { s with memo := m }

end Encode

def Payload.write (p : Payload) : Encode Unit := do
  p.items.forM Encode.emit
  p.fault?.forM throw

/-- The payload of a pair, given how its sides are written. -/
def Format.writePair (f : Format) (sides : Encode Unit) : Encode Unit :=
  match f with
  | pair => sides
  | f => throw (f.mismatch Catalog.pair)

namespace Registry

/-- Writes the tag of a value, and gives the format of the payload if one has to follow. -/
def writeTag (r : Registry) (v : Value) : Encode (Option Format) :=
  match v.cls?, r.constantTag? v with
  | none, _ => do
    Encode.emit (.tag .null)
    return none
  | some _, some t => do
    Encode.emit (.tag t)
    return none
  | some c, none => do
    let b ← Encode.lookup (r.resolve c)
    Encode.emit (.tag b.tag)
    return some b.format

def write (r : Registry) : Value → Encode Unit
  | .null => do
    let _ ← r.writeTag .null
  | .leaf addr x => do
    let f? ← r.writeTag (.leaf addr x)
    f?.forM fun f => (f.payload x).write
  | .pair addr left right => do
    let f? ← r.writeTag (.pair addr left right)
    f?.forM fun f => f.writePair do
      r.write left
      r.write right

/-- Writes no tag, only the payload in the given format. Null has none. -/
def writePayload (r : Registry) (f : Format) : Value → Encode Unit
  | .null => return ()
  | .leaf _ x => (f.payload x).write
  | .pair _ left right => f.writePair do
    r.write left
    r.write right

/-- The bytes of one value. -/
def encode (r : Registry) (v : Value) : EStateM CodingError Memo (List UInt8) := fun m =>
  match r.write v ⟨.empty, m⟩ with
  | .ok _ s => .ok s.out.toList s.memo
  | .error e s => .error e s.memo

end Registry

end TagCodec
