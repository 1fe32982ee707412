import TagCodec.Bytes.Item

namespace TagCodec

/-- Why a field could not be read. -/
inductive FieldError
  | truncated (offset : Nat)
  | invalidVarint (offset : Nat)
  | invalidUtf8
deriving DecidableEq, Repr

def FieldError.message : FieldError → String
  | truncated offset => "input truncated at offset " ++ toString offset
  | invalidVarint offset => "malformed varint at offset " ++ toString offset
  | invalidUtf8 => "invalid utf-8 in string field"

/-- The bytes already passed are only counted. The length of the whole input is kept, so that no
read has to count what is left. -/
structure Cursor where
  pos : Nat
  rest : List UInt8
  size : Nat
  size_eq : size = pos + rest.length
deriving DecidableEq

/-- A read moves the cursor, also when it fails. -/
abbrev Read (α : Type) := EStateM FieldError Cursor α

namespace Cursor

def ofList (bs : List UInt8) : Cursor := ⟨0, bs, bs.length, (Nat.zero_add _).symm⟩

def isAtEnd (c : Cursor) : Bool := c.rest.isEmpty

def advance (c : Cursor) (n : Nat) (h : c.pos + n ≤ c.size) : Cursor where
  pos := c.pos + n
  rest := c.rest.drop n
  size := c.size
  size_eq := by
    have := c.size_eq
    rw [List.length_drop]
    omega

theorem pos_lt_size {c : Cursor} {b : UInt8} {rest : List UInt8} (h : c.rest = b :: rest) :
    c.pos < c.size := by
  have := c.size_eq
  rw [h, List.length_cons] at this
  omega

def byte : Read UInt8 := fun c =>
  match h : c.rest with
  | [] => .error (.truncated c.pos) c
  | b :: _ => .ok b (c.advance 1 (pos_lt_size h))

/-- A number of at most `more + 1` bytes. The last byte allowed has room for one bit only, so
nothing is lost beyond 64 bits when `more` is nine. -/
def varintWithin : (more : Nat) → Read Nat
  | 0 => do
    let b ← byte
    if b.toNat < 2 then return b.toNat
    throw (.invalidVarint (← get).pos)
  | more + 1 => do
    let b ← byte
    if b.toNat < 128 then return b.toNat
    let high ← varintWithin more
    return b.toNat % 128 + 128 * high

/-- Any spelling of up to ten bytes is accepted, longer than needed or not. -/
def varint : Read Nat := varintWithin 9

/-- A folded number above 32 bits is malformed where it begins. -/
def sint32 : Read Int32 := do
  let start := (← get).pos
  let n ← varint
  if n < 0x100000000 then return Int32.ofInt (Varint.unzigzag n)
  throw (.invalidVarint start)

def tag : Read Tag := do
  return ⟨← sint32⟩

/-- The next `n` bytes, or failure at the end of the input with the cursor unmoved. -/
def take (n : Nat) : Read (List UInt8) := fun c =>
  if h : c.pos + n ≤ c.size then .ok (c.rest.take n) (c.advance n h)
  else .error (.truncated c.size) c

def bytes : Read (List UInt8) := do
  take (← varint)

def text : Read String := do
  let bs ← bytes
  match String.fromUTF8? ⟨bs.toArray⟩ with
  | some s => return s
  | none => throw .invalidUtf8

def item : Item.Kind → Read Item
  | .varint => return .varint (UInt64.ofNat (← varint))
  | .sint32 => return .sint32 (← sint32)
  | .tag => return .tag (← tag)
  | .bytes => return .bytes (← bytes)
  | .text => return .text (← text)

end Cursor

end TagCodec
