import TagCodec.Binary64.Basic
import TagCodec.Catalog

namespace TagCodec

structure Point where
  x : Int32
  y : Int32
deriving DecidableEq, Repr

/-- A record of numbers. -/
inductive Record
  | circle (radius : Binary64)
  | square (side : Binary64)
  | triangle (base height : Binary64)
deriving DecidableEq, Repr

def Record.type : Record → RecordType
  | circle _ => .circle
  | square _ => .square
  | triangle _ _ => .triangle

/-- What an object without parts of its own can hold. -/
inductive Leaf
  | point (p : Point)
  /-- An object whose first and only field is a point, at the same address. -/
  | holder (inner : Point)
  | label (text : String)
  | record (r : Record)
  | member (e : Enumeration) (ordinal : Fin e.cases.length)
  /-- An object of any class. -/
  | token (cls : Class) (id : Int32)
deriving DecidableEq

/-- Each value but null is an object with an address. -/
inductive Value
  | null
  | leaf (addr : Nat) (x : Leaf)
  | pair (addr : Nat) (left right : Value)
deriving DecidableEq

namespace Leaf

/-- The last case of a status has a class of its own. -/
def cls : Leaf → Class
  | point _ => Catalog.point
  | holder _ => Catalog.holder
  | label _ => Catalog.label
  | record r => Catalog.record r.type
  | member .status ⟨2, _⟩ => Catalog.special
  | member e _ => Catalog.enumeration e
  | token c _ => c

end Leaf

/-- The types by which objects at one address are told apart. -/
inductive ObjectType
  | point | holder | label | pair | token
  | record (t : RecordType)
  | member (e : Enumeration)
deriving DecidableEq, Repr

def Leaf.type : Leaf → ObjectType
  | point _ => .point
  | holder _ => .holder
  | label _ => .label
  | record r => .record r.type
  | member e _ => .member e
  | token _ _ => .token

/-- Objects of one type at one address are the same object, those of equal content need not be. -/
structure Identity where
  addr : Nat
  type : ObjectType
deriving DecidableEq, Repr

namespace Value

/-- Null is no object and has no class. -/
def cls? : Value → Option Class
  | null => none
  | leaf _ x => some x.cls
  | pair _ _ _ => some Catalog.pair

/-- The name of the class, empty for null. -/
def className (v : Value) : String := v.cls?.elim "" Class.name

def identity? : Value → Option Identity
  | null => none
  | leaf addr x => some ⟨addr, x.type⟩
  | pair addr _ _ => some ⟨addr, .pair⟩

def isNull : Value → Bool
  | null => true
  | _ => false

/-- The point inside a holder, which is an object in its own right. -/
def inner? : Value → Option Value
  | leaf addr (.holder p) => some (leaf addr (.point p))
  | _ => none

/-- The number of pairs on the longest way down. -/
def nesting : Value → Nat
  | pair _ l r => max l.nesting r.nesting + 1
  | _ => 0

end Value

/-- The case of this number. -/
def Enumeration.ofOrdinal? (e : Enumeration) (n : Nat) : Option Leaf :=
  if h : n < e.cases.length then some (.member e ⟨n, h⟩) else none

/-- The number of a case of this enumeration. -/
def Enumeration.ordinal? (e : Enumeration) : Leaf → Option Nat
  | .member f i => if e = f then some i.val else none
  | _ => none

end TagCodec
