import TagCodec.Text.Quoted

namespace TagCodec

/-- Record types whose fields are numbers and can be written as JSON. -/
inductive RecordType
  | circle | square | triangle
deriving DecidableEq, Repr

namespace RecordType

def name : RecordType → String
  | circle => "Circle"
  | square => "Square"
  | triangle => "Triangle"

/-- The names of the fields, in alphabetical order. -/
def fields : RecordType → List String
  | circle => ["radius"]
  | square => ["side"]
  | triangle => ["base", "height"]

end RecordType

/-- Enumerations, whose cases are numbered from zero. A swatch is a color of the sample
palette. -/
inductive Enumeration
  | color | status | swatch
deriving DecidableEq, Repr

namespace Enumeration

def cases : Enumeration → List String
  | color => ["Red", "Green"]
  | status => ["Active", "Retired", "Special"]
  | swatch => ["Red", "Green", "Blue"]

def debugText (e : Enumeration) : String :=
  "EnumInfo \x7b variants: [" ++ ", ".intercalate (e.cases.map Text.quoted) ++ "] \x7d"

end Enumeration

inductive Kind
  /-- An ordinary class, with a codec of its own only if its fields are known. -/
  | plain (record : Option RecordType)
  /-- The class that declares an enumeration. -/
  | enumeration (e : Enumeration)
  /-- The class of a single case, whose superclass declares the enumeration. -/
  | enumCase
deriving DecidableEq, Repr

def Kind.debugText : Kind → String
  | plain none => "Plain \x7b structure: None \x7d"
  | plain (some _) => "Plain \x7b structure: Some(Structure) \x7d"
  | enumeration e => "Enum(" ++ e.debugText ++ ")"
  | enumCase => "EnumCase"

/-- What a value is, under a name, with at most one superclass. -/
inductive Class
  | root (name : String) (kind : Kind)
  | sub (name : String) (kind : Kind) (superclass : Class)
deriving DecidableEq, Repr

namespace Class

def plain (name : String) : Class := root name (.plain none)

def enumeration (name : String) (e : Enumeration) : Class := root name (.enumeration e)

def enumCase (name : String) (declaring : Class) : Class := sub name .enumCase declaring

def name : Class → String
  | root name _ => name
  | sub name _ _ => name

def kind : Class → Kind
  | root _ kind => kind
  | sub _ kind _ => kind

def superclass? : Class → Option Class
  | root _ _ => none
  | sub _ _ c => some c

/-- Sets the superclass. -/
def extending (c superclass : Class) : Class := sub c.name c.kind superclass

/-- Makes the class an ordinary one with known fields. -/
def withRecord (c : Class) (t : RecordType) : Class :=
  match c with
  | root name _ => root name (.plain (some t))
  | sub name _ s => sub name (.plain (some t)) s

/-- The class itself, its superclass, and so on to the top. -/
def ancestry : Class → List Class
  | root name kind => [root name kind]
  | sub name kind s => sub name kind s :: s.ancestry

def isEnum (c : Class) : Bool :=
  match c.kind with
  | .enumeration _ => true
  | .enumCase => true
  | .plain _ => false

def enumeration? (c : Class) : Option Enumeration :=
  match c.kind with
  | .enumeration e => some e
  | _ => none

def record? (c : Class) : Option RecordType :=
  match c.kind with
  | .plain r => r
  | _ => none

/-- The class under which values are looked up: for a case's class the one that declares it. -/
def declaring : Class → Class
  | sub _ .enumCase s => s
  | c => c

/-- Classes are told apart by their names. -/
def sameName (c d : Class) : Bool := c.name == d.name

def debugText (c : Class) : String :=
  let superclass :=
    match c.superclass? with
    | some s => "Some(" ++ Text.quoted s.name ++ ")"
    | none => "None"
  "Class \x7b name: " ++ Text.quoted c.name ++ ", superclass: " ++ superclass
    ++ ", kind: " ++ c.kind.debugText ++ " \x7d"

end Class

end TagCodec
