import TagCodec.Class

namespace TagCodec

inductive ConstructionError
  | classNotFound (name : String)
  | noFields (name : String)
  | notAnEnum (name : String)
deriving DecidableEq, Repr

def ConstructionError.message : ConstructionError → String
  | classNotFound name => "class '" ++ name ++ "' could not be resolved"
  | noFields name => "class '" ++ name ++ "' has no structure to encode"
  | notAnEnum name => "class '" ++ name ++ "' is not an enum"

/-- No two classes in it have the same name. -/
structure ClassPath where
  classes : List Class
deriving DecidableEq

namespace ClassPath

def empty : ClassPath := ⟨[]⟩

def size (p : ClassPath) : Nat := p.classes.length

def isEmpty (p : ClassPath) : Bool := p.classes.isEmpty

/-- Adds a class in the place of one with the same name. -/
def insert (p : ClassPath) (c : Class) : ClassPath :=
  ⟨c :: p.classes.filter fun d => !d.sameName c⟩

def ofList (cs : List Class) : ClassPath := cs.foldl insert empty

def get? (p : ClassPath) (name : String) : Option Class :=
  p.classes.find? fun c => c.name == name

def resolve (p : ClassPath) (name : String) : Except ConstructionError Class :=
  match p.get? name with
  | some c => .ok c
  | none => .error (.classNotFound name)

end ClassPath

end TagCodec
