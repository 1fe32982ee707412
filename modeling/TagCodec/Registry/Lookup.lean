import TagCodec.Registry.Basic

namespace TagCodec

/-- A format under its tag, with the codec that was registered for it if there was one. -/
structure Binding where
  tag : Tag
  format : Format
  codecId? : Option Nat
deriving DecidableEq

def Binding.debugText (b : Binding) : String :=
  "CodecDescriptor \x7b codec: " ++ b.format.debugText ++ ", tag: " ++ b.tag.debugText ++ " \x7d"

/-- Where a tag lies. Entries are counted from zero within their group. -/
inductive Place
  | null
  | backReference
  | explicit (i : Nat)
  | constant (i : Nat)
  | fallback (i : Nat)
  | unassigned
deriving DecidableEq, Repr

namespace Registry

/-- The tag of the entry with `i` others in front of it: first come the codecs, then the constants,
then the listed names. -/
def tagAt (i : Nat) : Tag := Tag.first.offset i

def explicitTag (i : Nat) : Tag := tagAt i

def constantTag (r : Registry) (i : Nat) : Tag := tagAt (r.codecs.length + i)

def fallbackTag (r : Registry) (i : Nat) : Tag :=
  tagAt (r.codecs.length + r.constants.length + i)

/-- While the fallback is disabled, the tags of its names are unassigned. -/
def place (r : Registry) (t : Tag) : Place :=
  if t.isNull then .null
  else if t.isBackReference then .backReference
  else
    let i := t.toInt.toNat - 1
    let c := r.codecs.length
    let k := r.constants.length
    if i < c then .explicit i
    else if i < c + k then .constant (i - c)
    else if i < c + k + r.names.size ∧ r.allowDefault then .fallback (i - (c + k))
    else .unassigned

def explicitAt? (r : Registry) (i : Nat) : Option Binding :=
  r.codecs[i]?.map fun c => ⟨explicitTag i, c.format, some c.id⟩

/-- The codec that claims a class of this name. -/
def claimant? (r : Registry) (name : String) : Option Binding :=
  r.codecs.findIdx? (fun c => c.claims.contains name) >>= r.explicitAt?

/-- The codec that claims the class or else the nearest class above it. -/
def explicitFor? (r : Registry) (c : Class) : Option Binding :=
  c.ancestry.findSome? fun a => r.claimant? a.name

/-- The codec for the listed name with `i` others in front of it. -/
def fallbackAt (r : Registry) (name : String) (i : Nat) : Lookup Binding := do
  let f ← r.fallback.get name (r.fallbackTag i)
  return ⟨r.fallbackTag i, f, none⟩

def fallbackFor (r : Registry) (name : String) : Lookup Binding :=
  match r.names.index? name with
  | some i => r.fallbackAt name i
  | none => throw (.notListed name)

/-- A registered codec comes first. Without one, the cases of an enumeration go by the class
that declares them. -/
def resolve (r : Registry) (c : Class) : Lookup Binding :=
  match r.explicitFor? c with
  | some b => return b
  | none =>
    if r.allowDefault then r.fallbackFor c.declaring.name
    else throw (.fallbackDisabled c.name)

/-- The tags of null, of back references and of constants stand for no codec. -/
def resolveTag (r : Registry) (t : Tag) : Lookup Binding :=
  let found :=
    match r.place t with
    | .explicit i => (r.explicitAt? i).map fun b => pure b
    | .fallback i => (r.names.get? i).map fun name => r.fallbackAt name i
    | _ => none
  found.getD (throw (.unknownTag t))

/-- The tag of a constant, which has to be this very object. -/
def constantTag? (r : Registry) (v : Value) : Option Tag :=
  (r.constants.findIdx? fun k => k.identity? == v.identity?).map r.constantTag

def constantAt? (r : Registry) (t : Tag) : Option Value :=
  match r.place t with
  | .constant i => r.constants[i]?
  | _ => none

/-- A registry that builds no codecs on demand gives no tags to names. -/
def layout (r : Registry) : Layout where
  allowDefault := r.allowDefault
  explicit := r.codecs.mapIdx fun i c => ⟨explicitTag i, c.name⟩
  constants := r.constants.mapIdx fun i v => ⟨r.constantTag i, v.className⟩
  fallback :=
    if r.allowDefault then r.names.toList.mapIdx fun i name => ⟨r.fallbackTag i, name⟩ else []

end Registry

end TagCodec
