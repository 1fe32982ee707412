import TagCodec.Json.Parser

namespace TagCodec.Json

/-- Reads a value at the start of a text of at most `bound` characters and gives the rest. The
bound is that of the whole text, so that nothing has to be counted on the way. -/
abbrev Reader (α : Type) := (bound : Nat) → List Char → Except JsonError (α × List Char)

namespace Reader

/-- A value without brackets that `accept` takes. Of another scalar the text is checked before
its shape is refused. -/
def scalarOf (accept : Json → Option α) : Reader α := fun _ cs =>
  match skipBlanks cs with
  | '[' :: _ => .error .misshapen
  | '{' :: _ => .error .misshapen
  | cs => do
    let (v, rest) ← scalar cs
    match accept v with
    | some a => return (a, rest)
    | none => throw .misshapen

def bool : Reader Bool := scalarOf fun
  | .bool b => some b
  | _ => none

def string : Reader String := scalarOf fun
  | .string s => some s
  | _ => none

/-- A whole number of 32 bits, written without fraction and exponent. -/
def int32 : Reader Int32 := scalarOf fun
  | .number (.int x) => if -0x80000000 ≤ x ∧ x < 0x80000000 then some (Int32.ofInt x) else none
  | _ => none

/-- Whether an array goes on with another item, and where that item begins. The closing bracket
is left in place. -/
def nextItem (first : Bool) (cs : List Char) : Except JsonError (Option (List Char)) :=
  match skipBlanks cs, first with
  | [], _ => .error .malformed
  | ']' :: _, _ => .ok none
  | cs, true => .ok (some cs)
  | ',' :: rest, false =>
    match skipBlanks rest with
    | [] => .error .malformed
    | ']' :: _ => .error .malformed
    | rest => .ok (some rest)
  | _, false => .error .malformed

/-- The bracket that ends an array. -/
def close (cs : List Char) : Except JsonError (List Char) :=
  match skipBlanks cs with
  | ']' :: rest => .ok rest
  | _ => .error .malformed

def itemsWith (item : Reader α) : (fuel : Nat) → (first : Bool) → Reader (List α)
  | 0, _, _, _ => .error .malformed
  | fuel + 1, first, bound, cs => do
    match ← nextItem first cs with
    | none => return ([], ← close cs)
    | some cs => do
      let (a, rest) ← item bound cs
      let (as, rest) ← itemsWith item fuel false bound rest
      return (a :: as, rest)

/-- Each item consumes a character. -/
def list (item : Reader α) : Reader (List α) := fun bound cs =>
  match skipBlanks cs with
  | '[' :: rest => itemsWith item (bound + 1) true bound rest
  | cs => scalarOf (fun _ => none) bound cs

/-- A field of a record that is being filled in. -/
structure Field (σ : Type) where
  name : String
  isSet : σ → Bool
  read : σ → Reader σ

/-- A field whose value has a place of its own in the record. -/
def Field.slot (name : String) (get : σ → Option β) (set : σ → β → σ) (reader : Reader β) :
    Field σ where
  name := name
  isSet s := (get s).isSome
  read s bound cs := do
    let (b, rest) ← reader bound cs
    return (set s b, rest)

/-- The fields at the start of an array, in their order, as far as it goes. -/
def positional : List (Field σ) → (first : Bool) → σ → Reader σ
  | [], _, s, _, cs => .ok (s, cs)
  | f :: fs, first, s, bound, cs => do
    match ← nextItem first cs with
    | none => return (s, cs)
    | some cs => do
      let (s, rest) ← f.read s bound cs
      positional fs false s bound rest

def colon (cs : List Char) : Except JsonError (List Char) :=
  match skipBlanks cs with
  | ':' :: rest => .ok rest
  | _ => .error .malformed

/-- What follows a member's name. A known field may be given once. -/
def memberValue (fields : List (Field σ)) (s : σ) (name : String) : Reader σ :=
    fun bound cs =>
  match fields.find? fun f => f.name == name with
  | none => do
    let rest ← skip bound (← colon cs)
    return (s, rest)
  | some f => if f.isSet s then .error .misshapen else do f.read s bound (← colon cs)

/-- Where a member's name begins, or that the object ends. -/
def nextName (first : Bool) (cs : List Char) : Except JsonError (Option (List Char)) :=
  match skipBlanks cs, first with
  | '}' :: _, _ => .ok none
  | '"' :: rest, true => .ok (some rest)
  | ',' :: rest, false =>
    match skipBlanks rest with
    | '"' :: rest => .ok (some rest)
    | _ => .error .malformed
  | _, _ => .error .malformed

def membersWith (fields : List (Field σ)) : (fuel : Nat) → (first : Bool) → σ → Reader σ
  | 0, _, _, _, _ => .error .malformed
  | fuel + 1, first, s, bound, cs => do
    match ← nextName first cs with
    | none => return (s, (skipBlanks cs).drop 1)
    | some cs => do
      let (name, rest) ← stringRest [] cs
      let (s, rest) ← memberValue fields s name bound rest
      membersWith fields fuel false s bound rest

/-- Fills in the fields and lets `finish` decide about those that are missing, which counts
before anything that follows an array's last known item. -/
def record (fields : List (Field σ)) (start : σ) (finish : σ → Except JsonError α) :
    Reader α := fun bound cs =>
  match skipBlanks cs with
  | '{' :: rest => do
    let (s, rest) ← membersWith fields (bound + 1) true start bound rest
    return (← finish s, rest)
  | '[' :: rest => do
    let (s, rest) ← positional fields true start bound rest
    let a ← finish s
    return (a, ← close rest)
  | cs => scalarOf (fun _ => none) bound cs

/-- Reads a text of one value, with nothing but blanks around it. -/
def run (reader : Reader α) (text : String) : Except JsonError α := do
  let cs := text.toList
  let (a, rest) ← reader cs.length cs
  if (skipBlanks rest).isEmpty then return a
  throw .malformed

end Reader

end TagCodec.Json
