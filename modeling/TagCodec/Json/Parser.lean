import TagCodec.Json.Skip

namespace TagCodec.Json

/-- A value without brackets. -/
def scalar : List Char → Except JsonError (Json × List Char)
  | 'n' :: rest => return (null, ← keyword ['u', 'l', 'l'] rest)
  | 't' :: rest => return (bool true, ← keyword ['r', 'u', 'e'] rest)
  | 'f' :: rest => return (bool false, ← keyword ['a', 'l', 's', 'e'] rest)
  | '"' :: rest => do
    let (s, rest) ← stringRest [] rest
    return (string s, rest)
  | cs => do
    let (n, rest) ← readNumber cs
    return (number n, rest)

/-- A value with at most this many brackets around its innermost part is read. -/
def nestingLimit : Nat := 127

mutual

def valueWith : (fuel room : Nat) → List Char → Except JsonError (Json × List Char)
  | 0, _, _ => .error .malformed
  | fuel + 1, room, cs =>
    match skipBlanks cs, room with
    | '[' :: rest, room + 1 =>
      match skipBlanks rest with
      | ']' :: rest => .ok (array [], rest)
      | rest => do
        let (items, rest) ← itemsWith fuel room rest
        return (array items, rest)
    | '{' :: rest, room + 1 =>
      match skipBlanks rest with
      | '}' :: rest => .ok (object [], rest)
      | rest => do
        let (members, rest) ← membersWith fuel room rest
        return (object members, rest)
    | '[' :: _, 0 => .error .malformed
    | '{' :: _, 0 => .error .malformed
    | rest, _ => scalar rest

def itemsWith : (fuel room : Nat) → List Char → Except JsonError (List Json × List Char)
  | 0, _, _ => .error .malformed
  | fuel + 1, room, cs => do
    let (v, rest) ← valueWith fuel room cs
    match skipBlanks rest with
    | ',' :: rest => do
      let (vs, rest) ← itemsWith fuel room rest
      return (v :: vs, rest)
    | ']' :: rest => return ([v], rest)
    | _ => throw .malformed

def membersWith :
    (fuel room : Nat) → List Char → Except JsonError (List (String × Json) × List Char)
  | 0, _, _ => .error .malformed
  | fuel + 1, room, cs =>
    match skipBlanks cs with
    | '"' :: rest => do
      let (name, rest) ← stringRest [] rest
      match skipBlanks rest with
      | ':' :: rest => do
        let (v, rest) ← valueWith fuel room rest
        match skipBlanks rest with
        | ',' :: rest => do
          let (ms, rest) ← membersWith fuel room rest
          return ((name, v) :: ms, rest)
        | '}' :: rest => return ([(name, v)], rest)
        | _ => throw .malformed
      | _ => throw .malformed
    | _ => .error .malformed

end

/-- The value that a text spells, blanks around it aside. Every second call at least consumes a
character. -/
def parse (cs : List Char) : Except JsonError Json := do
  let (v, rest) ← valueWith (2 * cs.length + 2) nestingLimit cs
  if (skipBlanks rest).isEmpty then return v
  throw .malformed

/-- Bytes that are not UTF-8 spell no value. -/
def parseBytes (bs : List UInt8) : Except JsonError Json :=
  match String.fromUTF8? ⟨bs.toArray⟩ with
  | some s => parse s.toList
  | none => .error .malformed

end TagCodec.Json
