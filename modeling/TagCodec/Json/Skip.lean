import TagCodec.Json.Text
import TagCodec.Json.Number

namespace TagCodec.Json

def isBlank (c : Char) : Bool := c = ' ' || c = '\n' || c = '\t' || c = '\r'

def skipBlanks (cs : List Char) : List Char := cs.dropWhile isBlank

/-- The rest after `word`. -/
def keyword (word cs : List Char) : Except JsonError (List Char) :=
  if word.isPrefixOf cs then .ok (cs.drop word.length) else .error .malformed

def skipScalar : List Char → Except JsonError (List Char)
  | 'n' :: rest => keyword ['u', 'l', 'l'] rest
  | 't' :: rest => keyword ['r', 'u', 'e'] rest
  | 'f' :: rest => keyword ['a', 'l', 's', 'e'] rest
  | '"' :: rest => skipStringRest rest
  | cs => skipNumber cs

inductive Bracket
  | square | curly
deriving DecidableEq

/-- A bracket was just opened, a value is due, or a value has just ended. -/
inductive Due
  | first | value | separator
deriving DecidableEq

/-- A member's name and the colon after it. -/
def skipName (cs : List Char) : Except JsonError (List Char) :=
  match skipBlanks cs with
  | '"' :: rest => do
    let rest ← skipStringRest rest
    match skipBlanks rest with
    | ':' :: rest => return rest
    | _ => throw .malformed
  | _ => .error .malformed

/-- One value, the brackets around what is left of it innermost first. -/
def skipWith : (fuel : Nat) → Due → List Bracket → List Char → Except JsonError (List Char)
  | 0, _, _, _ => .error .malformed
  | fuel + 1, due, stack, cs =>
    match due, stack, skipBlanks cs with
    | .separator, [], _ => .ok cs
    | .separator, .square :: _, ',' :: rest => skipWith fuel .value stack rest
    | .separator, .square :: outer, ']' :: rest => skipWith fuel .separator outer rest
    | .separator, .curly :: _, ',' :: rest =>
      match skipName rest with
      | .ok rest => skipWith fuel .value stack rest
      | .error e => .error e
    | .separator, .curly :: outer, '}' :: rest => skipWith fuel .separator outer rest
    | .separator, _, _ => .error .malformed
    | .first, .square :: outer, ']' :: rest => skipWith fuel .separator outer rest
    | .first, .curly :: outer, '}' :: rest => skipWith fuel .separator outer rest
    | .first, .curly :: _, rest =>
      match skipName rest with
      | .ok rest => skipWith fuel .value stack rest
      | .error e => .error e
    | .first, _, rest => skipWith fuel .value stack rest
    | .value, _, '[' :: rest => skipWith fuel .first (.square :: stack) rest
    | .value, _, '{' :: rest => skipWith fuel .first (.curly :: stack) rest
    | .value, _, rest =>
      match skipScalar rest with
      | .ok rest => skipWith fuel .separator stack rest
      | .error e => .error e

/-- The value at the start of a text of at most `bound` characters. Every second step at least
consumes a character. -/
def skip (bound : Nat) (cs : List Char) : Except JsonError (List Char) :=
  skipWith (2 * bound + 2) .value [] cs

end TagCodec.Json
