import TagCodec.Json.Text

namespace TagCodec.Json

def Number.print : Number → List Char
  | .int x => if x < 0 then '-' :: Nat.toDigits 10 x.natAbs else Nat.toDigits 10 x.natAbs
  | .real x => RealFormat.json.finite x

def printBool (b : Bool) : List Char :=
  if b then ['t', 'r', 'u', 'e'] else ['f', 'a', 'l', 's', 'e']

mutual

def compact : Json → List Char
  | null => ['n', 'u', 'l', 'l']
  | bool b => printBool b
  | number n => n.print
  | string s => quote s
  | array items => '[' :: compactItems items ++ [']']
  | object members => '{' :: compactMembers members ++ ['}']

def compactItems : List Json → List Char
  | [] => []
  | [v] => compact v
  | v :: vs => compact v ++ ',' :: compactItems vs

def compactMembers : List (String × Json) → List Char
  | [] => []
  | [(name, v)] => quote name ++ ':' :: compact v
  | (name, v) :: ms => quote name ++ ':' :: compact v ++ ',' :: compactMembers ms

end

/-- A new line, two blanks deep for each level. -/
def newline (level : Nat) : List Char := '\n' :: List.replicate (2 * level) ' '

mutual

/-- Every item and every member stands on a line of its own. -/
def pretty (level : Nat) : Json → List Char
  | null => ['n', 'u', 'l', 'l']
  | bool b => printBool b
  | number n => n.print
  | string s => quote s
  | array [] => ['[', ']']
  | array items => '[' :: prettyItems (level + 1) items ++ newline level ++ [']']
  | object [] => ['{', '}']
  | object members => '{' :: prettyMembers (level + 1) members ++ newline level ++ ['}']

def prettyItems (level : Nat) : List Json → List Char
  | [] => []
  | [v] => newline level ++ pretty level v
  | v :: vs => newline level ++ pretty level v ++ ',' :: prettyItems level vs

def prettyMembers (level : Nat) : List (String × Json) → List Char
  | [] => []
  | [(name, v)] => newline level ++ quote name ++ ':' :: ' ' :: pretty level v
  | (name, v) :: ms =>
    newline level ++ quote name ++ ':' :: ' ' :: pretty level v ++ ',' :: prettyMembers level ms

end

def text (v : Json) : String := String.ofList (compact v)

end TagCodec.Json
