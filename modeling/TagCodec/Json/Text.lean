import TagCodec.Json.Basic

namespace TagCodec.Json

/-- Four lower-case hexadecimal digits. -/
def hex4 (n : Nat) : List Char :=
  [Nat.digitChar (n / 4096 % 16), Nat.digitChar (n / 256 % 16), Nat.digitChar (n / 16 % 16),
    Nat.digitChar (n % 16)]

def quotedChar (c : Char) : List Char :=
  match c with
  | '"' => ['\\', '"']
  | '\\' => ['\\', '\\']
  | '\x08' => ['\\', 'b']
  | '\t' => ['\\', 't']
  | '\n' => ['\\', 'n']
  | '\x0c' => ['\\', 'f']
  | '\r' => ['\\', 'r']
  | c => if c.toNat < 0x20 then '\\' :: 'u' :: hex4 c.toNat else [c]

def quote (s : String) : List Char :=
  '"' :: s.toList.flatMap quotedChar ++ ['"']

def hexDigit? (c : Char) : Option Nat :=
  if '0' ≤ c ∧ c ≤ '9' then some (c.toNat - 48)
  else if 'a' ≤ c ∧ c ≤ 'f' then some (c.toNat - 87)
  else if 'A' ≤ c ∧ c ≤ 'F' then some (c.toNat - 55)
  else none

/-- The 16-bit unit that four hexadecimal digits of either case spell. -/
def unit? (a b c d : Char) : Option Nat := do
  return (((← hexDigit? a) * 16 + (← hexDigit? b)) * 16 + (← hexDigit? c)) * 16 + (← hexDigit? d)

/-- The character that a single letter after a backslash stands for. -/
def escaped? : Char → Option Char
  | '"' => some '"'
  | '\\' => some '\\'
  | '/' => some '/'
  | 'b' => some '\x08'
  | 'f' => some '\x0c'
  | 'n' => some '\n'
  | 'r' => some '\r'
  | 't' => some '\t'
  | _ => none

def isHighSurrogate (n : Nat) : Bool := decide (0xD800 ≤ n ∧ n < 0xDC00)

def isLowSurrogate (n : Nat) : Bool := decide (0xDC00 ≤ n ∧ n < 0xE000)

/-- The rest of a string literal, up to and with its closing quote. What was read so far is in
reverse. A surrogate counts only as half of a pair. -/
def stringRest (acc : List Char) : List Char → Except JsonError (String × List Char)
  | [] => .error .malformed
  | '"' :: rest => .ok (String.ofList acc.reverse, rest)
  | '\\' :: 'u' :: a :: b :: c :: d :: rest =>
    match unit? a b c d with
    | none => .error .malformed
    | some high =>
      if isHighSurrogate high then
        match rest with
        | '\\' :: 'u' :: e :: f :: g :: h :: rest =>
          match unit? e f g h with
          | none => .error .malformed
          | some low =>
            if isLowSurrogate low then
              let n := 0x10000 + (high - 0xD800) * 0x400 + (low - 0xDC00)
              stringRest (Char.ofNat n :: acc) rest
            else .error .malformed
        | _ => .error .malformed
      else if isLowSurrogate high then .error .malformed
      else stringRest (Char.ofNat high :: acc) rest
  | '\\' :: c :: rest =>
    match escaped? c with
    | some x => stringRest (x :: acc) rest
    | none => .error .malformed
  | c :: rest => if c.toNat < 0x20 then .error .malformed else stringRest (c :: acc) rest

/-- Passes over the rest of a string literal whose content does not matter. Surrogates may stand
alone there. -/
def skipStringRest : List Char → Except JsonError (List Char)
  | [] => .error .malformed
  | '"' :: rest => .ok rest
  | '\\' :: 'u' :: a :: b :: c :: d :: rest =>
    if (unit? a b c d).isSome then skipStringRest rest else .error .malformed
  | '\\' :: c :: rest =>
    if (escaped? c).isSome then skipStringRest rest else .error .malformed
  | c :: rest => if c.toNat < 0x20 then .error .malformed else skipStringRest rest

end TagCodec.Json
