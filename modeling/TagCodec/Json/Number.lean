import TagCodec.Json.Basic

namespace TagCodec.Json

/-- The parts of a number literal. A fraction or exponent that is present has a digit. -/
structure Literal where
  negative : Bool
  whole : List Char
  fraction : Option (List Char)
  exponent : Option (Bool × List Char)
deriving DecidableEq

namespace Literal

/-- Digits of which there must be one. -/
def digits (cs : List Char) : Except JsonError (List Char × List Char) :=
  let ds := cs.takeWhile Char.isDigit
  if ds.isEmpty then .error .malformed else .ok (ds, cs.dropWhile Char.isDigit)

/-- A whole part begins with zero only if it is zero. -/
def wholePart (cs : List Char) : Except JsonError (List Char × List Char) := do
  let (ds, rest) ← digits cs
  if ds.head? = some '0' ∧ ds.length ≠ 1 then throw .malformed
  return (ds, rest)

def fractionPart : List Char → Except JsonError (Option (List Char) × List Char)
  | '.' :: rest => do
    let (ds, rest) ← digits rest
    return (some ds, rest)
  | cs => return (none, cs)

def exponentPart : List Char → Except JsonError (Option (Bool × List Char) × List Char)
  | c :: rest =>
    if c = 'e' ∨ c = 'E' then
      let (negative, rest) :=
        match rest with
        | '-' :: rest => (true, rest)
        | '+' :: rest => (false, rest)
        | rest => (false, rest)
      do
        let (ds, rest) ← digits rest
        return (some (negative, ds), rest)
    else return (none, c :: rest)
  | [] => return (none, [])

/-- The longest literal at the start of a text. -/
def scan (cs : List Char) : Except JsonError (Literal × List Char) := do
  let (negative, cs) :=
    match cs with
    | '-' :: cs => (true, cs)
    | cs => (false, cs)
  let (whole, cs) ← wholePart cs
  let (fraction, cs) ← fractionPart cs
  let (exponent, cs) ← exponentPart cs
  return (⟨negative, whole, fraction, exponent⟩, cs)

/-- Takes digits into a number for as long as it stays below `limit`, and gives the digits that
are left over. -/
def absorb (limit n : Nat) : List Char → Nat × List Char
  | [] => (n, [])
  | d :: ds =>
    let next := n * 10 + (d.toNat - 48)
    if next < limit then absorb limit next ds else (n, d :: ds)

/-- A significand has at most 64 bits. -/
def significandLimit : Nat := 0x10000000000000000

/-- An exponent has at most 31 bits and a sign. -/
def exponentLimit : Nat := 0x80000000

/-- Quotients by `10 ^ 308` as long as they change anything. -/
def reduce (f : Nat) : (steps : Nat) → Nat
  | 0 => f
  | steps + 1 =>
    if f = 0 then 0 else reduce (Binary64.div f (Binary64.ofNat (Nat.pow 10 308))) steps

/-- `significand * 10 ^ power` with a rounding after each step, so that another number may be nearer
to it. -/
def scale (significand : Nat) (power : Int) : Except JsonError Nat :=
  let f := Binary64.ofNat significand
  let n := power.natAbs
  if power < 0 then
    let steps := (n - 1) / 308
    .ok (Binary64.div (reduce f steps) (Binary64.ofNat (Nat.pow 10 (n - 308 * steps))))
  else if n ≤ 308 then
    let product := Binary64.mul f (Binary64.ofNat (Nat.pow 10 n))
    if product < Binary64.infinity then .ok product else .error .malformed
  else if f = 0 then .ok 0
  else .error .malformed

/-- The sign of the exponent and its digits, none if there is no exponent. -/
def exponentDigits (l : Literal) : Bool × List Char := l.exponent.getD (false, [])

/-- Digits of the whole part that do not fit any more still count as places, those of the
fraction are dropped. -/
def realValue (l : Literal) : Except JsonError Binary64 := do
  let (whole, left) := absorb significandLimit 0 l.whole
  let ds := l.fraction.getD []
  let (significand, dropped) := absorb significandLimit whole ds
  let power : Int := left.length - (ds.length - dropped.length : Nat)
  let (below, ds) := l.exponentDigits
  let (e, left) := absorb exponentLimit 0 ds
  if !left.isEmpty then
    if significand ≠ 0 ∧ !below then throw .malformed
    return Binary64.ofMagnitude l.negative 0
  let mag ← scale significand (if below then power - e else power + e)
  return Binary64.ofMagnitude l.negative mag

/-- A whole number is exact if it fits into 64 bits; minus zero is a real number. -/
def value (l : Literal) : Except JsonError Number :=
  match l.fraction, l.exponent, absorb significandLimit 0 l.whole with
  | none, none, (n, []) =>
    if !l.negative then .ok (.int n)
    else if 0 < n ∧ n ≤ 0x8000000000000000 then .ok (.int (-n))
    else l.realValue.map .real
  | _, _, _ => l.realValue.map .real

end Literal

def readNumber (cs : List Char) : Except JsonError (Number × List Char) := do
  let (l, rest) ← Literal.scan cs
  return (← l.value, rest)

/-- Passes over a number that may be of any size. -/
def skipNumber (cs : List Char) : Except JsonError (List Char) := do
  let (_, rest) ← Literal.scan cs
  return rest

end TagCodec.Json
