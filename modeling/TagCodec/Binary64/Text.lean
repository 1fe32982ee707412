import TagCodec.Binary64.Shortest

namespace TagCodec

structure RealFormat where
  /-- The least decimal exponent that is still written without a power of ten. -/
  plainFrom : Int
  /-- The least decimal exponent from which a power of ten is written again. -/
  plainBelow : Int
  /-- A positive exponent carries its sign. -/
  signedExponent : Bool
  tie : Tie

namespace RealFormat

/-- The form inside debugging texts. -/
def debug : RealFormat := ⟨-4, 16, false, .up⟩

/-- The form of numbers in JSON. -/
def json : RealFormat := ⟨-5, 16, true, .even⟩

def dropTrailingZeros (ds : List Char) : List Char :=
  (ds.reverse.dropWhile (· == '0')).reverse

/-- The fraction after the point, which has at least one digit. -/
def fraction (ds : List Char) : List Char :=
  '.' :: if ds.isEmpty then ['0'] else ds

/-- Digits with the point after the first `places`, or behind leading zeros. -/
def plain (ds : List Char) (places : Int) : List Char :=
  if 0 < places then
    let n := places.toNat
    ds.take n ++ List.replicate (n - ds.length) '0' ++ fraction (ds.drop n)
  else
    '0' :: '.' :: List.replicate (-places).toNat '0' ++ ds

def scientific (f : RealFormat) (ds : List Char) (e : Int) : List Char :=
  let rest := ds.drop 1
  let sign := if e < 0 then ['-'] else if f.signedExponent then ['+'] else []
  ds.take 1 ++ (if rest.isEmpty then [] else '.' :: rest) ++ 'e' :: sign
    ++ Nat.toDigits 10 e.natAbs

def unsigned (f : RealFormat) (mag : Nat) : List Char :=
  if mag = 0 then ['0', '.', '0']
  else
    let d := Binary64.shortest f.tie mag
    let all := Nat.toDigits 10 d.digits
    let e := all.length + d.power - 1
    let ds := dropTrailingZeros all
    if f.plainFrom ≤ e ∧ e < f.plainBelow then plain ds (e + 1) else f.scientific ds e

/-- The text of a finite number. Zero keeps its sign. -/
def finite (f : RealFormat) (x : Binary64) : List Char :=
  if x.isNegative then '-' :: f.unsigned x.magnitude else f.unsigned x.magnitude

end RealFormat

def Binary64.debugText (x : Binary64) : String :=
  if x.isNaN then "NaN"
  else if x.isFinite then String.ofList (RealFormat.debug.finite x)
  else if x.isNegative then "-inf" else "inf"

end TagCodec
