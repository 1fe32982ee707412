import TagCodec.Binary64.Basic

namespace TagCodec

/-- Where two decimals of one length are equally near. -/
inductive Tie
  | even | up
deriving DecidableEq, Repr

/-- The number `digits * 10 ^ power`. -/
structure Decimal where
  digits : Nat
  power : Int
deriving DecidableEq, Repr

namespace Binary64

/-- The reals that round to `mag`, bounded in quarters of a quantum. Just above a power of two
the gap below is half the gap above. The bounds belong to it when the significand is even. -/
structure Interval where
  low : Nat
  value : Nat
  high : Nat
  closed : Bool

def interval (mag : Nat) : Interval :=
  let s := significand mag
  let unit := Nat.pow 2 (exponent mag)
  { low := (4 * s - if s = leadingBit && exponent mag ≠ 0 then 1 else 2) * unit
    value := 4 * s * unit
    high := (4 * s + 2) * unit
    closed := s % 2 = 0 }

def Interval.contains (i : Interval) (scale x : Nat) : Bool :=
  if i.closed then decide (i.low * scale ≤ x ∧ x ≤ i.high * scale)
  else decide (i.low * scale < x ∧ x < i.high * scale)

/-- The decimal exponent of the leading digit. The least magnitude is above 10⁻³²⁴. -/
def leadingPower (mag : Nat) : Int :=
  (Nat.toDigits 10 (quanta mag * Nat.pow 10 324 / Nat.pow 2 1074)).length - 325

/-- The multiple of `10 ^ power` that rounds to `mag`, if one does, and the nearer where both
neighbours of the value do. -/
def onGrid? (tie : Tie) (mag : Nat) (power : Int) : Option Decimal :=
  let i := interval mag
  let scale := Nat.pow 10 (-power).toNat
  let unit := Nat.pow 10 power.toNat * Nat.pow 2 1076
  let d := i.value * scale / unit
  let below := i.value * scale - d * unit
  let above := (d + 1) * unit - i.value * scale
  let upper :=
    if below = above then
      match tie with
      | .even => d % 2 = 1
      | .up => true
    else decide (above < below)
  match i.contains scale (d * unit), i.contains scale ((d + 1) * unit) with
  | true, true => some ⟨if upper then d + 1 else d, power⟩
  | true, false => some ⟨d, power⟩
  | false, true => some ⟨d + 1, power⟩
  | false, false => none

/-- Seventeen digits tell all magnitudes apart. -/
def shortest (tie : Tie) (mag : Nat) : Decimal :=
  let top := leadingPower mag
  ((List.range 17).findSome? fun (more : Nat) => onGrid? tie mag (top - more)).getD ⟨0, 0⟩

end Binary64

end TagCodec
