namespace TagCodec

/-- Every finite magnitude is a whole number of quanta of 2⁻¹⁰⁷⁴, so that rounding, products and
quotients need no fractions. -/
structure Binary64 where
  bits : UInt64
deriving DecidableEq, Repr

namespace Binary64

/-- The sign, 2⁶³. -/
def signBit : Nat := 0x8000000000000000

/-- The leading bit of a significand, 2⁵², where it is implied. -/
def leadingBit : Nat := 0x10000000000000

/-- The bits below the sign. On them the order of the numbers is the order of the magnitudes. -/
def magnitude (x : Binary64) : Nat := x.bits.toNat % signBit

def isNegative (x : Binary64) : Bool := decide (signBit ≤ x.bits.toNat)

def infinity : Nat := 0x7FF0000000000000

def isFinite (x : Binary64) : Bool := decide (x.magnitude < infinity)

def isNaN (x : Binary64) : Bool := decide (infinity < x.magnitude)

def ofMagnitude (negative : Bool) (mag : Nat) : Binary64 :=
  ⟨UInt64.ofNat (mag % signBit + if negative then signBit else 0)⟩

/-- The leading bit of a subnormal magnitude is not implied. -/
def significand (mag : Nat) : Nat :=
  if mag < leadingBit then mag else mag % leadingBit + leadingBit

/-- A significand counts quanta of two to this power. -/
def exponent (mag : Nat) : Nat := mag / leadingBit - 1

def quanta (mag : Nat) : Nat := significand mag * Nat.pow 2 (exponent mag)

/-- `num / den` to the nearest whole number, a half going to the even neighbour. -/
def roundDiv (num den : Nat) : Nat :=
  let whole := num / den
  let twice := 2 * (num % den)
  if twice < den then whole
  else if den < twice then whole + 1
  else whole + whole % 2

/-- The magnitude nearest to `num / den` quanta, infinity when it is too large. A significand
that rounds up to 2⁵³ carries into the exponent. -/
def nearest (num den : Nat) : Nat :=
  let shift := Nat.log2 (num / den) - 52
  min (shift * leadingBit + roundDiv num (den * Nat.pow 2 shift)) infinity

def ofNat (n : Nat) : Nat := nearest (n * Nat.pow 2 1074) 1

def mul (a b : Nat) : Nat := nearest (quanta a * quanta b) (Nat.pow 2 1074)

def div (a b : Nat) : Nat := nearest (quanta a * Nat.pow 2 1074) (quanta b)

end Binary64

end TagCodec
