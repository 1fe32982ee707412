import TagCodec.Binary64.Basic

namespace TagCodec.Binary64

theorem roundDiv_bounds (num den : Nat) :
    num / den ≤ roundDiv num den ∧ roundDiv num den ≤ num / den + 1 := by
  simp only [roundDiv]
  split
  · omega
  · split <;> omega

/-- The rounded quotient is at most half a unit too large. -/
theorem roundDiv_mul_le (num den : Nat) : 2 * (roundDiv num den * den) ≤ 2 * num + den := by
  have parts : num / den * den + num % den = num := by
    rw [Nat.mul_comm]
    exact Nat.div_add_mod num den
  have next : (num / den + 1) * den = num / den * den + den := Nat.succ_mul _ _
  by_cases below : 2 * (num % den) < den
  · have down : roundDiv num den = num / den := by simp only [roundDiv, if_pos below]
    rw [down]
    omega
  · have up := Nat.mul_le_mul_right den (roundDiv_bounds num den).2
    omega

theorem roundDiv_lt {num den n : Nat} (h : 2 * num + den < den * (2 * n)) :
    roundDiv num den < n := by
  have rounded := roundDiv_mul_le num den
  have less : den * (2 * roundDiv num den) < den * (2 * n) := by
    have same : den * (2 * roundDiv num den) = 2 * (roundDiv num den * den) := by
      rw [Nat.mul_left_comm, Nat.mul_comm den]
    omega
  have := Nat.lt_of_mul_lt_mul_left less
  omega

/-- The power of two by which the quanta of a quotient grow. -/
def shift (num den : Nat) : Nat := Nat.log2 (num / den) - 52

/-- The quotient in units of its last place, rounded. -/
def rounded (num den : Nat) : Nat := roundDiv num (den * Nat.pow 2 (shift num den))

theorem nearest_eq (num den : Nat) :
    nearest num den = min (shift num den * leadingBit + rounded num den) infinity := rfl

theorem quotient_lt (num den : Nat) :
    num / (den * Nat.pow 2 (shift num den)) < 2 * leadingBit := by
  have top : 2 ^ (Nat.log2 (num / den) + 1) ≤ 2 ^ (53 + shift num den) := by
    apply Nat.pow_le_pow_right (by omega)
    unfold shift
    omega
  have below := Nat.lt_of_lt_of_le (Nat.lt_log2_self (n := num / den)) top
  rw [← Nat.div_div_eq_div_mul]
  apply Nat.div_lt_of_lt_mul
  rw [Nat.mul_comm]
  rwa [Nat.pow_add] at below

theorem rounded_le (num den : Nat) : rounded num den ≤ 2 * leadingBit :=
  Nat.le_trans (roundDiv_bounds _ _).2 (quotient_lt num den)

theorem le_quotient {num den : Nat} (normal : leadingBit ≤ num / den) :
    leadingBit ≤ num / (den * Nat.pow 2 (shift num den)) := by
  have positive : num / den ≠ 0 := by
    rintro zero
    rw [zero] at normal
    exact absurd normal (by decide)
  have large : 52 ≤ Nat.log2 (num / den) := (Nat.le_log2 positive).mpr normal
  have bottom := Nat.log2_self_le positive
  rw [← Nat.div_div_eq_div_mul]
  apply (Nat.le_div_iff_mul_le (Nat.pow_pos (by omega))).mpr
  have split : Nat.log2 (num / den) = 52 + shift num den := by
    unfold shift
    omega
  rw [split, Nat.pow_add] at bottom
  exact bottom

theorem quanta_normal {r : Nat} (k : Nat) (low : leadingBit ≤ r) (high : r ≤ 2 * leadingBit) :
    quanta (k * leadingBit + r) = r * Nat.pow 2 k := by
  unfold leadingBit at low high
  rcases Nat.lt_or_eq_of_le high with inside | rfl
  · have significand : significand (k * leadingBit + r) = r := by
      unfold significand leadingBit
      rw [if_neg (by omega)]
      omega
    have exponent : exponent (k * leadingBit + r) = k := by
      unfold exponent leadingBit
      omega
    rw [quanta, significand, exponent]
  · have significand : significand (k * leadingBit + 2 * 0x10000000000000) = leadingBit := by
      unfold significand leadingBit
      rw [if_neg (by omega)]
      omega
    have exponent : exponent (k * leadingBit + 2 * 0x10000000000000) = k + 1 := by
      unfold exponent leadingBit
      omega
    rw [quanta, significand, exponent, Nat.pow_eq, Nat.pow_succ, Nat.mul_comm _ 2,
      ← Nat.mul_assoc, Nat.mul_comm leadingBit]
    rfl

section

variable {num den : Nat} (normal : leadingBit ≤ num / den)

include normal

theorem le_rounded : leadingBit ≤ rounded num den :=
  Nat.le_trans (le_quotient normal) (roundDiv_bounds _ _).1

theorem quanta_nearest (finite : nearest num den < infinity) :
    quanta (nearest num den) = rounded num den * Nat.pow 2 (shift num den) := by
  have exact : nearest num den = shift num den * leadingBit + rounded num den := by
    rw [nearest_eq] at finite ⊢
    omega
  rw [exact, quanta_normal _ (le_rounded normal) (rounded_le num den)]

/-- Rounding does not take the leading bit away. -/
theorem le_quanta_nearest (finite : nearest num den < infinity) (h : Nat.pow 2 k ≤ num / den) :
    Nat.pow 2 k ≤ quanta (nearest num den) := by
  have positive : num / den ≠ 0 := by
    have := Nat.pow_pos (n := k) (show 0 < 2 by decide)
    exact Nat.ne_of_gt (Nat.lt_of_lt_of_le this h)
  have leading : k ≤ 52 + shift num den := by
    have := (Nat.le_log2 positive).mpr h
    unfold shift
    omega
  calc Nat.pow 2 k ≤ Nat.pow 2 (52 + shift num den) := Nat.pow_le_pow_right (by omega) leading
    _ = leadingBit * Nat.pow 2 (shift num den) := Nat.pow_add 2 52 (shift num den)
    _ ≤ rounded num den * Nat.pow 2 (shift num den) := Nat.mul_le_mul_right _ (le_rounded normal)
    _ = quanta (nearest num den) := (quanta_nearest normal finite).symm

/-- Rounding a number that is not subnormal makes it larger by at most one part in 2⁵³. -/
theorem quanta_nearest_le (finite : nearest num den < infinity) :
    quanta (nearest num den) * den * (2 * leadingBit) ≤ num * (2 * leadingBit + 1) := by
  have error : 2 * (rounded num den * (den * Nat.pow 2 (shift num den))) ≤
      2 * num + den * Nat.pow 2 (shift num den) := roundDiv_mul_le _ _
  have unit : leadingBit * (den * Nat.pow 2 (shift num den)) ≤ num :=
    Nat.mul_le_of_le_div _ _ _ (le_quotient normal)
  rw [quanta_nearest normal finite]
  generalize Nat.pow 2 (shift num den) = u at *
  generalize rounded num den = r at *
  calc r * u * den * (2 * leadingBit)
      = leadingBit * (2 * (r * (den * u))) := by grind
    _ ≤ leadingBit * (2 * num + den * u) := Nat.mul_le_mul_left _ error
    _ = num * (2 * leadingBit) + leadingBit * (den * u) := by grind
    _ ≤ num * (2 * leadingBit + 1) := by
      rw [Nat.mul_succ]
      exact Nat.add_le_add_left unit _

end

/-- Half-way between the greatest number whose quanta have grown `k` times and the next power of
two, in half quanta. -/
def halfway (k : Nat) : Nat := (2 * (2 * leadingBit) - 1) * Nat.pow 2 k

/-- From here on numbers are rounded to infinity. -/
def overflow : Nat := halfway 2045

theorem shift_le {num den : Nat} (h : 2 * num < den * overflow) : shift num den ≤ 2045 := by
  have bound : overflow ≤ 2 * 2 ^ 2098 := by decide +kernel
  have less : 2 * num < 2 * (den * 2 ^ 2098) := by
    rw [Nat.mul_left_comm]
    exact Nat.lt_of_lt_of_le h (Nat.mul_le_mul_left den bound)
  have below : num / den < 2 ^ 2098 := Nat.div_lt_of_lt_mul (Nat.lt_of_mul_lt_mul_left less)
  unfold shift
  by_cases zero : num / den = 0
  · rw [zero]
    decide
  · have := (Nat.log2_lt zero).mpr below
    omega

/-- Below the half-way mark of its binade a quotient is not carried into the next one. -/
theorem rounded_lt {num den : Nat} (h : 2 * num < den * halfway (shift num den)) :
    rounded num den < 2 * leadingBit := by
  unfold halfway at h
  rw [rounded]
  apply roundDiv_lt
  generalize Nat.pow 2 (shift num den) = unit at *
  have one : 2 * (2 * leadingBit) = 2 * (2 * leadingBit) - 1 + 1 := rfl
  generalize 2 * (2 * leadingBit) - 1 = n at *
  have all : den * (n * unit) + den * unit = den * unit * (2 * (2 * leadingBit)) := by
    rw [one]
    grind
  omega

theorem nearest_lt_infinity {num den : Nat} (h : 2 * num < den * overflow) :
    nearest num den < infinity := by
  have top := rounded_le num den
  have less : shift num den * leadingBit + rounded num den < infinity := by
    rcases Nat.lt_or_eq_of_le (shift_le h) with small | last
    · unfold leadingBit infinity at *
      omega
    · have mark : overflow = halfway (shift num den) := by rw [last, overflow]
      rw [mark] at h
      have inside := rounded_lt h
      unfold leadingBit infinity at *
      omega
  rw [nearest_eq]
  omega

/-- A product that stays below this many quarter quanta has room for three roundings. -/
def reach : Nat := (4 * (2 * leadingBit - 4) + 2) * Nat.pow 2 2045

/-- The errors of two factors, each in parts of `w`, and how much they leave of a bound. -/
theorem product_lt {p q a b u c w t most bound : Nat} (hp : p * w ≤ a * u * c)
    (hq : q * w ≤ b * u * c) (h : a * b * t ≤ most)
    (closed : 2 * most * (u * c) * (u * c) < u * bound * (w * w * t)) :
    2 * (p * q) < u * bound := by
  apply Nat.lt_of_mul_lt_mul_right (a := w * w * t)
  calc 2 * (p * q) * (w * w * t)
      = 2 * t * ((p * w) * (q * w)) := by grind
    _ ≤ 2 * t * ((a * u * c) * (b * u * c)) := Nat.mul_le_mul_left _ (Nat.mul_le_mul hp hq)
    _ = 2 * (a * b * t) * (u * c) * (u * c) := by grind
    _ ≤ 2 * most * (u * c) * (u * c) :=
      Nat.mul_le_mul_right _ (Nat.mul_le_mul_right _ (Nat.mul_le_mul_left 2 h))
    _ < u * bound * (w * w * t) := closed

theorem ofNat_lt_infinity {n : Nat} (h : 2 * (n * Nat.pow 2 1074) < overflow) :
    ofNat n < infinity := by
  apply nearest_lt_infinity
  rwa [Nat.one_mul]

theorem normal_ofNat {n : Nat} (positive : 0 < n) : leadingBit ≤ n * Nat.pow 2 1074 / 1 := by
  rw [Nat.div_one]
  have unit : leadingBit ≤ Nat.pow 2 1074 := by decide +kernel
  exact Nat.le_trans unit (Nat.le_mul_of_pos_left _ positive)

theorem quanta_ofNat_le {n : Nat} (positive : 0 < n) (finite : ofNat n < infinity) :
    quanta (ofNat n) * (2 * leadingBit) ≤ n * Nat.pow 2 1074 * (2 * leadingBit + 1) := by
  have error := quanta_nearest_le (normal_ofNat positive) finite
  rwa [Nat.mul_one] at error

/-- A whole number other than zero is at least one also when it is rounded. -/
theorem le_quanta_ofNat {n : Nat} (positive : 0 < n) (finite : ofNat n < infinity) :
    Nat.pow 2 1074 ≤ quanta (ofNat n) := by
  apply le_quanta_nearest (normal_ofNat positive) finite
  rw [Nat.div_one]
  exact Nat.le_mul_of_pos_left _ positive

/-- Rounding both factors and the product cannot make up for the distance to infinity. -/
theorem mul_ofNat_lt_infinity {m n : Nat} (hm : 0 < m) (hn : 0 < n) (left : ofNat m < infinity)
    (right : ofNat n < infinity) (h : m * n * Nat.pow 2 1076 ≤ reach) :
    mul (ofNat m) (ofNat n) < infinity := by
  have closed : 2 * reach * (Nat.pow 2 1074 * (2 * leadingBit + 1)) *
      (Nat.pow 2 1074 * (2 * leadingBit + 1)) <
      Nat.pow 2 1074 * overflow * (2 * leadingBit * (2 * leadingBit) * Nat.pow 2 1076) := by
    decide +kernel
  have first := quanta_ofNat_le hm left
  have second := quanta_ofNat_le hn right
  unfold mul
  generalize Nat.pow 2 1074 = u at *
  generalize Nat.pow 2 1076 = t at *
  exact nearest_lt_infinity (product_lt first second h closed)

theorem mul_zero_left (b : Nat) : mul 0 b = 0 := by
  have zero : quanta 0 * quanta b = 0 := Nat.zero_mul _
  rw [mul, zero]
  decide +kernel

end TagCodec.Binary64
