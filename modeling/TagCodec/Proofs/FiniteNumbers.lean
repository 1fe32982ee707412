import TagCodec.Proofs.RecordText
import TagCodec.Proofs.Rounding

namespace TagCodec

open Binary64 (reach)

theorem ofDigitChars_lt {ds : List Char} (h : ∀ d ∈ ds, d.isDigit = true) :
    Nat.ofDigitChars 10 ds 0 < Nat.pow 10 ds.length := by
  induction ds with
  | nil => decide
  | cons d ds ih =>
    have rest := ih fun e he => h e (List.mem_cons_of_mem _ he)
    have digit : d.toNat - '0'.toNat ≤ 9 := by
      have top : d.toNat ≤ 57 := (Char.isDigit_iff_toNat.mp (h d List.mem_cons_self)).2
      have zero : '0'.toNat = 48 := rfl
      omega
    have most := Nat.mul_le_mul_left (Nat.pow 10 ds.length) digit
    have power : Nat.pow 10 (ds.length + 1) = Nat.pow 10 ds.length * 10 := rfl
    rw [Nat.ofDigitChars_cons, Nat.ofDigitChars_eq_ofDigitChars_zero, List.length_cons, power,
      Nat.mul_zero, Nat.zero_add]
    change Nat.pow 10 ds.length * _ + _ < _
    omega

theorem le_ofDigitChars (ds : List Char) (n : Nat) : n ≤ Nat.ofDigitChars 10 ds n := by
  rw [Nat.ofDigitChars_eq_ofDigitChars_zero]
  have := Nat.le_mul_of_pos_left n (Nat.pow_pos (n := ds.length) (show 0 < 10 by decide))
  omega

/-- The leading digits are not above the number in which they stand. -/
theorem ofDigitChars_mul_le (taken more : List Char) :
    Nat.ofDigitChars 10 taken 0 * Nat.pow 10 more.length ≤
      Nat.ofDigitChars 10 (taken ++ more) 0 := by
  rw [Nat.ofDigitChars_append, Nat.ofDigitChars_eq_ofDigitChars_zero (l := more), Nat.mul_comm]
  exact Nat.le_add_right _ _

namespace Json.Literal

/-- What is taken and what is left over make up the digits, and the number stays in its limit. -/
theorem absorb_eq {limit n : Nat} (inside : n < limit) {ds left : List Char} {m : Nat}
    (h : absorb limit n ds = (m, left)) :
    ∃ taken, ds = taken ++ left ∧ m = Nat.ofDigitChars 10 taken n ∧ m < limit := by
  induction ds generalizing n with
  | nil =>
    cases h
    exact ⟨[], rfl, rfl, inside⟩
  | cons d ds ih =>
    rw [absorb] at h
    by_cases room : n * 10 + (d.toNat - 48) < limit
    · rw [if_pos room] at h
      obtain ⟨taken, parts, value, below⟩ := ih room h
      refine ⟨d :: taken, ?_, ?_, below⟩
      · rw [parts, List.cons_append]
      · rw [value, Nat.ofDigitChars_cons, Nat.mul_comm]
        rfl
    · rw [if_neg room] at h
      cases h
      exact ⟨[], rfl, rfl, inside⟩

theorem absorb_all {limit n : Nat} {ds : List Char} (h : Nat.ofDigitChars 10 ds n < limit) :
    absorb limit n ds = (Nat.ofDigitChars 10 ds n, []) := by
  induction ds generalizing n with
  | nil => rfl
  | cons d ds ih =>
    have next : Nat.ofDigitChars 10 (d :: ds) n =
        Nat.ofDigitChars 10 ds (n * 10 + (d.toNat - 48)) := by
      rw [Nat.ofDigitChars_cons, Nat.mul_comm]
      rfl
    rw [next] at h ⊢
    rw [absorb]
    simp only [if_pos (Nat.lt_of_le_of_lt (le_ofDigitChars ds _) h), ih h]

theorem scale_zero (power : Int) : ∃ mag, scale 0 power = .ok mag := by
  have zero : Binary64.ofNat 0 = 0 := by decide +kernel
  unfold scale
  simp only [zero, Binary64.mul_zero_left]
  split
  · exact ⟨_, rfl⟩
  · split
    · exact ⟨0, rfl⟩
    · exact ⟨0, rfl⟩

theorem significand_lt_infinity {s : Nat} (h : s < significandLimit) :
    Binary64.ofNat s < Binary64.infinity := by
  apply Binary64.ofNat_lt_infinity
  have limit : 2 * (significandLimit * Nat.pow 2 1074) < Binary64.overflow := by decide +kernel
  refine Nat.lt_of_le_of_lt (Nat.mul_le_mul_left 2 ?_) limit
  exact Nat.mul_le_mul_right _ (Nat.le_of_lt h)

theorem power_lt_infinity {n : Nat} (h : n ≤ 308) :
    Binary64.ofNat (Nat.pow 10 n) < Binary64.infinity := by
  apply Binary64.ofNat_lt_infinity
  obtain ⟨k, hk, limit⟩ :
      ∃ k, n ≤ k ∧ 2 * (Nat.pow 10 k * Nat.pow 2 1074) < Binary64.overflow :=
    ⟨308, h, by decide +kernel⟩
  have less : Nat.pow 10 n ≤ Nat.pow 10 k := Nat.pow_le_pow_right (by omega) hk
  refine Nat.lt_of_le_of_lt (Nat.mul_le_mul_left 2 ?_) limit
  exact Nat.mul_le_mul_right _ less

theorem power_le_of_le_reach {n : Nat} (h : Nat.pow 10 n * Nat.pow 2 1076 ≤ reach) : n ≤ 308 := by
  by_cases small : n ≤ 308
  · exact small
  · obtain ⟨k, hk, limit⟩ : ∃ k, k ≤ n ∧ reach < Nat.pow 10 k * Nat.pow 2 1076 :=
      ⟨309, Nat.lt_of_not_le small, by decide +kernel⟩
    have more : Nat.pow 10 k ≤ Nat.pow 10 n := Nat.pow_le_pow_right (by omega) hk
    have above := Nat.lt_of_lt_of_le limit (Nat.mul_le_mul_right _ more)
    exact absurd h (Nat.not_le_of_lt above)

theorem scale_of_le_reach {s n : Nat} (small : s < significandLimit)
    (h : s * Nat.pow 10 n * Nat.pow 2 1076 ≤ reach) : ∃ mag, scale s n = .ok mag := by
  rcases Nat.eq_zero_or_pos s with rfl | positive
  · exact scale_zero n
  · have power : n ≤ 308 := by
      apply power_le_of_le_reach
      refine Nat.le_trans (Nat.mul_le_mul_right _ ?_) h
      exact Nat.le_mul_of_pos_left _ positive
    have factor : 0 < Nat.pow 10 n := Nat.pow_pos (by omega)
    have product := Binary64.mul_ofNat_lt_infinity positive factor
      (significand_lt_infinity small) (power_lt_infinity power) h
    unfold scale
    simp only [Int.natAbs_natCast, if_pos power]
    rw [if_neg (by omega), if_pos product]
    exact ⟨_, rfl⟩

theorem scale_of_nonpos {s : Nat} (small : s < significandLimit) {power : Int} (h : power ≤ 0) :
    ∃ mag, scale s power = .ok mag := by
  by_cases negative : power < 0
  · unfold scale
    simp only [if_pos negative]
    exact ⟨_, rfl⟩
  · obtain rfl : power = (0 : Nat) := by omega
    apply scale_of_le_reach small
    have limit : significandLimit * Nat.pow 10 0 * Nat.pow 2 1076 ≤ reach := by decide +kernel
    refine Nat.le_trans (Nat.mul_le_mul_right _ ?_) limit
    exact Nat.mul_le_mul_right _ (Nat.le_of_lt small)

/-- The literal stands for a number. -/
def Valued (l : Literal) : Prop := ∃ x, l.realValue = .ok x

theorem value_of_valued {l : Literal} (h : l.Valued) : ∃ n, l.value = .ok n := by
  obtain ⟨x, hx⟩ := h
  unfold value
  rw [hx]
  split
  · split
    · exact ⟨_, rfl⟩
    · split
      · exact ⟨_, rfl⟩
      · exact ⟨_, rfl⟩
  · exact ⟨_, rfl⟩

section

variable {l : Literal} {w s : Nat} {dropped : List Char}
  (hw : absorb significandLimit 0 l.whole = (w, []))
  (hs : absorb significandLimit w (l.fraction.getD []) = (s, dropped))

include hw hs

/-- The digits of the fraction that are taken lower the power of ten. -/
theorem valued_of_scale {k e : Nat} (hk : (l.fraction.getD []).length = k + dropped.length)
    (he : absorb exponentLimit 0 l.exponentDigits.2 = (e, []))
    (scaled : ∃ mag, scale s (if l.exponentDigits.1 then -(k : Int) - e else -(k : Int) + e) =
      .ok mag) : l.Valued := by
  obtain ⟨mag, scaled⟩ := scaled
  have power : (([] : List Char).length : Int) -
      ((l.fraction.getD []).length - dropped.length : Nat) = -(k : Int) := by
    rw [hk, List.length_nil, Nat.add_sub_cancel]
    omega
  refine ⟨Binary64.ofMagnitude l.negative mag, ?_⟩
  unfold realValue
  simp only [hw, hs, he, power, scaled]
  rfl

/-- A negative exponent is never too large. -/
theorem valued_of_below (small : s < significandLimit)
    (h : l.exponentDigits.1 = true ∨ l.exponentDigits.2 = []) : l.Valued := by
  have inside : w < significandLimit := by
    obtain ⟨_, _, _, below⟩ := absorb_eq (by decide) hw
    exact below
  obtain ⟨taken, parts, _⟩ := absorb_eq inside hs
  have length : (l.fraction.getD []).length = taken.length + dropped.length := by
    rw [parts, List.length_append]
  cases he : absorb exponentLimit 0 l.exponentDigits.2 with
  | mk e left =>
    cases left with
    | nil =>
      refine valued_of_scale hw hs length he (scale_of_nonpos small ?_)
      rcases h with below | none
      · rw [if_pos below]
        omega
      · rw [none] at he
        cases he
        split <;> omega
    | cons d ds =>
      rcases h with below | none
      · refine ⟨Binary64.ofMagnitude l.negative 0, ?_⟩
        unfold realValue
        simp only [hw, hs, he, below]
        exact (if_pos rfl).trans (if_neg fun both => Bool.false_ne_true both.2)
      · rw [none] at he
        cases he

end

end Json.Literal

namespace RealFormat

open Json Json.Literal
open Binary64 (Near)

/-- Shifting digits by a power of ten keeps them below what the decimal is below. -/
theorem shifted_le {s whole n k m j t high : Nat} (digits : s * Nat.pow 10 k ≤ whole)
    (near : whole * (Nat.pow 10 m * t) ≤ high * Nat.pow 10 j) (same : n + j = k + m) :
    s * Nat.pow 10 n * t ≤ high := by
  have unit : 0 < Nat.pow 10 j := Nat.pow_pos (by omega)
  have powers : Nat.pow 10 n * Nat.pow 10 j = Nat.pow 10 k * Nat.pow 10 m := by
    have split := congrArg (Nat.pow 10) same
    simp only [Nat.pow_eq, Nat.pow_add] at split ⊢
    exact split
  apply Nat.le_of_mul_le_mul_right (c := Nat.pow 10 j) ?_ unit
  calc s * Nat.pow 10 n * t * Nat.pow 10 j
      = s * (Nat.pow 10 n * Nat.pow 10 j) * t := by grind
    _ = s * Nat.pow 10 k * (Nat.pow 10 m * t) := by grind
    _ ≤ whole * (Nat.pow 10 m * t) := Nat.mul_le_mul_right _ digits
    _ ≤ high * Nat.pow 10 j := near

theorem dropTrailingZeros_append (ds : List Char) :
    ∃ z, dropTrailingZeros ds ++ List.replicate z '0' = ds := by
  refine ⟨(ds.reverse.takeWhile (· == '0')).length, ?_⟩
  have zeros : ds.reverse.takeWhile (· == '0') =
      List.replicate (ds.reverse.takeWhile (· == '0')).length '0' := by
    apply List.eq_replicate_of_mem
    intro d hd
    exact eq_of_beq (List.all_eq_true.mp List.all_takeWhile d hd)
  rw [dropTrailingZeros, ← List.reverse_replicate, ← zeros, ← List.reverse_append,
    List.takeWhile_append_dropWhile, List.reverse_reverse]

theorem power_le_of_length {n : Nat} (h : 0 < n) :
    Nat.pow 10 ((Nat.toDigits 10 n).length - 1) ≤ n := by
  by_cases single : (Nat.toDigits 10 n).length - 1 = 0
  · rw [single]
    exact h
  · apply Nat.le_of_not_lt
    intro below
    have := (Nat.length_toDigits_le_iff (by decide) (Nat.pos_of_ne_zero single)).mpr below
    omega

theorem leading_le {d : Decimal} {mag : Nat} (near : Near d mag)
    (bound : (Binary64.interval mag).high ≤ reach) (h : 0 ≤ leading d) : leading d ≤ 308 := by
  have digits := power_le_of_length near.positive
  have length : 0 < (Nat.toDigits 10 d.digits).length := Nat.length_toDigits_pos
  have places : (leading d).toNat + (-d.power).toNat =
      (Nat.toDigits 10 d.digits).length - 1 + d.power.toNat := by
    unfold leading at h ⊢
    omega
  have first : 1 * Nat.pow 10 ((Nat.toDigits 10 d.digits).length - 1) ≤ d.digits := by
    rwa [Nat.one_mul]
  have top := Nat.le_trans (shifted_le first near.bounded places) bound
  rw [Nat.one_mul] at top
  have := power_le_of_le_reach top
  omega

/-- A short whole part without a power of ten above it stands for a number. -/
theorem valued_of_short {l : Literal} (digits : ∀ d ∈ l.whole, d.isDigit = true)
    (short : l.whole.length ≤ 16) (h : l.exponentDigits.1 = true ∨ l.exponentDigits.2 = []) :
    l.Valued := by
  have fits : Nat.ofDigitChars 10 l.whole 0 < significandLimit := by
    have below := ofDigitChars_lt digits
    have most : Nat.pow 10 l.whole.length ≤ Nat.pow 10 16 :=
      Nat.pow_le_pow_right (by omega) short
    have limit : Nat.pow 10 16 < significandLimit := by decide
    omega
  cases hs : absorb significandLimit (Nat.ofDigitChars 10 l.whole 0) (l.fraction.getD []) with
  | mk s dropped =>
    obtain ⟨_, _, _, small⟩ := absorb_eq fits hs
    exact valued_of_below (absorb_all fits) hs small h

theorem valued_plain {ds : List Char} (digits : ∀ d ∈ ds, d.isDigit = true) {places : Int}
    (short : places ≤ 16) (sign : Bool) :
    Valued { plainLiteral ds places with negative := sign } := by
  unfold plainLiteral
  split
  · refine valued_of_short (fun d hd => ?_) ?_ (.inr rfl)
    · rcases List.mem_append.mp hd with hd | hd
      · exact digits d (List.mem_of_mem_take hd)
      · exact digits_replicate _ d hd
    · simp only [List.length_append, List.length_take, List.length_replicate]
      omega
  · exact valued_of_short (digits_replicate 1) (show 1 ≤ 16 by decide) (.inr rfl)

theorem valued_below {ds : List Char} (digits : ∀ d ∈ ds, d.isDigit = true) {e : Int}
    (below : e < 0) (sign : Bool) : Valued { scientificLiteral ds e with negative := sign } := by
  refine valued_of_short (fun d hd => digits d (List.mem_of_mem_take hd)) ?_ (.inl ?_)
  · have := List.length_take_le 1 ds
    exact Nat.le_trans this (by decide)
  · exact decide_eq_true below

section

variable {d : Decimal} {mag : Nat} (near : Near d mag)
  (bound : (Binary64.interval mag).high ≤ reach)

include near bound

theorem scale_leading {c : Char} {taken more : List Char} {s : Nat}
    (whole : c :: taken ++ more = Nat.toDigits 10 d.digits)
    (value : s = Nat.ofDigitChars 10 (c :: taken) 0) (small : s < significandLimit) :
    ∃ mag, scale s (-(taken.length : Int) + leading d) = .ok mag := by
  by_cases nonpos : -(taken.length : Int) + leading d ≤ 0
  · exact scale_of_nonpos small nonpos
  · obtain ⟨n, hn⟩ := Int.eq_ofNat_of_zero_le (Int.le_of_lt (Int.lt_of_not_ge nonpos))
    have kept := ofDigitChars_mul_le (c :: taken) more
    rw [whole, Nat.ofDigitChars_ten_toDigits, ← value] at kept
    have length := congrArg List.length whole
    simp only [List.length_append, List.length_cons] at length
    -- what is not taken of the digits stays in the power of ten
    have places : n + (-d.power).toNat = more.length + d.power.toNat := by
      unfold leading at hn
      omega
    rw [hn]
    exact scale_of_le_reach small (Nat.le_trans (shifted_le kept near.bounded places) bound)

theorem absorb_leading (above : 0 ≤ leading d) :
    absorb exponentLimit 0 (Nat.toDigits 10 (leading d).natAbs) = ((leading d).natAbs, []) := by
  have top := leading_le near bound above
  have fits : (leading d).natAbs < exponentLimit := by
    unfold exponentLimit
    omega
  have all := Nat.ofDigitChars_ten_toDigits (n := (leading d).natAbs)
  rw [← all] at fits
  rw [absorb_all fits, all]

theorem valued_above (above : 0 ≤ leading d) (sign : Bool) :
    Valued { scientificLiteral (dropTrailingZeros (Nat.toDigits 10 d.digits)) (leading d) with
      negative := sign } := by
  obtain ⟨z, parts⟩ := dropTrailingZeros_append (Nat.toDigits 10 d.digits)
  obtain ⟨⟨nonempty, digits⟩, _⟩ :=
    significant_dropTrailingZeros ⟨digits_toDigits _, head_toDigits near.positive⟩
  obtain ⟨c, rest, hds⟩ := List.exists_cons_of_ne_nil nonempty
  rw [hds] at parts digits ⊢
  have first : Nat.ofDigitChars 10 [c] 0 < significandLimit := by
    have single : ∀ e ∈ [c], e.isDigit = true := by
      intro e he
      exact digits e (List.mem_cons.mpr (.inl (List.mem_singleton.mp he)))
    have limit : Nat.pow 10 1 < significandLimit := by decide
    exact Nat.lt_trans (ofDigitChars_lt single) limit
  have behind : (scientificLiteral (c :: rest) (leading d)).fraction.getD [] = rest := by
    cases rest <;> rfl
  have negative : (leading d < 0) = False := eq_false (Int.not_lt.mpr above)
  cases hs : absorb significandLimit (Nat.ofDigitChars 10 [c] 0) rest with
  | mk s dropped =>
    obtain ⟨taken, rfl, value, small⟩ := absorb_eq first hs
    have whole : c :: taken ++ (dropped ++ List.replicate z '0') =
        Nat.toDigits 10 d.digits := by
      rw [← parts]
      simp
    have scaled := scale_leading near bound whole value small
    have powers : (leading d).natAbs = leading d := Int.natAbs_of_nonneg above
    apply valued_of_scale (k := taken.length) (e := (leading d).natAbs) (absorb_all first)
    · exact (congrArg _ behind).trans hs
    · exact (congrArg List.length behind).trans List.length_append
    · exact absorb_leading near bound above
    · simpa [scientificLiteral, exponentDigits, negative, powers] using scaled

end

theorem high_le_of_power {mag n : Nat} (hs : 4 * Binary64.significand mag + 2 ≤ n)
    (hk : ∃ k, Binary64.exponent mag ≤ k ∧ n * Nat.pow 2 k ≤ reach) :
    (Binary64.interval mag).high ≤ reach := by
  obtain ⟨k, hk, bound⟩ := hk
  have unit : Nat.pow 2 (Binary64.exponent mag) ≤ Nat.pow 2 k :=
    Nat.pow_le_pow_right (by omega) hk
  exact Nat.le_trans (Nat.mul_le_mul hs unit) bound

/-- All magnitudes but the three largest finite ones are within reach. -/
theorem high_le_reach {mag : Nat} (h : mag ≤ 0x7FEFFFFFFFFFFFFC) :
    (Binary64.interval mag).high ≤ reach := by
  by_cases small : Binary64.exponent mag ≤ 2044
  · apply high_le_of_power (n := 4 * (2 * Binary64.leadingBit) + 2)
    · unfold Binary64.significand Binary64.leadingBit
      split <;> omega
    · exact ⟨2044, small, by decide +kernel⟩
  · unfold Binary64.exponent Binary64.leadingBit at small
    apply high_le_of_power (n := 4 * (2 * Binary64.leadingBit - 4) + 2)
    · unfold Binary64.significand Binary64.leadingBit
      split <;> omega
    · refine ⟨2045, ?_, by decide +kernel⟩
      unfold Binary64.exponent Binary64.leadingBit
      omega

theorem valued_literal {x : Binary64} (h : x.magnitude ≤ 0x7FEFFFFFFFFFFFFC) :
    (literal x).Valued := by
  unfold literal
  rcases unsigned_cases x.magnitude with zero | ⟨d, near, eq⟩
  · rw [zero]
    exact valued_of_short (digits_replicate 1) (show 1 ≤ 16 by decide) (.inr rfl)
  · have bound := high_le_reach h
    obtain ⟨⟨_, digits⟩, _⟩ :=
      significant_dropTrailingZeros ⟨digits_toDigits _, head_toDigits near.positive⟩
    rw [eq]
    unfold decimalLiteral
    simp only
    split
    · rename_i inside
      have : leading d < 16 := inside.2
      exact valued_plain digits (by omega) x.isNegative
    · by_cases below : leading d < 0
      · exact valued_below digits below x.isNegative
      · exact valued_above near bound (by omega) x.isNegative

end RealFormat

namespace Binary64

theorem reread_of_valued {x : Binary64} (finite : x.isFinite = true)
    (h : (RealFormat.literal x).Valued) : x.reread?.isSome = true := by
  obtain ⟨n, hn⟩ := Json.Literal.value_of_valued h
  rw [reread?, Json.rereadJson_finite finite, hn]
  rfl

theorem eq_of_magnitude {x : Binary64} {mag : Nat} (h : x.magnitude = mag) :
    x = ⟨UInt64.ofNat mag⟩ ∨ x = ⟨UInt64.ofNat (mag + signBit)⟩ := by
  obtain ⟨bits⟩ := x
  have range := bits.toNat_lt
  have rest : bits.toNat % signBit = mag := h
  unfold signBit at rest ⊢
  have cases : bits.toNat = mag ∨ bits.toNat = mag + 0x8000000000000000 := by omega
  rcases cases with same | same
  · left
    rw [← same, UInt64.ofNat_toNat]
  · right
    rw [← same, UInt64.ofNat_toNat]

/-- The three largest finite magnitudes are too near to the bound for an estimate. -/
theorem reread_top {x : Binary64} (finite : x.magnitude < infinity)
    (top : 0x7FEFFFFFFFFFFFFC < x.magnitude) : x.reread?.isSome = true := by
  have cases : x.magnitude = 0x7FEFFFFFFFFFFFFD ∨ x.magnitude = 0x7FEFFFFFFFFFFFFE ∨
      x.magnitude = 0x7FEFFFFFFFFFFFFF := by
    unfold infinity at finite
    omega
  rcases cases with mag | mag | mag
  all_goals
    rcases eq_of_magnitude mag with rfl | rfl <;> decide +kernel

/-- The text of a finite number is always read as some number. -/
theorem reread_isSome {x : Binary64} (finite : x.isFinite = true) : x.reread?.isSome = true := by
  by_cases top : x.magnitude ≤ 0x7FEFFFFFFFFFFFFC
  · exact reread_of_valued finite (RealFormat.valued_literal top)
  · exact reread_top (of_decide_eq_true finite) (Nat.lt_of_not_le top)

end Binary64

namespace Record

theorem mapM_isSome {xs : List Binary64} (finite : ∀ x ∈ xs, x.isFinite = true) :
    ∃ ys, xs.mapM Binary64.reread? = some ys ∧ ys.length = xs.length := by
  induction xs with
  | nil => exact ⟨[], rfl, rfl⟩
  | cons x xs ih =>
    obtain ⟨y, hy⟩ := Option.isSome_iff_exists.mp
      (Binary64.reread_isSome (finite x List.mem_cons_self))
    obtain ⟨ys, hys, length⟩ := ih fun z hz => finite z (List.mem_cons_of_mem _ hz)
    refine ⟨y :: ys, ?_, congrArg Nat.succ length⟩
    rw [List.mapM_cons, hy, hys]
    rfl

/-- As many numbers as a record has fields make up a record. -/
theorem reread_isSome {r : Record} (finite : ∀ x ∈ r.values, x.isFinite = true) :
    r.reread?.isSome = true := by
  obtain ⟨ys, hys, length⟩ := mapM_isSome finite
  rw [reread?, hys]
  cases r with
  | triangle base height =>
    obtain ⟨y, ys, rfl⟩ := List.exists_cons_of_length_eq_add_one length
    obtain ⟨z, rfl⟩ := List.length_eq_one_iff.mp (Nat.succ.inj length)
    rfl
  | _ =>
    obtain ⟨y, rfl⟩ := List.length_eq_one_iff.mp length
    rfl

end Record

end TagCodec
