import TagCodec.Proofs.Objects
import TagCodec.Proofs.Transfer

namespace TagCodec

open Steps

namespace Binary64

theorem magnitude_ofMagnitude {mag : Nat} (h : mag < infinity) (negative : Bool) :
    (ofMagnitude negative mag).magnitude = mag := by
  have size : UInt64.size = 0x10000000000000000 := rfl
  unfold infinity at h
  unfold magnitude ofMagnitude signBit
  cases negative with
  | true =>
    rw [if_pos rfl, UInt64.toNat_ofNat_of_lt' (by omega)]
    omega
  | false =>
    rw [if_neg Bool.false_ne_true, UInt64.toNat_ofNat_of_lt' (by omega)]
    omega

theorem isFinite_ofMagnitude {mag : Nat} (h : mag < infinity) (negative : Bool) :
    (ofMagnitude negative mag).isFinite = true := by
  rw [isFinite, magnitude_ofMagnitude h]
  exact decide_eq_true h

/-- The quanta of a finite number are less than half of what overflows. -/
theorem two_quanta_lt {mag : Nat} (h : mag < infinity) : 2 * quanta mag < overflow := by
  have significant : significand mag ≤ 2 * leadingBit - 1 := by
    unfold significand leadingBit
    split <;> omega
  obtain ⟨k, hk, top⟩ :
      ∃ k, exponent mag ≤ k ∧ 2 * ((2 * leadingBit - 1) * Nat.pow 2 k) < overflow := by
    refine ⟨2045, ?_, by decide +kernel⟩
    unfold infinity at h
    unfold exponent leadingBit
    omega
  have power : Nat.pow 2 (exponent mag) ≤ Nat.pow 2 k := Nat.pow_le_pow_right (by omega) hk
  exact Nat.lt_of_le_of_lt (Nat.mul_le_mul_left 2 (Nat.mul_le_mul significant power)) top

theorem unit_pos : 0 < Nat.pow 2 1074 := by
  decide +kernel

theorem div_ofNat_lt_infinity {a n : Nat} (finite : a < infinity) (positive : 0 < n)
    (divisor : ofNat n < infinity) : div a (ofNat n) < infinity := by
  have small := two_quanta_lt finite
  have large := le_quanta_ofNat positive divisor
  have nonzero := Nat.lt_of_lt_of_le unit_pos large
  unfold div
  generalize quanta (ofNat n) = den at *
  generalize Nat.pow 2 1074 = one at *
  apply nearest_lt_infinity
  rw [← Nat.mul_assoc, Nat.mul_comm den]
  exact Nat.mul_lt_mul_of_lt_of_le small large nonzero

end Binary64

namespace Json

def Number.Finite (n : Number) : Prop := n.toBinary64.isFinite = true

namespace Literal

open Binary64 (infinity)

theorem div_power_lt_infinity {f n : Nat} (finite : f < infinity) (h : n ≤ 308) :
    Binary64.div f (Binary64.ofNat (Nat.pow 10 n)) < infinity :=
  Binary64.div_ofNat_lt_infinity finite (Nat.pow_pos (by omega)) (power_lt_infinity h)

theorem reduce_lt_infinity {f : Nat} (finite : f < infinity) (steps : Nat) :
    reduce f steps < infinity := by
  induction steps generalizing f with
  | zero => exact finite
  | succ steps ih =>
    unfold reduce
    split
    · decide
    · apply ih
      generalize top : 308 = n
      exact div_power_lt_infinity finite (Nat.le_of_eq top.symm)

/-- A number that would be infinite is refused. -/
theorem scale_lt_infinity {s mag : Nat} (small : s < significandLimit) {power : Int}
    (h : scale s power = .ok mag) : mag < infinity := by
  have finite := significand_lt_infinity small
  unfold scale at h
  by_cases negative : power < 0
  · simp only [if_pos negative, Except.ok.injEq] at h
    rw [← h]
    exact div_power_lt_infinity (reduce_lt_infinity finite _) (by omega)
  · simp only [if_neg negative] at h
    split at h
    · split at h
      · rename_i below
        rw [← Except.ok.inj h]
        exact below
      · cases h
    · split at h
      · rw [← Except.ok.inj h]
        decide
      · cases h

theorem realValue_finite {l : Literal} {x : Binary64} (h : l.realValue = .ok x) :
    x.isFinite = true := by
  have zero : (Binary64.ofMagnitude l.negative 0).isFinite = true :=
    Binary64.isFinite_ofMagnitude (by decide) _
  unfold realValue at h
  cases hw : absorb significandLimit 0 l.whole with
  | mk whole left =>
    obtain ⟨_, _, _, inside⟩ := absorb_eq (by decide) hw
    cases hs : absorb significandLimit whole (l.fraction.getD []) with
    | mk s dropped =>
      obtain ⟨_, _, _, small⟩ := absorb_eq inside hs
      simp only [hw, hs] at h
      split at h
      · split at h
        · cases h
        · cases h
          exact zero
      · obtain ⟨mag, scaled, same⟩ := bind_except_eq_ok.mp h
        cases same
        exact Binary64.isFinite_ofMagnitude (scale_lt_infinity small scaled) _

/-- A whole number of 64 bits is far from being infinite. -/
theorem int_finite {x : Int} (h : x.natAbs < significandLimit) : (Number.int x).Finite :=
  Binary64.isFinite_ofMagnitude (significand_lt_infinity h) _

theorem value_finite {l : Literal} {n : Number} (h : l.value = .ok n) : n.Finite := by
  have real {y : Except JsonError Binary64} (hy : y = l.realValue) (h : y.map .real = .ok n) :
      n.Finite := by
    cases y with
    | error e => cases h
    | ok x =>
      cases h
      exact realValue_finite hy.symm
  unfold value at h
  split at h
  · rename_i n whole
    obtain ⟨_, _, _, inside⟩ := absorb_eq (by decide) whole
    split at h
    · cases h
      exact int_finite (by omega)
    · split at h
      · cases h
        exact int_finite (by omega)
      · exact real rfl h
  · exact real rfl h

end Literal

theorem readNumber_finite (h : readNumber cs = .ok (n, rest)) : n.Finite := by
  obtain ⟨⟨l, _⟩, _, h⟩ := bind_except_eq_ok.mp h
  obtain ⟨_, value, same⟩ := bind_except_eq_ok.mp h
  cases same
  exact Literal.value_finite value

/-- The value is no number, or a finite one. -/
def Direct : Json → Prop
  | number n => n.Finite
  | _ => True

/-- No number is infinite, neither the value itself nor what is directly inside it. -/
def Shallow : Json → Prop
  | array items => ∀ v ∈ items, v.Direct
  | object members => ∀ m ∈ members, m.2.Direct
  | v => v.Direct

theorem scalar_direct (h : scalar cs = .ok (v, rest)) : v.Direct ∧ v.Shallow := by
  unfold scalar at h
  split at h
  iterate 4
    obtain ⟨_, _, same⟩ := bind_except_eq_ok.mp h
    cases same
    exact ⟨trivial, trivial⟩
  obtain ⟨_, number, same⟩ := bind_except_eq_ok.mp h
  cases same
  have finite := readNumber_finite number
  exact ⟨finite, finite⟩

theorem valueWith_direct (h : valueWith fuel room cs = .ok (v, rest)) : v.Direct := by
  cases fuel with
  | zero => cases h
  | succ fuel =>
    unfold valueWith at h
    split at h
    · split at h
      · cases h
        trivial
      · obtain ⟨_, _, same⟩ := bind_except_eq_ok.mp h
        cases same
        trivial
    · split at h
      · cases h
        trivial
      · obtain ⟨_, _, same⟩ := bind_except_eq_ok.mp h
        cases same
        trivial
    · cases h
    · cases h
    · exact (scalar_direct h).1

theorem itemsWith_direct (h : itemsWith fuel room cs = .ok (vs, rest)) : ∀ v ∈ vs, v.Direct := by
  induction fuel generalizing cs vs with
  | zero => cases h
  | succ fuel ih =>
    obtain ⟨⟨v, _⟩, first, h⟩ := bind_except_eq_ok.mp h
    have direct := valueWith_direct first
    dsimp only at h
    split at h
    · obtain ⟨⟨ws, _⟩, more, same⟩ := bind_except_eq_ok.mp h
      cases same
      exact List.forall_mem_cons.mpr ⟨direct, ih more⟩
    · cases h
      exact List.forall_mem_cons.mpr ⟨direct, by simp⟩
    · cases h

theorem membersWith_direct (h : membersWith fuel room cs = .ok (ms, rest)) :
    ∀ m ∈ ms, m.2.Direct := by
  induction fuel generalizing cs ms with
  | zero => cases h
  | succ fuel ih =>
    unfold membersWith at h
    split at h
    · obtain ⟨⟨name, _⟩, _, h⟩ := bind_except_eq_ok.mp h
      dsimp only at h
      split at h
      · obtain ⟨⟨v, _⟩, first, h⟩ := bind_except_eq_ok.mp h
        have direct := valueWith_direct first
        dsimp only at h
        split at h
        · obtain ⟨⟨ns, _⟩, more, same⟩ := bind_except_eq_ok.mp h
          cases same
          exact List.forall_mem_cons.mpr ⟨direct, ih more⟩
        · cases h
          exact List.forall_mem_cons.mpr ⟨direct, by simp⟩
        · cases h
      · cases h
    · cases h

theorem valueWith_shallow (h : valueWith fuel room cs = .ok (v, rest)) : v.Shallow := by
  cases fuel with
  | zero => cases h
  | succ fuel =>
    unfold valueWith at h
    split at h
    · split at h
      · cases h
        exact List.forall_mem_nil _
      · obtain ⟨_, items, same⟩ := bind_except_eq_ok.mp h
        cases same
        exact itemsWith_direct items
    · split at h
      · cases h
        exact List.forall_mem_nil _
      · obtain ⟨_, members, same⟩ := bind_except_eq_ok.mp h
        cases same
        exact membersWith_direct members
    · cases h
    · cases h
    · exact (scalar_direct h).2

theorem parse_shallow (h : parse cs = .ok v) : v.Shallow := by
  obtain ⟨⟨w, left⟩, value, last⟩ := bind_except_eq_ok.mp h
  dsimp only at last
  cases done : (skipBlanks left).isEmpty <;> rw [done] at last
  · cases last
  · cases last
    exact valueWith_shallow value

theorem parseBytes_shallow {bs : List UInt8} (h : parseBytes bs = .ok v) : v.Shallow := by
  unfold parseBytes at h
  split at h
  · exact parse_shallow h
  · cases h

end Json

namespace RecordType

theorem fieldValue_finite {v : Json} (direct : v.Direct) (h : fieldValue? v = some x) :
    x.isFinite = true := by
  cases v with
  | number n =>
    cases h
    exact direct
  | _ => cases h

theorem mapM_finite {f : α → Option Binary64} {as : List α}
    (h : ∀ a ∈ as, ∀ x, f a = some x → x.isFinite = true) {xs : List Binary64}
    (made : as.mapM f = some xs) : ∀ x ∈ xs, x.isFinite = true := by
  induction as generalizing xs with
  | nil =>
    cases made
    exact List.forall_mem_nil _
  | cons a as ih =>
    rw [List.mapM_cons] at made
    obtain ⟨y, hy, made⟩ := Option.bind_eq_some_iff.mp made
    obtain ⟨ys, hys, same⟩ := Option.bind_eq_some_iff.mp made
    cases same
    obtain ⟨here, rest⟩ := List.forall_mem_cons.mp h
    exact List.forall_mem_cons.mpr ⟨here y hy, ih rest hys⟩

theorem values_finite {t : RecordType} {v : Json} (shallow : v.Shallow)
    (h : t.values? v = some xs) : ∀ x ∈ xs, x.isFinite = true := by
  cases v with
  | object members =>
    refine mapM_finite (fun f _ x hx => ?_) h
    obtain ⟨w, found, value⟩ := Option.bind_eq_some_iff.mp hx
    obtain ⟨m, hm, rfl⟩ := Option.map_eq_some_iff.mp found
    have inside := List.mem_reverse.mp (List.mem_of_find?_eq_some hm)
    exact fieldValue_finite (shallow m inside) value
  | array items => exact mapM_finite (fun w hw x => fieldValue_finite (shallow w hw)) h
  | _ => cases h

theorem values_of_ofValues {t : RecordType} (h : t.ofValues? xs = some r) : r.values = xs := by
  unfold ofValues? at h
  split at h <;> cases h <;> rfl

theorem finite_of_parsed {t : RecordType} {bs : List UInt8}
    (parsed : (Json.parseBytes bs >>= t.ofJson) = .ok r) : ∀ x ∈ r.values, x.isFinite = true := by
  obtain ⟨v, text, made⟩ := bind_except_eq_ok.mp parsed
  unfold ofJson at made
  split at made
  · rename_i found
    cases made
    obtain ⟨xs, values, of⟩ := Option.bind_eq_some_iff.mp found
    rw [values_of_ofValues of]
    exact values_finite (Json.parseBytes_shallow text) values
  · cases made

end RecordType

theorem Format.Gives.finite {f : Format} {x : Leaf} (h : f.Gives x) : x.Finite := by
  cases h with
  | shape parsed => exact RecordType.finite_of_parsed parsed
  | fields cls parsed => exact RecordType.finite_of_parsed parsed
  | _ => trivial

end TagCodec
