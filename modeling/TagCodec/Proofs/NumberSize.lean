import TagCodec.Proofs.NumberText
import TagCodec.Value.Record

namespace TagCodec

namespace Binary64

/-- No finite magnitude has a decimal exponent above this one. -/
theorem high_lt {mag : Nat} (finite : mag < infinity) :
    ∃ a ≤ 640, (interval mag).high < Nat.pow 10 a := by
  refine ⟨640, Nat.le_refl _, ?_⟩
  obtain ⟨k, hk, top⟩ :
      ∃ k, exponent mag ≤ k ∧ (4 * (2 * leadingBit) + 2) * Nat.pow 2 k < Nat.pow 10 640 := by
    refine ⟨2045, ?_, by decide +kernel⟩
    unfold infinity at finite
    unfold exponent leadingBit
    omega
  have significant : 4 * significand mag + 2 ≤ 4 * (2 * leadingBit) + 2 := by
    unfold significand leadingBit
    split <;> omega
  have unit : Nat.pow 2 (exponent mag) ≤ Nat.pow 2 k := Nat.pow_le_pow_right (by omega) hk
  exact Nat.lt_of_le_of_lt (Nat.mul_le_mul significant unit) top

/-- The last digit of a decimal is not far behind the least magnitude. -/
theorem le_power_shortest (tie : Tie) (mag : Nat) : -340 ≤ (shortest tie mag).power := by
  unfold shortest
  simp only
  cases hf : (List.range 17).findSome? fun (more : Nat) =>
      onGrid? tie mag (leadingPower mag - more) with
  | none => decide
  | some d =>
    obtain ⟨more, inside, hd⟩ := List.exists_of_findSome?_eq_some hf
    have place : d.power = leadingPower mag - more := (contains_pick hd).2
    have few := List.mem_range.mp inside
    have digit : 0 < (Nat.toDigits 10 (quanta mag * Nat.pow 10 324 / Nat.pow 2 1074)).length :=
      Nat.length_toDigits_pos
    unfold leadingPower at place
    change -340 ≤ d.power
    omega

theorem quarter_pos : 0 < Nat.pow 2 1076 := by
  decide +kernel

section

variable {d : Decimal} {mag a : Nat} (near : Near d mag) (high : (interval mag).high < Nat.pow 10 a)

include near high

theorem length_digits_le {b : Nat} (low : (-d.power).toNat ≤ b) (some : 0 < a + b) :
    (Nat.toDigits 10 d.digits).length ≤ a + b := by
  have unit : 0 < Nat.pow 10 d.power.toNat * Nat.pow 2 1076 :=
    Nat.mul_pos (Nat.pow_pos (by omega)) quarter_pos
  have less : Nat.pow 10 (-d.power).toNat ≤ Nat.pow 10 b := Nat.pow_le_pow_right (by omega) low
  apply (Nat.length_toDigits_le_iff (by decide) some).mpr
  calc d.digits ≤ d.digits * (Nat.pow 10 d.power.toNat * Nat.pow 2 1076) :=
        Nat.le_mul_of_pos_right _ unit
    _ ≤ (interval mag).high * Nat.pow 10 (-d.power).toNat := near.bounded
    _ ≤ (interval mag).high * Nat.pow 10 b := Nat.mul_le_mul_left _ less
    _ < Nat.pow 10 a * Nat.pow 10 b := Nat.mul_lt_mul_of_pos_right high (Nat.pow_pos (by omega))
    _ = Nat.pow 10 (a + b) := (Nat.pow_add 10 a b).symm

theorem power_le : d.power ≤ a := by
  by_cases positive : 0 < d.power
  · have scale : (-d.power).toNat = 0 := by omega
    have unit : 0 < d.digits * Nat.pow 2 1076 := Nat.mul_pos near.positive quarter_pos
    have bounded := near.bounded
    rw [scale] at bounded
    have below : Nat.pow 10 d.power.toNat < Nat.pow 10 a := by
      refine Nat.lt_of_le_of_lt (Nat.le_mul_of_pos_right _ unit) (Nat.lt_of_le_of_lt ?_ high)
      calc Nat.pow 10 d.power.toNat * (d.digits * Nat.pow 2 1076)
          = d.digits * (Nat.pow 10 d.power.toNat * Nat.pow 2 1076) := Nat.mul_left_comm _ _ _
        _ ≤ (interval mag).high * Nat.pow 10 0 := bounded
        _ = (interval mag).high := Nat.mul_one _
    have := (Nat.pow_lt_pow_iff_right (show 1 < 10 by decide)).mp below
    omega
  · omega

end

end Binary64

theorem length_toDigits_le (n : Nat) : (Nat.toDigits 10 n).length ≤ n + 1 := by
  apply (Nat.length_toDigits_le_iff (by decide) n.succ_pos).mpr
  exact Nat.lt_trans n.lt_succ_self (Nat.lt_pow_self (by decide))

namespace RealFormat

theorem length_dropTrailingZeros_le (ds : List Char) :
    (dropTrailingZeros ds).length ≤ ds.length := by
  have shorter := (List.dropWhile_sublist (p := (· == '0')) (l := ds.reverse)).length_le
  rwa [List.length_reverse, ← List.length_reverse] at shorter

theorem length_plain_le (ds : List Char) {places : Int} (few : places.natAbs ≤ 16) :
    (plain ds places).length ≤ 2 * ds.length + 18 := by
  unfold plain fraction
  split
  · simp only [List.length_append, List.length_take, List.length_replicate, List.length_cons]
    split <;> simp only [List.length_drop, List.length_cons, List.length_nil] <;> omega
  · simp only [List.length_append, List.length_replicate, List.length_cons]
    omega

theorem length_scientific_le (f : RealFormat) (ds : List Char) (e : Int) :
    (f.scientific ds e).length ≤ ds.length + e.natAbs + 5 := by
  have exponent := length_toDigits_le e.natAbs
  have sign : (if e < 0 then ['-'] else if f.signedExponent then ['+'] else []).length ≤ 1 := by
    repeat' split
    all_goals decide
  have behind : (if (ds.drop 1).isEmpty then [] else '.' :: ds.drop 1).length ≤ ds.length + 1 := by
    split <;> simp
  have first : (ds.take 1).length ≤ 1 := List.length_take_le 1 ds
  unfold scientific
  simp only [List.length_append, List.length_cons]
  omega

theorem length_unsigned_le {mag : Nat} (finite : mag < Binary64.infinity) :
    (json.unsigned mag).length ≤ 4000 := by
  unfold unsigned
  split
  · decide
  · rename_i nonzero
    have low := Binary64.le_power_shortest json.tie mag
    have digits := length_dropTrailingZeros_le
      (Nat.toDigits 10 (Binary64.shortest json.tie mag).digits)
    obtain ⟨few, top⟩ : (Nat.toDigits 10 (Binary64.shortest json.tie mag).digits).length ≤ 980 ∧
        (Binary64.shortest json.tie mag).power ≤ 640 := by
      rcases Binary64.near_shortest nonzero json.tie with zero | near
      · rw [zero]
        decide
      · obtain ⟨a, ha, high⟩ := Binary64.high_lt finite
        have length := Binary64.length_digits_le near high (b := 340) (by omega) (by omega)
        have power := Binary64.power_le near high
        omega
    simp only
    generalize Nat.toDigits 10 (Binary64.shortest json.tie mag).digits = all at *
    generalize (Binary64.shortest json.tie mag).power = p at *
    split
    · rename_i inside
      have first : (-5 : Int) ≤ (all.length : Int) + p - 1 := inside.1
      have last : (all.length : Int) + p - 1 < 16 := inside.2
      have places : ((all.length : Int) + p - 1 + 1).natAbs ≤ 16 := by omega
      have text := length_plain_le (dropTrailingZeros all) places
      omega
    · have := json.length_scientific_le (dropTrailingZeros all) ((all.length : Int) + p - 1)
      omega

theorem length_finite_le {x : Binary64} (finite : x.isFinite = true) :
    (json.finite x).length ≤ 4001 := by
  have digits := length_unsigned_le (of_decide_eq_true finite)
  unfold RealFormat.finite
  split
  · exact Nat.succ_le_succ digits
  · omega

end RealFormat

theorem Json.length_ofBinary64_le (x : Binary64) : (compact (ofBinary64 x)).length ≤ 4001 := by
  unfold ofBinary64
  split
  · exact RealFormat.length_finite_le ‹_›
  · decide

theorem utf8_length_le (cs : List Char) :
    (String.ofList cs).toUTF8.data.toList.length ≤ 4 * cs.length := by
  have bytes : (String.ofList cs).toUTF8.data.toList.length = (cs.map Char.utf8Size).sum := by
    rw [String.toUTF8_eq_toByteArray, String.toByteArray_ofList, List.utf8Encode]
    simp
  rw [bytes]
  clear bytes
  induction cs with
  | nil => exact Nat.le_refl 0
  | cons c cs ih =>
    have := c.utf8Size_le_four
    simp only [List.map_cons, List.sum_cons, List.length_cons]
    omega

theorem Json.length_compactMembers_le {n : Nat} {ms : List (String × Json)}
    (each : ∀ m ∈ ms, (quote m.1).length + (compact m.2).length + 2 ≤ n) :
    (compactMembers ms).length ≤ ms.length * n := by
  induction ms with
  | nil => exact Nat.zero_le _
  | cons m ms ih =>
    obtain ⟨here, rest⟩ := List.forall_mem_cons.mp each
    have behind := ih rest
    obtain ⟨name, v⟩ := m
    rw [List.length_cons, Nat.succ_mul]
    cases ms with
    | nil =>
      simp only [compactMembers, List.length_append, List.length_cons] at here ⊢
      omega
    | cons m ms =>
      simp only [compactMembers, List.length_append, List.length_cons] at behind here ⊢
      omega

namespace Record

theorem length_quote_le {r : Record} (field : f ∈ r.type.fields) : (Json.quote f).length ≤ 8 := by
  have all : ∀ t : RecordType, ∀ f ∈ t.fields, (Json.quote f).length ≤ 8 := by
    intro t
    cases t <;> decide
  exact all _ f field

theorem length_text_lt (r : Record) :
    r.toJson.text.toUTF8.data.toList.length < 0x10000000000000000 := by
  have members : (Json.compactMembers (r.type.fields.zip (r.values.map Json.ofBinary64))).length ≤
      (r.type.fields.zip (r.values.map Json.ofBinary64)).length * 5000 := by
    refine Json.length_compactMembers_le fun m hm => ?_
    obtain ⟨field, value⟩ := List.of_mem_zip hm
    obtain ⟨x, _, same⟩ := List.mem_map.mp value
    have name := length_quote_le field
    have number := Json.length_ofBinary64_le x
    rw [same] at number
    omega
  have few : r.type.fields.length ≤ 2 := by cases r.type <;> decide
  have text : (Json.compact r.toJson).length ≤ 10002 := by
    rw [List.length_zip] at members
    simp only [toJson, Json.compact, List.length_append, List.length_cons, List.length_nil]
    omega
  have bytes := utf8_length_le (Json.compact r.toJson)
  unfold Json.text
  omega

end Record

end TagCodec
