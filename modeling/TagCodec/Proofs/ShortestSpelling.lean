import TagCodec.Bytes.Output
import TagCodec.Proofs.VarintLanguage

namespace TagCodec

open Steps

namespace Varint

/-- The digits of `n` to the base 128, the lowest first, in `more + 1` bytes. -/
def spelling (n : Nat) : (more : Nat) → List UInt8
  | 0 => [UInt8.ofNat n]
  | more + 1 => UInt8.ofNat (n % 128 + 128) :: spelling (n / 128) more

/-- The number has that many digits and no zero in front of them. -/
def Needs (n more : Nat) : Prop :=
  n < Nat.pow 128 (more + 1) ∧ (more = 0 ∨ Nat.pow 128 more ≤ n)

/-- One byte, or several of which the last says something. -/
def Minimal (bs : List UInt8) : Prop := bs.length = 1 ∨ bs.getLast? ≠ some 0

instance (bs : List UInt8) : Decidable (Minimal bs) := inferInstanceAs (Decidable (_ ∨ _))

/-- How many bits it takes to write `n` down. -/
def bits (n : Nat) : Nat := if n = 0 then 0 else n.log2 + 1

theorem toNat_shiftRight_seven (word : UInt64) : (word >>> 7).toNat = word.toNat / 128 := by
  rw [UInt64.toNat_shiftRight]
  exact Nat.shiftRight_eq_div_pow word.toNat 7

/-- A number in one word goes out seven bits at a time, with the high bit set as long as something
is left in the word. -/
def shiftOut (word : UInt64) : List UInt8 :=
  let digit := (word &&& 0x7F).toUInt8
  if word >>> 7 = 0 then [digit] else (digit ||| 0x80) :: shiftOut (word >>> 7)
termination_by word.toNat
decreasing_by
  rename_i something
  have left : (word >>> 7).toNat ≠ 0 := fun none => something (UInt64.toNat_inj.mp none)
  rw [toNat_shiftRight_seven] at left ⊢
  omega

theorem length_spelling (n more : Nat) : (spelling n more).length = more + 1 := by
  induction more generalizing n with
  | zero => rfl
  | succ more ih => rw [spelling, List.length_cons, ih]

theorem spelling_ne_nil (n more : Nat) : spelling n more ≠ [] := by
  rw [← List.length_pos_iff, length_spelling]
  exact Nat.succ_pos more

theorem getLast_spelling (n more : Nat) :
    (spelling n more).getLast? = some (UInt8.ofNat (n / Nat.pow 128 more)) := by
  induction more generalizing n with
  | zero => exact congrArg (fun k => some (UInt8.ofNat k)) (Nat.div_one n).symm
  | succ more ih =>
    rw [spelling, List.getLast?_cons_of_ne_nil (spelling_ne_nil _ more), ih,
      Nat.div_div_eq_div_mul, pow_succ, Nat.mul_comm 128]

theorem high_spelling (n more : Nat) : ∀ b ∈ (spelling n more).dropLast, 128 ≤ b.toNat := by
  induction more generalizing n with
  | zero => nofun
  | succ more ih =>
    rw [spelling, List.dropLast_cons_of_ne_nil (spelling_ne_nil _ more), List.forall_mem_cons]
    refine ⟨?_, ih (n / 128)⟩
    rw [toNat_ofNat_byte (by omega)]
    omega

theorem minimal_spelling {n more : Nat} (room : n < Nat.pow 128 (more + 1)) :
    Minimal (spelling n more) ↔ Needs n more := by
  have unit : 0 < Nat.pow 128 more := Nat.pow_pos (by omega)
  have digit : n / Nat.pow 128 more < 128 := Nat.div_lt_of_lt_mul room
  have zero : UInt8.ofNat (n / Nat.pow 128 more) = 0 ↔ n < Nat.pow 128 more := by
    rw [← UInt8.toNat_inj, toNat_ofNat_byte (by omega)]
    exact Nat.div_eq_zero_iff_lt unit
  rw [Minimal, length_spelling, getLast_spelling, Needs, and_iff_right room, Ne, Option.some.injEq,
    zero, Nat.not_lt, Nat.add_eq_right]

/-- Where no digit is in vain the spelling is the one that is written. -/
theorem encode_of_needs {n more : Nat} (h : Needs n more) : encode n = spelling n more := by
  induction more generalizing n with
  | zero => exact encode_small h.1
  | succ more ih =>
    obtain ⟨room, needed⟩ := h
    have unit : 0 < Nat.pow 128 more := Nat.pow_pos (by omega)
    rw [pow_succ] at room
    rw [pow_succ] at needed
    rw [encode_large (by omega), spelling, ih ⟨by omega, by omega⟩]

theorem exists_needs (n : Nat) : ∃ more, Needs n more := by
  induction n using Nat.strongRecOn with
  | ind n ih =>
    by_cases small : n < 128
    · exact ⟨0, small, .inl rfl⟩
    · obtain ⟨more, room, needed⟩ := ih (n / 128) (by omega)
      refine ⟨more + 1, ?_, .inr ?_⟩
      · rw [pow_succ]
        omega
      · rw [pow_succ]
        rcases needed with rfl | needed
        · change 1 * 128 ≤ n
          omega
        · omega

theorem Needs.le {n more room : Nat} (h : Needs n more) (fits : n < Nat.pow 128 (room + 1)) :
    more ≤ room := by
  rcases h.2 with rfl | needed
  · exact Nat.zero_le room
  · have := (Nat.pow_lt_pow_iff_right (by decide)).mp (Nat.lt_of_le_of_lt needed fits)
    omega

/-- So many bytes are enough for the numbers that have no more digits. -/
theorem length_encode_le (n room : Nat) :
    (encode n).length ≤ room + 1 ↔ n < Nat.pow 128 (room + 1) := by
  obtain ⟨more, h⟩ := exists_needs n
  rw [encode_of_needs h, length_spelling, Nat.add_le_add_iff_right]
  constructor
  · intro less
    exact Nat.lt_of_lt_of_le h.1 (Nat.pow_le_pow_right (by decide) (by omega))
  · exact h.le

theorem length_encode_pos (n : Nat) : 0 < (encode n).length := by
  obtain ⟨more, h⟩ := exists_needs n
  rw [encode_of_needs h, length_spelling]
  exact Nat.succ_pos more

theorem bits_le (n k : Nat) : bits n ≤ k ↔ n < Nat.pow 2 k := by
  unfold bits
  split
  · rename_i zero
    subst zero
    exact ⟨fun _ => Nat.pow_pos (by decide), fun _ => Nat.zero_le k⟩
  · rename_i nonzero
    exact Nat.log2_lt nonzero

/-- A byte for each seven bits that have been begun, and one byte for zero. -/
theorem length_encode (n : Nat) : (encode n).length = if n = 0 then 1 else (bits n + 6) / 7 := by
  have enough : ∀ room, (encode n).length ≤ room + 1 ↔ bits n ≤ 7 * (room + 1) := by
    intro room
    rw [length_encode_le, bits_le, show Nat.pow 2 (7 * (room + 1)) = Nat.pow 128 (room + 1) from
      Nat.pow_mul 2 7 (room + 1)]
  have positive := length_encode_pos n
  split
  · rename_i zero
    have := (enough 0).mpr (by simp [bits, zero])
    omega
  · rename_i nonzero
    have some : 0 < bits n := by
      rw [bits, if_neg nonzero]
      exact Nat.succ_pos _
    -- both lengths are positive, so that each is one more than the room that it needs
    have upper := (enough ((bits n + 6) / 7 - 1)).mpr (by omega)
    have lower := (enough ((encode n).length - 1)).mp (by omega)
    omega

theorem length_encode_mono {m n : Nat} (h : m ≤ n) : (encode m).length ≤ (encode n).length := by
  obtain ⟨more, needs⟩ := exists_needs n
  rw [encode_of_needs needs, length_spelling, length_encode_le]
  exact Nat.lt_of_le_of_lt h needs.1

theorem lead_spelling {n more : Nat} (room : n < Nat.pow 128 (more + 1)) (rest : List UInt8) :
    lead (spelling n more ++ rest) = more := by
  induction more generalizing n with
  | zero =>
    have small : n < 128 := room
    rw [spelling, List.singleton_append, lead_low (by rw [toNat_ofNat_byte] <;> omega)]
  | succ more ih =>
    rw [pow_succ] at room
    rw [spelling, List.cons_append, lead_high (by rw [toNat_ofNat_byte] <;> omega), ih (by omega)]

theorem value_spelling {n more : Nat} (room : n < Nat.pow 128 (more + 1)) (rest : List UInt8) :
    value (spelling n more ++ rest) = n := by
  induction more generalizing n with
  | zero =>
    have small : n < 128 := room
    have byte : (UInt8.ofNat n).toNat = n := toNat_ofNat_byte (by omega)
    rw [spelling, List.singleton_append, value_low (by omega), byte]
  | succ more ih =>
    rw [pow_succ] at room
    have byte : (UInt8.ofNat (n % 128 + 128)).toNat = n % 128 + 128 := toNat_ofNat_byte (by omega)
    rw [spelling, List.cons_append, value_high (by omega), byte, ih (by omega)]
    omega

/-- The bytes of a number are its digits. -/
theorem eq_spelling {bs : List UInt8} (ends : lead bs < bs.length) :
    bs = spelling (value bs) (lead bs) ++ bs.drop (lead bs + 1) ∧
      value bs < Nat.pow 128 (lead bs + 1) := by
  induction bs with
  | nil => exact absurd ends (Nat.not_lt_zero _)
  | cons b bs ih =>
    have size := b.toNat_lt
    by_cases high : 128 ≤ b.toNat
    · rw [lead_high high] at ends ⊢
      obtain ⟨digits, room⟩ := ih (Nat.lt_of_succ_lt_succ ends)
      have byte : UInt8.ofNat ((b.toNat % 128 + 128 * value bs) % 128 + 128) = b := by
        rw [← UInt8.toNat_inj, toNat_ofNat_byte (by omega)]
        omega
      rw [value_high high, spelling, byte, List.cons_append, List.drop_succ_cons, pow_succ,
        show (b.toNat % 128 + 128 * value bs) / 128 = value bs by omega]
      exact ⟨congrArg _ digits, by omega⟩
    · rw [lead_low (by omega), value_low (by omega), spelling, UInt8.ofNat_toNat]
      exact ⟨rfl, by change b.toNat < 128; omega⟩

end Varint

namespace Cursor

open Varint

theorem varint_eq_ok {n : Nat} {bs : List UInt8} {d : Cursor} (pos : Nat) :
    varint (facing pos bs) = .ok n d ↔ n < 0x10000000000000000 ∧
      ∃ more rest, more ≤ 9 ∧ n < Nat.pow 128 (more + 1) ∧ bs = spelling n more ++ rest ∧
        d = facing (pos + (more + 1)) rest := by
  have top : 2 * Nat.pow 128 9 = 0x10000000000000000 := by decide
  rw [varint, varintWithin_eq_ok, Spelled, top]
  constructor
  · rintro ⟨⟨ends, few, small⟩, rfl, rfl⟩
    obtain ⟨digits, room⟩ := eq_spelling ends
    exact ⟨small, lead bs, _, few, room, digits, rfl⟩
  · rintro ⟨small, more, rest, few, room, rfl, rfl⟩
    rw [lead_spelling room, value_spelling room, List.length_append, length_spelling,
      List.drop_left' (length_spelling n more)]
    exact ⟨⟨by omega, few, small⟩, rfl, rfl⟩

end Cursor

namespace Varint

open Cursor

theorem low_seven (word : UInt64) : (word &&& 0x7F).toUInt8 = UInt8.ofNat (word.toNat % 128) := by
  have low : word.toNat &&& 0x7F = word.toNat % 128 := Nat.and_two_pow_sub_one_eq_mod word.toNat 7
  rw [← UInt8.toNat_inj, UInt64.toNat_toUInt8, UInt64.toNat_and, toNat_ofNat_byte (by omega)]
  exact (congrArg (· % 256) low).trans (Nat.mod_eq_of_lt (by omega))

theorem set_high_bit {k : Nat} (low : k < 128) :
    UInt8.ofNat k ||| 0x80 = UInt8.ofNat (k + 128) := by
  have added : 128 + k = 128 ||| k := @Nat.two_pow_add_eq_or_of_lt 7 k low 1
  rw [← UInt8.toNat_inj, UInt8.toNat_or, toNat_ofNat_byte (by omega), toNat_ofNat_byte (by omega),
    Nat.add_comm, added, Nat.or_comm]
  rfl

theorem shiftOut_eq (word : UInt64) : shiftOut word = encode word.toNat := by
  induction word using shiftOut.induct with
  | case1 word nothing =>
    have small : word.toNat < 128 := by
      have := congrArg UInt64.toNat nothing
      rw [toNat_shiftRight_seven] at this
      change word.toNat / 128 = 0 at this
      omega
    rw [shiftOut, if_pos nothing, low_seven, encode_small small, Nat.mod_eq_of_lt small]
  | case2 word something ih =>
    have large : ¬ word.toNat < 128 := fun small => something <| UInt64.toNat_inj.mp <|
      (toNat_shiftRight_seven word).trans (Nat.div_eq_of_lt small)
    rw [shiftOut, if_neg something, low_seven, set_high_bit (by omega), ih, toNat_shiftRight_seven,
      encode_large (Nat.not_lt.mp large)]

/-- The bytes are read as the number, whatever follows them, and nothing else that is read as this
number is as short. -/
structure Shortest (n : Nat) (bs : List UInt8) : Prop where
  read : ∀ pos rest, varint (facing pos (bs ++ rest)) = .ok n (facing (pos + bs.length) rest)
  least : ∀ pos cs d, varint (facing pos cs) = .ok n d → bs.length < cs.length ∨ cs = bs
  length : bs.length = if n = 0 then 1 else (bits n + 6) / 7
  few : bs.length ≤ 10
  high : ∀ b ∈ bs.dropLast, 128 ≤ b.toNat
  minimal : Minimal bs

theorem shortest_encode {n : Nat} (small : n < 0x10000000000000000) : Shortest n (encode n) := by
  obtain ⟨more, needs⟩ := exists_needs n
  have wide : 0x10000000000000000 < Nat.pow 128 10 := by decide
  constructor
  · exact fun pos rest => varint_encode small pos rest
  · intro pos cs d read
    obtain ⟨_, more', rest, _, room, rfl, _⟩ := (varint_eq_ok pos).mp read
    have fewer := needs.le room
    rw [encode_of_needs needs, List.length_append, length_spelling, length_spelling]
    by_cases longer : more < more' + rest.length
    · exact .inl (by omega)
    · obtain rfl : more = more' := by omega
      obtain rfl : rest = [] := List.eq_nil_of_length_eq_zero (by omega)
      exact .inr (List.append_nil _)
  · exact length_encode n
  · exact (length_encode_le n 9).mpr (Nat.lt_trans small wide)
  · rw [encode_of_needs needs]
    exact high_spelling n more
  · rw [encode_of_needs needs]
    exact (minimal_spelling needs.1).mpr needs

/-- Bytes that are read whole are those of the number unless their last byte says nothing. -/
theorem encode_eq_iff_minimal {n pos : Nat} {bs : List UInt8}
    (read : varint (facing pos bs) = .ok n (facing (pos + bs.length) [])) :
    (encode n = bs ↔ Minimal bs) ∧ (¬ Minimal bs → (encode n).length < bs.length) := by
  obtain ⟨small, more, rest, _, room, digits, stopped⟩ := (varint_eq_ok pos).mp read
  obtain rfl : rest = [] := (congrArg Cursor.rest stopped).symm
  rw [List.append_nil] at digits
  subst digits
  rw [minimal_spelling room]
  have kept : encode n = spelling n more ↔ Needs n more := by
    refine ⟨fun same => ?_, encode_of_needs⟩
    rw [← minimal_spelling room, ← same]
    exact (shortest_encode small).minimal
  refine ⟨kept, fun vain => ?_⟩
  rcases (shortest_encode small).least pos _ _ read with shorter | same
  · exact shorter
  · exact absurd (kept.mp same.symm) vain

theorem zigzag_lt_iff (x : Int) (k : Nat) : zigzag x < 2 * k ↔ -(k : Int) ≤ x ∧ x < k := by
  unfold zigzag
  split <;> omega

/-- Each further byte takes in the signed numbers of seven more bits. -/
theorem length_encode_zigzag_le (x : Int) (more : Nat) : (encode (zigzag x)).length ≤ more + 1 ↔
    -(Nat.pow 2 (7 * more + 6) : Int) ≤ x ∧ x < Nat.pow 2 (7 * more + 6) := by
  have double : Nat.pow 128 (more + 1) = 2 * Nat.pow 2 (7 * more + 6) := by
    rw [Nat.mul_comm]
    exact (Nat.pow_mul 2 7 (more + 1)).symm
  rw [length_encode_le, double, zigzag_lt_iff]

/-- A number of 64 bits is written as the one shortest spelling of it, which comes out of a word
seven bits at a time. Of the bytes that are read as a number, those are kept when it is written
again whose last byte says something, and all others become fewer. Larger numbers take no fewer
bytes, and a signed number takes one more for each seven bits. -/
theorem canonical_spelling :
    (∀ (out : Output) (v : UInt64), ∃ bs, (out.put (.varint v)).toList = out.toList ++ bs ∧
      shiftOut v = bs ∧ Shortest v.toNat bs) ∧
    (∀ pos bs n, varint (facing pos bs) = .ok n (facing (pos + bs.length) []) →
      ∃ v : UInt64, v.toNat = n ∧ ((Item.varint v).encode = bs ↔ Minimal bs) ∧
        (¬ Minimal bs → (Item.varint v).encode.length < bs.length)) ∧
    (∀ v w : UInt64, v ≤ w → (Item.varint v).encode.length ≤ (Item.varint w).encode.length) ∧
    ∀ (x : Int32) (more : Nat), (Item.sint32 x).encode.length ≤ more + 1 ↔
      -(Nat.pow 2 (7 * more + 6) : Int) ≤ x.toInt ∧ x.toInt < Nat.pow 2 (7 * more + 6) := by
  refine ⟨fun out v => ?_, fun pos bs n read => ?_, fun v w less => ?_, fun x more => ?_⟩
  · exact ⟨_, Output.toList_put out _, shiftOut_eq v, shortest_encode v.toNat_lt⟩
  · have small := ((varint_eq_ok pos).mp read).1
    refine ⟨UInt64.ofNat n, UInt64.toNat_ofNat_of_lt' small, ?_⟩
    rw [Item.encode, UInt64.toNat_ofNat_of_lt' small]
    exact encode_eq_iff_minimal read
  · exact length_encode_mono (UInt64.le_iff_toNat_le.mp less)
  · exact length_encode_zigzag_le x.toInt more

/-- One with two zeros on top is read, and a single byte is written for it. -/
theorem zeros_on_top_dropped :
    varint (facing 0 [0x81, 0x80, 0x00]) = .ok 1 (facing 3 []) ∧ ¬ Minimal [0x81, 0x80, 0x00] ∧
      (∃ v : UInt64, v.toNat = 1 ∧ (Item.varint v).encode.length < 3) ∧
      (127 : UInt64) ≤ 128 ∧
      (Item.varint 127).encode.length ≤ (Item.varint 128).encode.length := by
  have read : varint (facing 0 [0x81, 0x80, 0x00]) = .ok 1 (facing 3 []) := by decide
  have vain : ¬ Minimal [0x81, 0x80, 0x00] := by decide
  have less : (127 : UInt64) ≤ 128 := by decide
  obtain ⟨v, value, _, fewer⟩ := canonical_spelling.2.1 0 [0x81, 0x80, 0x00] 1 read
  exact ⟨read, vain, ⟨v, value, fewer vain⟩, less, canonical_spelling.2.2.1 127 128 less⟩

end Varint

end TagCodec
