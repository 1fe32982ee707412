import TagCodec.Proofs.Fields

namespace TagCodec

open Steps

namespace Varint

/-- How many bytes with their high bit set come before the first without it. -/
def lead (bs : List UInt8) : Nat := (bs.takeWhile fun b => 128 ≤ b.toNat).length

/-- The low seven bits of all bytes put together, those of the first byte the lowest. -/
def littleEndian : List UInt8 → Nat
  | [] => 0
  | b :: bs => b.toNat % 128 + 128 * littleEndian bs

/-- The number that the bytes begin with, if they go on for long enough. -/
def value (bs : List UInt8) : Nat := littleEndian (bs.take (lead bs + 1))

/-- The bytes begin with a number for which a first byte and some more have room. -/
def Spelled (more : Nat) (bs : List UInt8) : Prop :=
  lead bs < bs.length ∧ lead bs ≤ more ∧ value bs < 2 * Nat.pow 128 more

/-- The bytes are too few, and a number would go on behind each of them. -/
def CutOff (more : Nat) (bs : List UInt8) : Prop :=
  bs.length ≤ more ∧ ∀ b ∈ bs, 128 ≤ b.toNat

/-- A number would go on up to the last byte that is allowed, which is too large. -/
def Malformed (more : Nat) (bs : List UInt8) : Prop :=
  (∀ b ∈ bs.take more, 128 ≤ b.toNat) ∧ ∃ b, bs[more]? = some b ∧ 1 < b.toNat

theorem lead_high {b : UInt8} (high : 128 ≤ b.toNat) (bs : List UInt8) :
    lead (b :: bs) = lead bs + 1 := by
  simp [lead, high]

theorem lead_low {b : UInt8} (low : b.toNat < 128) (bs : List UInt8) : lead (b :: bs) = 0 := by
  simp [lead, low]

theorem value_high {b : UInt8} (high : 128 ≤ b.toNat) (bs : List UInt8) :
    value (b :: bs) = b.toNat % 128 + 128 * value bs := by
  rw [value, lead_high high, List.take_succ_cons, littleEndian, value]

theorem value_low {b : UInt8} (low : b.toNat < 128) (bs : List UInt8) :
    value (b :: bs) = b.toNat := by
  rw [value, lead_low low, List.take_succ_cons, List.take_zero]
  exact Nat.mod_eq_of_lt low

theorem spelled_high {b : UInt8} (high : 128 ≤ b.toNat) (more : Nat) (bs : List UInt8) :
    Spelled (more + 1) (b :: bs) ↔ Spelled more bs := by
  rw [Spelled, Spelled, lead_high high, value_high high, List.length_cons, pow_succ]
  omega

theorem spelled_low {b : UInt8} (low : b.toNat < 128) (more : Nat) (bs : List UInt8) :
    Spelled (more + 1) (b :: bs) := by
  have power : 0 < Nat.pow 128 more := Nat.pow_pos (by omega)
  rw [Spelled, lead_low low, value_low low, List.length_cons, pow_succ]
  omega

theorem spelled_last (b : UInt8) (bs : List UInt8) : Spelled 0 (b :: bs) ↔ b.toNat < 2 := by
  by_cases low : b.toNat < 128
  · rw [Spelled, lead_low low, value_low low, List.length_cons]
    change 0 < bs.length + 1 ∧ 0 ≤ 0 ∧ b.toNat < 2 * 1 ↔ _
    omega
  · rw [Spelled, lead_high (by omega)]
    omega

theorem cutOff_cons (b : UInt8) (more : Nat) (bs : List UInt8) :
    CutOff (more + 1) (b :: bs) ↔ 128 ≤ b.toNat ∧ CutOff more bs := by
  rw [CutOff, CutOff, List.forall_mem_cons, List.length_cons, Nat.add_le_add_iff_right,
    and_left_comm]

theorem malformed_cons (b : UInt8) (more : Nat) (bs : List UInt8) :
    Malformed (more + 1) (b :: bs) ↔ 128 ≤ b.toNat ∧ Malformed more bs := by
  rw [Malformed, Malformed, List.take_succ_cons, List.forall_mem_cons, List.getElem?_cons_succ,
    and_assoc]

theorem malformed_iff (more : Nat) (bs : List UInt8) :
    Malformed more bs ↔ ¬ Spelled more bs ∧ ¬ CutOff more bs := by
  induction more generalizing bs with
  | zero =>
    cases bs with
    | nil => simp [Malformed, CutOff]
    | cons b bs =>
      -- no byte after this one is allowed, so that its size alone decides
      rw [spelled_last]
      constructor
      · rintro ⟨_, _, ⟨⟩, large⟩
        exact ⟨by omega, fun cut => absurd cut.1 (Nat.not_succ_le_zero _)⟩
      · rintro ⟨large, _⟩
        exact ⟨nofun, b, rfl, by omega⟩
  | succ more ih =>
    cases bs with
    | nil => simp [Malformed, CutOff]
    | cons b bs =>
      rw [malformed_cons, cutOff_cons, ih]
      by_cases high : 128 ≤ b.toNat
      · simp only [spelled_high high, high, true_and]
      · simp only [spelled_low (Nat.not_le.mp high), high, false_and, not_true]

theorem spelled_or_cutOff_or_malformed (more : Nat) (bs : List UInt8) :
    Spelled more bs ∨ CutOff more bs ∨ Malformed more bs := by
  by_cases spelled : Spelled more bs
  · exact .inl spelled
  · by_cases cut : CutOff more bs
    · exact .inr (.inl cut)
    · exact .inr (.inr ((malformed_iff more bs).mpr ⟨spelled, cut⟩))

end Varint

namespace Cursor

open Varint

theorem byte_nil (pos : Nat) : byte (facing pos []) = .error (.truncated pos) (facing pos []) := rfl

theorem varintWithin_nil (more pos : Nat) :
    varintWithin more (facing pos []) = .error (.truncated pos) (facing pos []) := by
  cases more <;> exact bind_of_error (byte_nil pos)

theorem varintWithin_last (pos : Nat) (b : UInt8) (bs : List UInt8) :
    varintWithin 0 (facing pos (b :: bs)) =
      if b.toNat < 2 then .ok b.toNat (facing (pos + 1) bs)
      else .error (.invalidVarint (pos + 1)) (facing (pos + 1) bs) := by
  rw [varintWithin, bind_of_ok (byte_cons ..)]
  split <;> rfl

theorem varintWithin_low {b : UInt8} (low : b.toNat < 128) (more pos : Nat) (bs : List UInt8) :
    varintWithin (more + 1) (facing pos (b :: bs)) = .ok b.toNat (facing (pos + 1) bs) := by
  rw [varintWithin, bind_of_ok (byte_cons ..), if_pos low]
  rfl

theorem varintWithin_high {b : UInt8} (high : 128 ≤ b.toNat) (more pos : Nat) (bs : List UInt8) :
    varintWithin (more + 1) (facing pos (b :: bs)) =
      (varintWithin more >>= fun n => return b.toNat % 128 + 128 * n) (facing (pos + 1) bs) := by
  rw [varintWithin, bind_of_ok (byte_cons ..), if_neg (by omega)]

theorem varintWithin_spelled {more : Nat} {bs : List UInt8} (spelled : Spelled more bs)
    (pos : Nat) : varintWithin more (facing pos bs) =
      .ok (value bs) (facing (pos + lead bs + 1) (bs.drop (lead bs + 1))) := by
  induction more generalizing bs pos with
  | zero =>
    cases bs with
    | nil => exact absurd spelled.1 (by simp)
    | cons b bs =>
      have small := (spelled_last b bs).mp spelled
      have low : b.toNat < 128 := by omega
      rw [varintWithin_last, if_pos small, value_low low, lead_low low]
      rfl
  | succ more ih =>
    cases bs with
    | nil => exact absurd spelled.1 (by simp)
    | cons b bs =>
      by_cases high : 128 ≤ b.toNat
      · have behind := ih ((spelled_high high more bs).mp spelled) (pos + 1)
        rw [varintWithin_high high, bind_of_ok behind, value_high high, lead_high high, pure_run,
          List.drop_succ_cons, Nat.add_right_comm pos 1, Nat.add_assoc pos]
      · have low : b.toNat < 128 := by omega
        rw [varintWithin_low low, value_low low, lead_low low]
        rfl

theorem varintWithin_cutOff {more : Nat} {bs : List UInt8} (cut : CutOff more bs) (pos : Nat) :
    varintWithin more (facing pos bs) =
      .error (.truncated (pos + bs.length)) (facing (pos + bs.length) []) := by
  induction more generalizing bs pos with
  | zero =>
    cases bs with
    | nil => exact varintWithin_nil 0 pos
    | cons b bs => exact absurd cut.1 (by simp)
  | succ more ih =>
    cases bs with
    | nil => exact varintWithin_nil (more + 1) pos
    | cons b bs =>
      obtain ⟨high, behind⟩ := (cutOff_cons b more bs).mp cut
      rw [varintWithin_high high, bind_of_error (ih behind (pos + 1)), List.length_cons,
        Nat.add_assoc, Nat.add_comm 1]

theorem varintWithin_malformed {more : Nat} {bs : List UInt8} (wrong : Malformed more bs)
    (pos : Nat) : varintWithin more (facing pos bs) =
      .error (.invalidVarint (pos + more + 1)) (facing (pos + more + 1) (bs.drop (more + 1))) := by
  induction more generalizing bs pos with
  | zero =>
    obtain ⟨_, b, first, large⟩ := wrong
    cases bs with
    | nil => cases first
    | cons b bs =>
      cases first
      rw [varintWithin_last, if_neg (by omega)]
      rfl
  | succ more ih =>
    cases bs with
    | nil =>
      obtain ⟨_, _, ⟨⟩, _⟩ := wrong
    | cons b bs =>
      obtain ⟨high, behind⟩ := (malformed_cons b more bs).mp wrong
      rw [varintWithin_high high, bind_of_error (ih behind (pos + 1)), List.drop_succ_cons,
        Nat.add_right_comm pos 1, Nat.add_assoc pos]

theorem varintWithin_eq_ok (more pos : Nat) (bs : List UInt8) {c : Cursor} :
    varintWithin more (facing pos bs) = .ok n c ↔ Spelled more bs ∧ n = value bs ∧
      c = facing (pos + lead bs + 1) (bs.drop (lead bs + 1)) := by
  constructor
  · intro read
    rcases spelled_or_cutOff_or_malformed more bs with spelled | cut | wrong
    · rw [varintWithin_spelled spelled] at read
      cases read
      exact ⟨spelled, rfl, rfl⟩
    · rw [varintWithin_cutOff cut] at read
      cases read
    · rw [varintWithin_malformed wrong] at read
      cases read
  · rintro ⟨spelled, rfl, rfl⟩
    exact varintWithin_spelled spelled pos

theorem varintWithin_eq_error (more pos : Nat) (bs : List UInt8) {c : Cursor} :
    varintWithin more (facing pos bs) = .error e c ↔
      (CutOff more bs ∧ e = .truncated (pos + bs.length) ∧ c = facing (pos + bs.length) []) ∨
      (Malformed more bs ∧ e = .invalidVarint (pos + more + 1) ∧
        c = facing (pos + more + 1) (bs.drop (more + 1))) := by
  constructor
  · intro read
    rcases spelled_or_cutOff_or_malformed more bs with spelled | cut | wrong
    · rw [varintWithin_spelled spelled] at read
      cases read
    · rw [varintWithin_cutOff cut] at read
      cases read
      exact .inl ⟨cut, rfl, rfl⟩
    · rw [varintWithin_malformed wrong] at read
      cases read
      exact .inr ⟨wrong, rfl, rfl⟩
  · rintro (⟨cut, rfl, rfl⟩ | ⟨wrong, rfl, rfl⟩)
    · exact varintWithin_cutOff cut pos
    · exact varintWithin_malformed wrong pos

end Cursor

namespace Varint

open Cursor

/-- A walk over the bytes of a number: what came of it, where it stopped, and the bytes it looked
at, each with the place that its bits were moved to. -/
structure Walk where
  outcome : Except FieldError UInt64
  pos : Nat
  looks : List (UInt8 × Nat)

/-- The word with the low seven bits of one more byte. -/
def withByte (word : UInt64) (shift : Nat) (b : UInt8) : UInt64 :=
  word ||| (b &&& 0x7F).toUInt64 <<< UInt64.ofNat shift

/-- The bits of each byte are put into one word, seven places above those of the byte before. -/
def walk (word : UInt64) (shift pos : Nat) : List UInt8 → Walk
  | [] => ⟨.error (.truncated pos), pos, []⟩
  | b :: bs =>
    if shift = 63 ∧ b &&& 0xFE ≠ 0 then
      ⟨.error (.invalidVarint (pos + 1)), pos + 1, [(b, shift)]⟩
    else if b &&& 0x80 = 0 then ⟨.ok (withByte word shift b), pos + 1, [(b, shift)]⟩
    else
      let behind := walk (withByte word shift b) (shift + 7) (pos + 1) bs
      { behind with looks := (b, shift) :: behind.looks }

/-- The walk comes to what the reader says, with the number in its place in the word. -/
def Walk.Tells (w : Walk) (place : Nat → Nat) : EStateM.Result FieldError Cursor Nat → Prop
  | .ok n c => w.pos = c.pos ∧ ∃ word, w.outcome = .ok word ∧ word.toNat = place n
  | .error e c => w.pos = c.pos ∧ w.outcome = .error e

theorem high_bit_clear (b : UInt8) : b &&& 0x80 = 0 ↔ b.toNat < 128 := by
  have bits : ∀ n < 256, n &&& 0x80 = 0 ↔ n < 128 := by decide +kernel
  rw [← UInt8.toNat_inj, UInt8.toNat_and]
  exact bits b.toNat b.toNat_lt

theorem upper_bits_clear (b : UInt8) : b &&& 0xFE = 0 ↔ b.toNat < 2 := by
  have bits : ∀ n < 256, n &&& 0xFE = 0 ↔ n < 2 := by decide +kernel
  rw [← UInt8.toNat_inj, UInt8.toNat_and]
  exact bits b.toNat b.toNat_lt

/-- Bits that are moved above those of a word, and not beyond its end, are added to it. -/
theorem toNat_withByte {word : UInt64} {shift : Nat} {b : UInt8} (place : shift < 64)
    (below : word.toNat < Nat.pow 2 shift)
    (room : Nat.pow 2 shift * (b.toNat % 128) < 0x10000000000000000) :
    (withByte word shift b).toNat = word.toNat + Nat.pow 2 shift * (b.toNat % 128) := by
  have amount : (UInt64.ofNat shift).toNat % 64 = shift := by
    rw [UInt64.toNat_ofNat_of_lt' (by simp only [UInt64.size]; omega), Nat.mod_eq_of_lt place]
  have digit : (b &&& 0x7F).toUInt64.toNat = b.toNat % 128 := by
    rw [UInt8.toNat_toUInt64, UInt8.toNat_and]
    exact Nat.and_two_pow_sub_one_eq_mod b.toNat 7
  calc (withByte word shift b).toNat
      = word.toNat ||| Nat.pow 2 shift * (b.toNat % 128) % 0x10000000000000000 := by
        rw [withByte, UInt64.toNat_or, UInt64.toNat_shiftLeft, amount, digit, Nat.shiftLeft_eq,
          Nat.mul_comm]
        rfl
    _ = word.toNat ||| Nat.pow 2 shift * (b.toNat % 128) := by rw [Nat.mod_eq_of_lt room]
    _ = Nat.pow 2 shift * (b.toNat % 128) ||| word.toNat := Nat.or_comm ..
    _ = Nat.pow 2 shift * (b.toNat % 128) + word.toNat :=
        (Nat.two_pow_add_eq_or_of_lt below _).symm
    _ = word.toNat + Nat.pow 2 shift * (b.toNat % 128) := Nat.add_comm ..

theorem walk_last (word : UInt64) (pos : Nat) (b : UInt8) (bs : List UInt8) :
    walk word 63 pos (b :: bs) =
      if b.toNat < 2 then ⟨.ok (withByte word 63 b), pos + 1, [(b, 63)]⟩
      else ⟨.error (.invalidVarint (pos + 1)), pos + 1, [(b, 63)]⟩ := by
  by_cases small : b.toNat < 2
  · have clear := (upper_bits_clear b).mpr small
    rw [walk, if_neg (fun large => large.2 clear), if_pos ((high_bit_clear b).mpr (by omega)),
      if_pos small]
  · rw [walk, if_pos ⟨rfl, fun clear => small ((upper_bits_clear b).mp clear)⟩, if_neg small]

section

variable {shift : Nat} {b : UInt8} (word : UInt64) (early : shift < 63) (pos : Nat)
  (bs : List UInt8)

include early

theorem walk_low (low : b.toNat < 128) : walk word shift pos (b :: bs) =
    ⟨.ok (withByte word shift b), pos + 1, [(b, shift)]⟩ := by
  rw [walk, if_neg (by omega), if_pos ((high_bit_clear b).mpr low)]

theorem walk_high (high : 128 ≤ b.toNat) : walk word shift pos (b :: bs) =
    let behind := walk (withByte word shift b) (shift + 7) (pos + 1) bs
    { behind with looks := (b, shift) :: behind.looks } := by
  have set : ¬ b &&& 0x80 = 0 := fun clear => by
    have := (high_bit_clear b).mp clear
    omega
  rw [walk, if_neg (by omega), if_neg set]

end

/-- With the places taken so far and those that the bytes still allowed can take, the word is full
but for the last place, which takes one bit. -/
theorem walk_tells (more shift : Nat) (full : shift + 7 * more = 63) (word : UInt64)
    (below : word.toNat < Nat.pow 2 shift) (pos : Nat) (bs : List UInt8) :
    (walk word shift pos bs).Tells (word.toNat + Nat.pow 2 shift * ·)
      (varintWithin more (facing pos bs)) := by
  induction more generalizing shift word pos bs with
  | zero =>
    cases bs with
    | nil => exact ⟨rfl, rfl⟩
    | cons b bs =>
      have last : shift = 63 := by omega
      subst last
      rw [varintWithin_last, walk_last]
      by_cases small : b.toNat < 2
      · have top : Nat.pow 2 63 = 0x8000000000000000 := by decide
        have added := toNat_withByte (b := b) (by omega) below (by rw [top]; omega)
        rw [Nat.mod_eq_of_lt (by omega)] at added
        rw [if_pos small, if_pos small]
        exact ⟨rfl, _, rfl, added⟩
      · rw [if_neg small, if_neg small]
        exact ⟨rfl, rfl⟩
  | succ more ih =>
    cases bs with
    | nil =>
      rw [varintWithin_nil]
      exact ⟨rfl, rfl⟩
    | cons b bs =>
      have grown : Nat.pow 2 (shift + 7) = Nat.pow 2 shift * 128 := Nat.pow_add 2 shift 7
      have room : Nat.pow 2 (shift + 7) ≤ 0x8000000000000000 :=
        Nat.pow_le_pow_right Nat.zero_lt_two (by omega : shift + 7 ≤ 63)
      have digit := Nat.mul_le_mul_left (Nat.pow 2 shift) (by omega : b.toNat % 128 ≤ 127)
      have added := toNat_withByte (b := b) (by omega) below (by omega)
      by_cases high : 128 ≤ b.toNat
      · -- seven bits on top of a word below `shift` leave it below the next place
        have inside : (withByte word shift b).toNat < Nat.pow 2 (shift + 7) := by omega
        have behind := ih (shift + 7) (by omega) _ inside (pos + 1) bs
        rw [varintWithin_high high, walk_high word (by omega) pos bs high]
        rw [added] at behind
        cases read : varintWithin more (facing (pos + 1) bs) with
        | error e c =>
          rw [read] at behind
          rw [bind_of_error read]
          exact behind
        | ok n c =>
          rw [read] at behind
          obtain ⟨stopped, total, done, counted⟩ := behind
          rw [bind_of_ok read]
          refine ⟨stopped, total, done, ?_⟩
          simp only [counted, grown, Nat.mul_add, Nat.mul_assoc, Nat.add_assoc]
      · have low : b.toNat < 128 := by omega
        rw [Nat.mod_eq_of_lt low] at added
        rw [varintWithin_low low, walk_low word (by omega) pos bs low]
        exact ⟨rfl, _, rfl, added⟩

/-- The walk looks at the bytes in turn, at no more than are allowed, and stays in the word. -/
theorem walk_looks (more shift : Nat) (full : shift + 7 * more = 63) (word : UInt64)
    (pos : Nat) (bs : List UInt8) :
    let w := walk word shift pos bs
    w.looks.map Prod.fst = bs.take w.looks.length ∧ w.pos = pos + w.looks.length ∧
      w.looks.length ≤ more + 1 ∧ ∀ look ∈ w.looks, look.2 ≤ 63 := by
  induction more generalizing shift word pos bs with
  | zero =>
    cases bs with
    | nil => simp [walk]
    | cons b bs =>
      have last : shift = 63 := by omega
      subst last
      rw [walk_last]
      split <;> simp
  | succ more ih =>
    cases bs with
    | nil => simp [walk]
    | cons b bs =>
      by_cases high : 128 ≤ b.toNat
      · obtain ⟨bytes, stopped, few, places⟩ :=
          ih (shift + 7) (by omega) (withByte word shift b) (pos + 1) bs
        rw [walk_high word (by omega) pos bs high]
        refine ⟨?_, ?_, Nat.succ_le_succ few, ?_⟩
        · rw [List.map_cons, bytes, List.length_cons, List.take_succ_cons]
        · rw [stopped, List.length_cons, Nat.add_assoc, Nat.add_comm 1]
        · exact List.forall_mem_cons.mpr ⟨by omega, places⟩
      · rw [walk_low word (by omega) pos bs (by omega)]
        refine ⟨rfl, rfl, Nat.le_add_left 1 _, fun look here => ?_⟩
        cases List.mem_singleton.mp here
        omega

/-- What is behind the bytes allowed makes no difference. -/
theorem walk_take (more shift : Nat) (full : shift + 7 * more = 63) (word : UInt64) (pos : Nat)
    (bs : List UInt8) : walk word shift pos (bs.take (more + 1)) = walk word shift pos bs := by
  induction more generalizing shift word pos bs with
  | zero =>
    cases bs with
    | nil => rfl
    | cons b bs =>
      have last : shift = 63 := by omega
      subst last
      rw [List.take_succ_cons, walk_last, walk_last]
  | succ more ih =>
    cases bs with
    | nil => rfl
    | cons b bs =>
      rw [List.take_succ_cons]
      by_cases high : 128 ≤ b.toNat
      · rw [walk_high word (by omega) pos _ high, walk_high word (by omega) pos _ high,
          ih (shift + 7) (by omega)]
      · rw [walk_low word (by omega) pos _ (by omega), walk_low word (by omega) pos _ (by omega)]

end Varint

namespace Cursor

open Varint

/-- The bytes that are read as a number are those of which no more than ten belong to it and whose
low seven bits make a number of 64 bits. Where fewer than ten are left and none is the last, they
end too early, and all others are malformed at the tenth. Ten bytes at most are looked at, and no
bit is moved out of the word. -/
theorem varint_language (c : Cursor) :
    (∀ n d, varint c = .ok n d ↔
      lead c.rest < c.rest.length ∧ lead c.rest + 1 ≤ 10 ∧ value c.rest < 0x10000000000000000 ∧
      n = value c.rest ∧ d = facing (c.pos + lead c.rest + 1) (c.rest.drop (lead c.rest + 1))) ∧
    (∀ e d, varint c = .error e d ↔
      (c.rest.length < 10 ∧ (∀ b ∈ c.rest, 128 ≤ b.toNat) ∧
        e = .truncated c.size ∧ d = facing c.size []) ∨
      ((∀ b ∈ c.rest.take 9, 128 ≤ b.toNat) ∧ (∃ b, c.rest[9]? = some b ∧ 1 < b.toNat) ∧
        e = .invalidVarint (c.pos + 10) ∧ d = facing (c.pos + 10) (c.rest.drop 10))) ∧
    let w := walk 0 0 c.pos c.rest
    w.Tells id (varint c) ∧ w = walk 0 0 c.pos (c.rest.take 10) ∧
      w.looks.map Prod.fst = c.rest.take w.looks.length ∧ w.pos = c.pos + w.looks.length ∧
      w.looks.length ≤ 10 ∧ ∀ look ∈ w.looks, look.2 ≤ 63 := by
  have read : varint c = varintWithin 9 (facing c.pos c.rest) :=
    congrArg (varintWithin 9) c.eq_facing
  have tells := walk_tells 9 0 rfl 0 (by decide) c.pos c.rest
  have unmoved : (UInt64.toNat 0 + Nat.pow 2 0 * · : Nat → Nat) = id := by
    funext n
    simp
  rw [unmoved] at tells
  rw [read, c.size_eq]
  refine ⟨?_, ?_, tells, (walk_take 9 0 rfl 0 c.pos c.rest).symm,
    walk_looks 9 0 rfl 0 c.pos c.rest⟩
  · intro n d
    have room : lead c.rest + 1 ≤ 10 ↔ lead c.rest ≤ 9 := by omega
    have bits : 2 * Nat.pow 128 9 = 0x10000000000000000 := by decide
    rw [varintWithin_eq_ok, Spelled, and_assoc, and_assoc, room, bits]
  · intro e d
    have few : c.rest.length < 10 ↔ c.rest.length ≤ 9 := by omega
    rw [varintWithin_eq_error, CutOff, Malformed, and_assoc, and_assoc, few]

end Cursor

end TagCodec
