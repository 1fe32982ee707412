import TagCodec.Proofs.FieldSequences
import TagCodec.Proofs.ShortestSpelling

namespace TagCodec

open Steps

namespace Varint

/-- One place to the left, and turned over if the number is negative. -/
def foldWord (x : Int32) : UInt32 := (x <<< 1 ^^^ x >>> 31).toUInt32

/-- One place to the right, and turned over if the lowest bit was set. -/
def unfoldWord (u : UInt32) : Int32 := (u >>> 1).toInt32 ^^^ -(u &&& 1).toInt32

/-- A word whose highest bit is not set means the same with a sign. -/
theorem toInt_toInt32 {u : UInt32} (h : u.toNat < 0x80000000) : u.toInt32.toInt = u.toNat := by
  apply BitVec.toInt_eq_toNat_of_lt
  change 2 * u.toNat < 0x100000000
  omega

theorem toInt_half (u : UInt32) : (u >>> 1).toInt32.toInt = (u.toNat / 2 : Nat) := by
  have half : (u >>> 1).toNat = u.toNat / 2 := by
    rw [UInt32.toNat_shiftRight]
    exact Nat.shiftRight_eq_div_pow u.toNat 1
  have bound := u.toNat_lt
  rw [← half]
  apply toInt_toInt32
  omega

theorem toNat_lowest (u : UInt32) : (u &&& 1).toNat = u.toNat % 2 := by
  rw [UInt32.toNat_and]
  exact Nat.and_one_is_mod u.toNat

theorem lowest_even {u : UInt32} (h : u.toNat % 2 = 0) : u &&& 1 = 0 := by
  rw [← UInt32.toNat_inj, toNat_lowest, h]
  rfl

theorem lowest_odd {u : UInt32} (h : u.toNat % 2 = 1) : u &&& 1 = 1 := by
  rw [← UInt32.toNat_inj, toNat_lowest, h]
  rfl

/-- The mask is zero or minus one, so that taking the negative never leaves the word. -/
theorem toInt_mask (u : UInt32) : (-(u &&& 1).toInt32).toInt = -(u.toNat % 2 : Nat) := by
  rcases Nat.mod_two_eq_zero_or_one u.toNat with even | odd
  · rw [lowest_even even, even]
    rfl
  · rw [lowest_odd odd, odd]
    rfl

/-- Turned over, a number that stays clear of both ends is one less than its negative. -/
theorem toInt_not_of_bounds {x : Int32} (lower : -0x80000000 < x.toInt) :
    (~~~x).toInt = -x.toInt - 1 := by
  have upper := Int32.toInt_lt x
  rw [Int32.toInt_not]
  apply Int.bmod_eq_of_le <;> omega

theorem toInt_unfoldWord (u : UInt32) : (unfoldWord u).toInt = unzigzag u.toNat := by
  have half := toInt_half u
  unfold unfoldWord unzigzag
  rcases Nat.mod_two_eq_zero_or_one u.toNat with even | odd
  · rw [lowest_even even, if_pos even]
    exact (congrArg Int32.toInt Int32.xor_zero).trans half
  · rw [lowest_odd odd, if_neg (by omega)]
    refine (congrArg Int32.toInt Int32.xor_neg_one).trans ?_
    rw [toInt_not_of_bounds (by omega), half]
    omega

theorem unfoldWord_eq {u : Nat} (h : u < 0x100000000) :
    unfoldWord (UInt32.ofNat u) = Int32.ofInt (unzigzag u) := by
  have value : (UInt32.ofNat u).toNat = u := UInt32.toNat_ofNat_of_lt' h
  rw [← Int32.ofInt_toInt (unfoldWord _), toInt_unfoldWord, value]

/-- Shifted by all its places a word is its sign. -/
theorem shiftRight_sign (x : Int32) : x >>> 31 = if x.toInt < 0 then -1 else 0 := by
  have lower := Int32.le_toInt x
  have upper := Int32.toInt_lt x
  have shifted : (x >>> 31).toInt = x.toInt / 0x80000000 :=
    BitVec.toInt_sshiftRight.trans (Int.shiftRight_eq_div_pow x.toInt 31)
  rw [← Int32.toInt_inj, shifted]
  split
  · change x.toInt / 0x80000000 = -1
    omega
  · change x.toInt / 0x80000000 = 0
    omega

theorem toNat_shiftLeft_one (x : Int32) :
    (x <<< 1).toUInt32.toNat = 2 * x.toUInt32.toNat % 0x100000000 := by
  rw [Nat.mul_comm]
  exact (BitVec.toNat_shiftLeft (x := x.toBitVec) (n := 1)).trans (by rw [Nat.shiftLeft_eq]; rfl)

theorem toInt_eq_toNat (x : Int32) : x.toInt =
    if 2 * x.toUInt32.toNat < 0x100000000 then (x.toUInt32.toNat : Int)
    else x.toUInt32.toNat - 0x100000000 :=
  BitVec.toInt_eq_toNat_cond x.toBitVec

/-- Folding loses nothing. The bit that is shifted out is the sign, which turns the others over. -/
theorem toNat_foldWord (x : Int32) : (foldWord x).toNat = zigzag x.toInt := by
  have shifted := toNat_shiftLeft_one x
  have signed := toInt_eq_toNat x
  have size := x.toUInt32.toNat_lt
  unfold foldWord zigzag
  rw [shiftRight_sign]
  split
  · rw [Int32.xor_neg_one, Int32.toUInt32_not, UInt32.toNat_not, shifted, if_neg (by omega)]
    change 0x100000000 - 1 - 2 * x.toUInt32.toNat % 0x100000000 = _
    omega
  · rw [Int32.xor_zero, shifted, if_pos (by omega)]
    omega

theorem unfoldWord_foldWord (x : Int32) : unfoldWord (foldWord x) = x := by
  rw [← Int32.toInt_inj, toInt_unfoldWord, toNat_foldWord, unzigzag_zigzag]

theorem foldWord_unfoldWord (u : UInt32) : foldWord (unfoldWord u) = u := by
  rw [← UInt32.toNat_inj, toNat_foldWord, toInt_unfoldWord, zigzag_unzigzag]

theorem unfoldWord_eq_iff (u : UInt32) (x : Int32) : unfoldWord u = x ↔ u = foldWord x := by
  constructor
  · rintro rfl
    exact (foldWord_unfoldWord u).symm
  · rintro rfl
    exact unfoldWord_foldWord x

theorem encode_sint32 (x : Int32) : (Item.sint32 x).encode = encode (foldWord x).toNat := by
  rw [toNat_foldWord]
  rfl

theorem encode_inj {m n : Nat} (h : encode m = encode n) : m = n :=
  (encode_append_inj (congrArg (· ++ []) h)).1

/-- What a word stands for. Halving it and taking the mask's negative are exact, and the number is
the one that is written as this word. -/
structure Signifies (u : UInt32) (x : Int32) : Prop where
  value : x.toInt = if u.toNat % 2 = 0 then (u.toNat : Int) / 2 else -((u.toNat + 1 : Int) / 2)
  negative : x.toInt < 0 ↔ u.toNat % 2 = 1
  half : (u >>> 1).toInt32.toInt = (u.toNat / 2 : Nat)
  mask : (-(u &&& 1).toInt32).toInt = -(u.toNat % 2 : Nat)
  written : ∀ y, (Item.sint32 y).encode = encode u.toNat ↔ x = y

theorem signifies_unfoldWord (u : UInt32) : Signifies u (unfoldWord u) := by
  have value := toInt_unfoldWord u
  unfold unzigzag at value
  constructor
  · rw [value]
    split <;> omega
  · rw [value]
    split <;> omega
  · exact toInt_half u
  · exact toInt_mask u
  · intro y
    rw [encode_sint32, unfoldWord_eq_iff]
    constructor
    · exact fun same => UInt32.toNat_inj.mp (encode_inj same.symm)
    · rintro rfl
      rfl

end Varint

namespace Cursor

open Varint

variable {c d : Cursor}

theorem sint32_eq (c : Cursor) : sint32 c = (varint >>= fun n =>
    if n < 0x100000000 then pure (Int32.ofInt (unzigzag n)) else throw (.invalidVarint c.pos)) c :=
  bind_of_ok (get_run c)

theorem sint32_of_error (h : varint c = .error e d) : sint32 c = .error e d := by
  rw [sint32_eq, bind_of_error h]

/-- A number that is too large is refused where it began, and the cursor stays behind it. -/
theorem sint32_of_large (h : varint c = .ok n d) (large : 0x100000000 ≤ n) :
    sint32 c = .error (.invalidVarint c.pos) d := by
  rw [sint32_eq, bind_of_ok h, if_neg (Nat.not_lt.mpr large), throw_run]

theorem sint32_of_word {u : UInt32} (h : varint c = .ok u.toNat d) :
    sint32 c = .ok (unfoldWord u) d := by
  rw [sint32_eq, bind_of_ok h, if_pos u.toNat_lt, pure_run, ← unfoldWord_eq u.toNat_lt,
    UInt32.ofNat_toNat]

theorem sint32_eq_ok {x : Int32} : sint32 c = .ok x d ↔ varint c = .ok (foldWord x).toNat d := by
  constructor
  · intro read
    cases number : varint c with
    | error e f =>
      rw [sint32_of_error number] at read
      cases read
    | ok n f =>
      by_cases small : n < 0x100000000
      · have word : (UInt32.ofNat n).toNat = n := UInt32.toNat_ofNat_of_lt' small
        rw [← word] at number ⊢
        rw [sint32_of_word number] at read
        cases read
        rw [foldWord_unfoldWord]
      · rw [sint32_of_large number (Nat.not_lt.mp small)] at read
        cases read
  · intro number
    rw [sint32_of_word number, unfoldWord_foldWord]

theorem tag_eq_ok {t : Tag} : tag c = .ok t d ↔ sint32 c = .ok t.val d := by
  constructor
  · intro read
    obtain ⟨x, f, number, made⟩ := bind_eq_ok.mp read
    cases made
    exact number
  · exact fun number => bind_of_ok number

theorem tag_of_error (h : sint32 c = .error e d) : tag c = .error e d := bind_of_error h

/-- A signed number is read from a varint below 32 bits, whichever way that is spelled, and from
nothing else. A varint that fails fails alike, and one that is too large is malformed where it
begins. The words of 32 bits and the signed numbers stand for each other one to one. -/
theorem signed_words (c : Cursor) :
    (∀ e d, varint c = .error e d → sint32 c = .error e d ∧ tag c = .error e d) ∧
    (∀ n d, varint c = .ok n d → 0x100000000 ≤ n →
      sint32 c = .error (.invalidVarint c.pos) d ∧ tag c = .error (.invalidVarint c.pos) d) ∧
    (∀ n d, varint c = .ok n d → n < 0x100000000 → ∃ u : UInt32, u.toNat = n ∧
      sint32 c = .ok (unfoldWord u) d ∧ tag c = .ok ⟨unfoldWord u⟩ d) ∧
    (∀ t d, tag c = .ok t d ↔ varint c = .ok (foldWord t.val).toNat d) ∧
    (∀ t, (Item.tag t).encode = Varint.encode (foldWord t.val).toNat) ∧
    (∀ t more rest, more ≤ 9 → (foldWord t.val).toNat < Nat.pow 128 (more + 1) →
      c.rest = spelling (foldWord t.val).toNat more ++ rest →
      tag c = .ok t (facing (c.pos + (more + 1)) rest)) ∧
    (∀ u, Signifies u (unfoldWord u)) ∧ Function.Injective unfoldWord ∧
    Function.Surjective unfoldWord := by
  have tag_eq : ∀ t d, tag c = .ok t d ↔ varint c = .ok (foldWord t.val).toNat d := fun t d =>
    tag_eq_ok.trans sint32_eq_ok
  refine ⟨?_, ?_, ?_, tag_eq, fun t => encode_sint32 t.val, ?_,
    signifies_unfoldWord, ?_, ?_⟩
  · intro e d failed
    exact ⟨sint32_of_error failed, tag_of_error (sint32_of_error failed)⟩
  · intro n d number large
    have refused := sint32_of_large number large
    exact ⟨refused, tag_of_error refused⟩
  · intro n d number small
    have word : (UInt32.ofNat n).toNat = n := UInt32.toNat_ofNat_of_lt' small
    rw [← word] at number
    have read := sint32_of_word number
    exact ⟨UInt32.ofNat n, word, read, tag_eq_ok.mpr read⟩
  · intro t more rest few room here
    have small : (foldWord t.val).toNat < 0x10000000000000000 :=
      Nat.lt_trans (foldWord t.val).toNat_lt (by decide)
    rw [tag_eq, c.eq_facing, varint_eq_ok]
    exact ⟨small, more, rest, few, room, here, rfl⟩
  · intro u v same
    rw [← foldWord_unfoldWord u, same, foldWord_unfoldWord]
  · exact fun x => ⟨foldWord x, unfoldWord_foldWord x⟩

/-- Minus one with two zeros on top, a number one too large and one that is cut off. -/
theorem tags_at_the_limits :
    (varint (ofList [0x81, 0x80, 0x00]) = .ok 1 (facing 3 []) ∧
      ∃ u : UInt32, u.toNat = 1 ∧ sint32 (ofList [0x81, 0x80, 0x00]) =
        .ok (unfoldWord u) (facing 3 [])) ∧
    tag (ofList [0x81, 0x80, 0x00]) = .ok ⟨-1⟩ (facing 3 []) ∧
    (varint (ofList [0x80, 0x80, 0x80, 0x80, 0x10]) = .ok 0x100000000 (facing 5 []) ∧
      tag (ofList [0x80, 0x80, 0x80, 0x80, 0x10]) = .error (.invalidVarint 0) (facing 5 [])) ∧
    varint (ofList [0x80]) = .error (.truncated 1) (facing 1 []) ∧
    tag (ofList [0x80]) = .error (.truncated 1) (facing 1 []) := by
  have spelled : varint (ofList [0x81, 0x80, 0x00]) = .ok 1 (facing 3 []) := by decide
  have large : varint (ofList [0x80, 0x80, 0x80, 0x80, 0x10]) = .ok 0x100000000 (facing 5 []) := by
    decide
  have failed : varint (ofList [0x80]) = .error (.truncated 1) (facing 1 []) := by decide
  obtain ⟨_, _, below, _, _, padded, _⟩ := signed_words (ofList [0x81, 0x80, 0x00])
  obtain ⟨u, word, read, _⟩ := below 1 (facing 3 []) spelled (by decide)
  refine ⟨⟨spelled, u, word, read⟩, ?_, ⟨large, ?_⟩, failed, ?_⟩
  · exact padded ⟨-1⟩ 2 [] (by decide) (by decide) (by decide)
  · exact ((signed_words _).2.1 _ _ large (by decide)).2
  · exact ((signed_words _).1 _ _ failed).2

end Cursor

end TagCodec
