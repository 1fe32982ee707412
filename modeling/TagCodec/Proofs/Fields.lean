import TagCodec.Bytes.Cursor
import TagCodec.Proofs.Steps

namespace TagCodec

open Steps

namespace Varint

theorem toNat_ofNat_byte {n : Nat} (h : n < 256) : (UInt8.ofNat n).toNat = n :=
  UInt8.toNat_ofNat_of_lt' h

theorem encode_small {n : Nat} (h : n < 128) : encode n = [UInt8.ofNat n] := by
  rw [encode, if_pos h]

theorem encode_large {n : Nat} (h : 128 ≤ n) :
    encode n = UInt8.ofNat (n % 128 + 128) :: encode (n / 128) := by
  rw [encode, if_neg (by omega)]

/-- Each further byte has room for seven more bits. -/
theorem pow_succ (more : Nat) : Nat.pow 128 (more + 1) = Nat.pow 128 more * 128 := rfl

theorem zigzag_lt {x : Int} {k : Nat} (lower : -(k : Int) ≤ x) (upper : x < k) :
    zigzag x < 2 * k := by
  unfold zigzag
  split <;> omega

end Varint

namespace Cursor

/-- The cursor at a position with these bytes still in front of it. -/
def facing (pos : Nat) (bs : List UInt8) : Cursor := ⟨pos, bs, pos + bs.length, rfl⟩

theorem eq_facing (c : Cursor) : c = facing c.pos c.rest := by
  obtain ⟨pos, rest, size, h⟩ := c
  subst h
  rfl

theorem ofList_eq_facing (bs : List UInt8) : ofList bs = facing 0 bs := by
  simp only [ofList, facing, Nat.zero_add]

theorem advance_facing {pos : Nat} {bs rest : List UInt8}
    (h : (facing pos (bs ++ rest)).pos + bs.length ≤ (facing pos (bs ++ rest)).size) :
    (facing pos (bs ++ rest)).advance bs.length h = facing (pos + bs.length) rest := by
  simp only [advance, facing, List.drop_left, List.length_append, Nat.add_assoc]

theorem byte_cons (pos : Nat) (b : UInt8) (rest : List UInt8) :
    byte (facing pos (b :: rest)) = .ok b (facing (pos + 1) rest) := by
  simp only [byte, facing, advance, List.drop_one, List.tail_cons, List.length_cons]
  congr 2
  omega

/-- Each further byte has room for seven more bits. -/
theorem varintWithin_encode {more n : Nat} (h : n < 2 * Nat.pow 128 more) (pos : Nat)
    (rest : List UInt8) :
    varintWithin more (facing pos (Varint.encode n ++ rest)) =
      .ok n (facing (pos + (Varint.encode n).length) rest) := by
  induction more generalizing n pos with
  | zero =>
    have small : n < 2 := h
    have value : (UInt8.ofNat n).toNat = n := Varint.toNat_ofNat_byte (by omega)
    rw [Varint.encode_small (by omega), List.singleton_append, varintWithin,
      bind_of_ok (byte_cons ..), value, if_pos small]
    rfl
  | succ more ih =>
    by_cases small : n < 128
    · have value : (UInt8.ofNat n).toNat = n := Varint.toNat_ofNat_byte (by omega)
      rw [Varint.encode_small small, List.singleton_append, varintWithin,
        bind_of_ok (byte_cons ..), value, if_pos small]
      rfl
    · have value : (UInt8.ofNat (n % 128 + 128)).toNat = n % 128 + 128 :=
        Varint.toNat_ofNat_byte (by omega)
      have high : n / 128 < 2 * Nat.pow 128 more := by
        rw [Varint.pow_succ] at h
        omega
      rw [Varint.encode_large (by omega), List.cons_append, varintWithin,
        bind_of_ok (byte_cons ..), value, if_neg (by omega), bind_of_ok (ih high (pos + 1)),
        pure_run, List.length_cons]
      congr 2 <;> omega

theorem varint_encode {n : Nat} (h : n < 0x10000000000000000) (pos : Nat) (rest : List UInt8) :
    varint (facing pos (Varint.encode n ++ rest)) =
      .ok n (facing (pos + (Varint.encode n).length) rest) :=
  varintWithin_encode (Nat.lt_of_lt_of_le h (by decide)) pos rest

theorem varintWithin_large {more n : Nat} (h : 2 * Nat.pow 128 more ≤ n) (pos : Nat)
    (rest : List UInt8) :
    ∃ e c, varintWithin more (facing pos (Varint.encode n ++ rest)) = .error e c := by
  induction more generalizing n pos with
  | zero =>
    have large : 2 ≤ n := h
    obtain ⟨b, bs, spelled, byte⟩ : ∃ b bs, Varint.encode n = b :: bs ∧ ¬ b.toNat < 2 := by
      by_cases small : n < 128
      · exact ⟨_, _, Varint.encode_small small, by rw [Varint.toNat_ofNat_byte] <;> omega⟩
      · exact ⟨_, _, Varint.encode_large (by omega), by rw [Varint.toNat_ofNat_byte] <;> omega⟩
    rw [spelled, List.cons_append, varintWithin, bind_of_ok (byte_cons ..), if_neg byte]
    exact ⟨_, _, rfl⟩
  | succ more ih =>
    have unit : 0 < Nat.pow 128 more := Nat.pow_pos (by omega)
    rw [Varint.pow_succ] at h
    have value : (UInt8.ofNat (n % 128 + 128)).toNat = n % 128 + 128 :=
      Varint.toNat_ofNat_byte (by omega)
    obtain ⟨e, c, failed⟩ := ih (n := n / 128) (by omega) (pos + 1)
    rw [Varint.encode_large (by omega), List.cons_append, varintWithin,
      bind_of_ok (byte_cons ..), value, if_neg (by omega), bind_of_error failed]
    exact ⟨e, c, rfl⟩

theorem varintWithin_lt {more : Nat} {c c' : Cursor} (h : varintWithin more c = .ok n c') :
    n < 2 * Nat.pow 128 more := by
  induction more generalizing n c with
  | zero =>
    obtain ⟨b, d, _, h⟩ := bind_eq_ok.mp h
    split at h
    · rename_i small
      cases h
      exact small
    · obtain ⟨_, _, _, h⟩ := bind_eq_ok.mp h
      cases h
  | succ more ih =>
    obtain ⟨b, d, _, h⟩ := bind_eq_ok.mp h
    have power : 0 < Nat.pow 128 more := Nat.pow_pos (by omega)
    rw [Varint.pow_succ]
    split at h
    · cases h
      omega
    · obtain ⟨high, e, more, h⟩ := bind_eq_ok.mp h
      cases h
      have := ih more
      omega

theorem sint32_encode (x : Int32) (pos : Nat) (rest : List UInt8) :
    sint32 (facing pos ((Item.sint32 x).encode ++ rest)) =
      .ok x (facing (pos + (Item.sint32 x).encode.length) rest) := by
  have small : Varint.zigzag x.toInt < 0x100000000 :=
    Varint.zigzag_lt (k := 0x80000000) (Int32.le_toInt x) (Int32.toInt_lt x)
  have number := varint_encode (by omega : Varint.zigzag x.toInt < 0x10000000000000000) pos rest
  unfold sint32
  rw [bind_of_ok (get_run _)]
  simp only [Item.encode]
  rw [bind_of_ok number, if_pos small, pure_run, Varint.unzigzag_zigzag, Int32.ofInt_toInt]

theorem tag_encode (t : Tag) (pos : Nat) (rest : List UInt8) :
    tag (facing pos ((Item.tag t).encode ++ rest)) =
      .ok t (facing (pos + (Item.tag t).encode.length) rest) :=
  bind_of_ok (sint32_encode t.val pos rest)

theorem take_append (bs rest : List UInt8) (pos : Nat) :
    take bs.length (facing pos (bs ++ rest)) = .ok bs (facing (pos + bs.length) rest) := by
  have fits : (facing pos (bs ++ rest)).pos + bs.length ≤ (facing pos (bs ++ rest)).size := by
    simp only [facing, List.length_append]
    omega
  rw [take, dif_pos fits, advance_facing fits]
  simp only [facing, List.take_left]

theorem bytes_encode {bs : List UInt8} (h : bs.length < 0x10000000000000000) (pos : Nat)
    (rest : List UInt8) :
    bytes (facing pos ((Item.bytes bs).encode ++ rest)) =
      .ok bs (facing (pos + (Item.bytes bs).encode.length) rest) := by
  simp only [Item.encode, List.append_assoc, List.length_append]
  unfold bytes
  rw [bind_of_ok (varint_encode h pos _), take_append, Nat.add_assoc]

theorem fromUTF8_bytes (s : String) :
    String.fromUTF8? ⟨s.toUTF8.data.toList.toArray⟩ = some s := by
  rw [Array.toArray_toList]
  simp only [String.fromUTF8?, String.toUTF8_eq_toByteArray, dif_pos s.isValidUTF8]
  rfl

theorem text_encode {s : String} (h : s.utf8ByteSize < 0x10000000000000000) (pos : Nat)
    (rest : List UInt8) :
    text (facing pos ((Item.text s).encode ++ rest)) =
      .ok s (facing (pos + (Item.text s).encode.length) rest) := by
  have length : s.toUTF8.data.toList.length < 0x10000000000000000 := h
  have field := bytes_encode length pos rest
  unfold text
  apply (bind_of_ok field).trans
  rw [fromUTF8_bytes]
  rfl

theorem bytes_large {bs : List UInt8} (h : 0x10000000000000000 ≤ bs.length) (pos : Nat)
    (rest : List UInt8) :
    ∃ e c, bytes (facing pos ((Item.bytes bs).encode ++ rest)) = .error e c := by
  have large : 2 * Nat.pow 128 9 ≤ bs.length := Nat.le_trans (by decide) h
  obtain ⟨e, c, failed⟩ := varintWithin_large large pos (bs ++ rest)
  rw [Item.encode, List.append_assoc]
  exact ⟨e, c, bind_of_error failed⟩

theorem text_large {s : String} (h : 0x10000000000000000 ≤ s.utf8ByteSize) (pos : Nat)
    (rest : List UInt8) :
    ∃ e c, text (facing pos ((Item.text s).encode ++ rest)) = .error e c := by
  have length : 0x10000000000000000 ≤ s.toUTF8.data.toList.length := h
  obtain ⟨e, c, failed⟩ := bytes_large length pos rest
  exact ⟨e, c, bind_of_error failed⟩

end Cursor

end TagCodec
