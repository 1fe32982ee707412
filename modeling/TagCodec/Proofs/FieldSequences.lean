import TagCodec.Bytes.Output
import TagCodec.Proofs.Fields

namespace TagCodec

open Steps

namespace Varint

theorem ofNat_cons_inj {a b : Nat} {as bs : List UInt8} (ha : a < 256) (hb : b < 256)
    (h : UInt8.ofNat a :: as = UInt8.ofNat b :: bs) : a = b ∧ as = bs := by
  obtain ⟨head, tail⟩ := List.cons.inj h
  have value := congrArg UInt8.toNat head
  rw [toNat_ofNat_byte ha, toNat_ofNat_byte hb] at value
  exact ⟨value, tail⟩

/-- No spelling is the beginning of another one. -/
theorem encode_append_inj {m n : Nat} (h : encode m ++ s = encode n ++ t) : m = n ∧ s = t := by
  induction m using Nat.strongRecOn generalizing n with
  | ind m ih =>
    rcases Nat.lt_or_ge m 128 with low | high <;> rcases Nat.lt_or_ge n 128 with low' | high'
    · rw [encode_small low, encode_small low'] at h
      exact ofNat_cons_inj (by omega) (by omega) h
    -- a last byte is below 128 and all others are not, so that the first bytes differ
    · rw [encode_small low, encode_large high'] at h
      obtain ⟨_, _⟩ := ofNat_cons_inj (by omega) (by omega) h
      omega
    · rw [encode_large high, encode_small low'] at h
      obtain ⟨_, _⟩ := ofNat_cons_inj (by omega) (by omega) h
      omega
    · rw [encode_large high, encode_large high'] at h
      obtain ⟨digit, rest⟩ := ofNat_cons_inj (by omega) (by omega) h
      obtain ⟨quotient, behind⟩ := ih (m / 128) (by omega) rest
      exact ⟨by omega, behind⟩

theorem zigzag_inj {x y : Int} (h : zigzag x = zigzag y) : x = y := by
  rw [← unzigzag_zigzag x, h, unzigzag_zigzag]

end Varint

namespace Item

/-- The length in front of the field has 64 bits, which is enough for what a memory can hold. -/
def Short : Item → Prop
  | bytes bs => bs.length < 0x10000000000000000
  | text s => s.utf8ByteSize < 0x10000000000000000
  | _ => True

theorem bytes_encode_append_inj {as bs : List UInt8}
    (h : (bytes as).encode ++ s = (bytes bs).encode ++ t) : as = bs ∧ s = t := by
  simp only [encode, List.append_assoc] at h
  obtain ⟨length, behind⟩ := Varint.encode_append_inj h
  exact List.append_inj behind length

/-- The bytes of a field tell its content and where it ends. -/
theorem encode_append_inj {x y : Item} (kinds : x.kind = y.kind)
    (h : x.encode ++ s = y.encode ++ t) : x = y ∧ s = t := by
  cases x <;> cases y <;> try cases kinds
  case varint m n =>
    obtain ⟨same, behind⟩ := Varint.encode_append_inj h
    exact ⟨congrArg varint (UInt64.toNat_inj.mp same), behind⟩
  case sint32 x y =>
    obtain ⟨same, behind⟩ := Varint.encode_append_inj h
    exact ⟨congrArg sint32 (Int32.toInt_inj.mp (Varint.zigzag_inj same)), behind⟩
  case tag x y =>
    obtain ⟨same, behind⟩ := Varint.encode_append_inj h
    have tags := congrArg Tag.ofInt (Varint.zigzag_inj same)
    rw [Tag.ofInt_toInt, Tag.ofInt_toInt] at tags
    exact ⟨congrArg tag tags, behind⟩
  case bytes as bs =>
    obtain ⟨rfl, behind⟩ := bytes_encode_append_inj h
    exact ⟨rfl, behind⟩
  case text a b =>
    obtain ⟨same, behind⟩ :=
      @bytes_encode_append_inj s t a.toUTF8.data.toList b.toUTF8.data.toList h
    have texts := congrArg (fun bs : List UInt8 => String.fromUTF8? ⟨bs.toArray⟩) same
    rw [Cursor.fromUTF8_bytes, Cursor.fromUTF8_bytes] at texts
    exact ⟨congrArg text (Option.some.inj texts), behind⟩

/-- Fields of the same kinds with the same bytes are the same fields. -/
theorem eq_of_flatMap_encode {xs ys : List Item} (kinds : xs.map kind = ys.map kind)
    (h : xs.flatMap encode = ys.flatMap encode) : xs = ys := by
  induction xs generalizing ys with
  | nil => exact (List.map_eq_nil_iff.mp kinds.symm).symm
  | cons x xs ih =>
    cases ys with
    | nil => cases kinds
    | cons y ys =>
      obtain ⟨first, others⟩ := List.cons.inj kinds
      rw [List.flatMap_cons, List.flatMap_cons] at h
      obtain ⟨rfl, behind⟩ := encode_append_inj first h
      rw [ih others behind]

end Item

namespace Output

theorem size_eq_length (out : Output) : out.size = out.toList.length := rfl

theorem size_put (out : Output) (x : Item) : (out.put x).size = out.size + x.encode.length := by
  rw [size_eq_length, toList_put, List.length_append, size_eq_length]

/-- How large the buffer is after each of the fields. -/
def sizes (out : Output) : List Item → List Nat
  | [] => []
  | x :: xs => (out.put x).size :: (out.put x).sizes xs

end Output

namespace Cursor

theorem pos_add_length_le (bs rest : List UInt8) :
    (ofList (bs ++ rest)).pos + bs.length ≤ (ofList (bs ++ rest)).size := by
  simp only [ofList, List.length_append]
  omega

theorem advance_ofList {bs rest : List UInt8}
    (h : (ofList (bs ++ rest)).pos + bs.length ≤ (ofList (bs ++ rest)).size) :
    (ofList (bs ++ rest)).advance bs.length h = facing bs.length rest := by
  simp [advance, ofList, facing]

/-- Fields of these kinds in turn, each with the position that its read has come to. -/
def items : List Item.Kind → Read (List (Item × Nat))
  | [] => return []
  | kind :: kinds => do
    let x ← item kind
    let place := (← get).pos
    return (x, place) :: (← items kinds)

theorem item_encode {x : Item} (short : x.Short) (pos : Nat) (rest : List UInt8) :
    item x.kind (facing pos (x.encode ++ rest)) =
      .ok x (facing (pos + x.encode.length) rest) := by
  cases x with
  | varint n =>
    apply (bind_of_ok (varint_encode n.toNat_lt pos rest)).trans
    rw [pure_run, UInt64.ofNat_toNat]
    rfl
  | sint32 x => exact bind_of_ok (sint32_encode x pos rest)
  | tag t => exact bind_of_ok (tag_encode t pos rest)
  | bytes bs => exact bind_of_ok (bytes_encode short pos rest)
  | text s => exact bind_of_ok (text_encode short pos rest)

theorem item_large {x : Item} (large : ¬ x.Short) (pos : Nat) (rest : List UInt8) :
    ∃ e c, item x.kind (facing pos (x.encode ++ rest)) = .error e c := by
  cases x with
  | varint n => exact absurd trivial large
  | sint32 x => exact absurd trivial large
  | tag t => exact absurd trivial large
  | bytes bs =>
    obtain ⟨e, c, failed⟩ := bytes_large (Nat.not_lt.mp large) pos rest
    exact ⟨e, c, bind_of_error failed⟩
  | text s =>
    obtain ⟨e, c, failed⟩ := text_large (Nat.not_lt.mp large) pos rest
    exact ⟨e, c, bind_of_error failed⟩

/-- One field after the other, whatever the buffer was when the first one came to it. -/
theorem items_encode (out : Output) {xs : List Item} (rest : List UInt8) :
    items (xs.map Item.kind) (facing out.size (xs.flatMap Item.encode ++ rest)) =
        .ok (xs.zip (out.sizes xs)) (facing (xs.foldl Output.put out).size rest) ↔
      ∀ x ∈ xs, x.Short := by
  induction xs generalizing out with
  | nil => simp [items, Output.sizes]
  | cons x xs ih =>
    rw [List.map_cons, items, List.flatMap_cons, List.append_assoc, List.forall_mem_cons]
    by_cases short : x.Short
    · have first := item_encode short out.size (xs.flatMap Item.encode ++ rest)
      rw [← Output.size_put] at first
      rw [bind_of_ok first, bind_of_ok (get_run _), bind_eq_ok, Output.sizes, List.zip_cons_cons,
        and_iff_right short, ← ih (out.put x)]
      constructor
      · rintro ⟨others, c, read, made⟩
        cases made
        exact read
      · intro read
        exact ⟨_, _, read, rfl⟩
    · obtain ⟨e, c, failed⟩ := item_large short out.size (xs.flatMap Item.encode ++ rest)
      rw [bind_of_error failed]
      exact ⟨nofun, fun all => absurd all.1 short⟩

/-- Whatever is in the buffer before and whatever comes later, the fields are read back with the
positions that the buffer had when they were written. The one thing that a memory does not hold is
excluded: bytes or a text whose length has more than 64 bits. What is written tells the fields. -/
theorem fields_read_back (out : Output) (xs : List Item) (later : List UInt8) :
    (∃ h, items (xs.map Item.kind)
        ((ofList ((xs.foldl Output.put out).toList ++ later)).advance out.size h) =
          .ok (xs.zip (out.sizes xs)) (facing (xs.foldl Output.put out).size later) ↔
        ∀ x ∈ xs, x.Short) ∧
    ∀ ys : List Item, ys.map Item.kind = xs.map Item.kind →
      (ys.foldl Output.put out).toList = (xs.foldl Output.put out).toList → ys = xs := by
  constructor
  · have whole : (xs.foldl Output.put out).toList ++ later =
        out.toList ++ (xs.flatMap Item.encode ++ later) := by
      rw [Output.toList_foldl_put, List.append_assoc]
    rw [whole]
    refine ⟨pos_add_length_le out.toList _, Iff.trans ?_ (items_encode out later)⟩
    exact iff_of_eq (congrArg (items _ · = _) (advance_ofList _))
  · intro ys kinds same
    rw [Output.toList_foldl_put, Output.toList_foldl_put] at same
    exact Item.eq_of_flatMap_encode kinds (List.append_cancel_left same)

end Cursor

end TagCodec
