import TagCodec.Proofs.Progress
import TagCodec.Proofs.SignedWords

namespace TagCodec

open Steps

namespace Cursor

/-- The second cursor is some bytes further on in the same buffer. -/
def Along (c d : Cursor) : Prop := ∃ n, ∃ h : c.pos + n ≤ c.size, d = c.advance n h

theorem pos_le_end (c : Cursor) : c.pos ≤ c.size := by
  have := c.size_eq
  omega

theorem Along.refl (c : Cursor) : Along c c := ⟨0, c.pos_le_end, rfl⟩

theorem Along.trans (c d e : Cursor) (h : Along c d) (g : Along d e) : Along c e := by
  obtain ⟨m, hm, rfl⟩ := h
  obtain ⟨n, hn, rfl⟩ := g
  have room : c.pos + (m + n) ≤ c.size := by
    simp only [advance] at hn
    omega
  refine ⟨m + n, room, ?_⟩
  simp only [advance, List.drop_drop, Nat.add_assoc]

theorem Along.onward {c d : Cursor} (h : Along c d) : c.pos ≤ d.pos := by
  obtain ⟨n, _, rfl⟩ := h
  exact Nat.le_add_right c.pos n

theorem Along.size_eq {c d : Cursor} (h : Along c d) : d.size = c.size := by
  obtain ⟨n, _, rfl⟩ := h
  rfl

theorem Along.rest_eq {bs : List UInt8} {c : Cursor} (h : Along (ofList bs) c) :
    c.rest = bs.drop c.pos := by
  obtain ⟨n, _, rfl⟩ := h
  simp only [advance, ofList, Nat.zero_add]

theorem byte_of_cons {c : Cursor} {rest : List UInt8} (h : c.rest = b :: rest) :
    byte c = .ok b (c.advance 1 (pos_lt_size h)) := by
  unfold byte
  split
  · rename_i none
    rw [h] at none
    cases none
  · rename_i some
    rw [h] at some
    cases some
    rfl

theorem byte_along : Keeps Along byte := by
  intro c
  cases h : c.rest with
  | nil =>
    have unmoved : after byte c = c := by
      rw [c.eq_facing, h]
      exact after_of_error (byte_nil c.pos)
    rw [unmoved]
    exact .refl c
  | cons b rest =>
    rw [after_of_ok (byte_of_cons h)]
    exact ⟨1, _, rfl⟩

theorem take_along (n : Nat) : Keeps Along (take n) := by
  intro c
  by_cases fits : c.pos + n ≤ c.size
  · rw [after_of_ok (dif_pos fits)]
    exact ⟨n, fits, rfl⟩
  · rw [after_of_error (dif_neg fits)]
    exact .refl c

theorem varint_along : Keeps Along varint := varintWithin_keeps Along.refl Along.trans byte_along 9

theorem item_along (kind : Item.Kind) : Keeps Along (item kind) :=
  item_keeps Along.refl Along.trans byte_along take_along kind

/-- As long as something is left, the read takes some of it, whether it fails or not. -/
def Moves (x : Read α) : Prop := ∀ c, c.isAtEnd = false → c.pos < (after x c).pos

theorem Moves.bind {x : Read α} {f : α → Read β} (hx : Moves x) (hf : ∀ a, Keeps Along (f a)) :
    Moves (x >>= f) := by
  intro c left
  have first := hx c left
  cases h : x c with
  | ok a d =>
    rw [after_of_ok h] at first
    have same : after (x >>= f) c = after (f a) d := by
      rw [after, bind_of_ok h]
      rfl
    rw [same]
    exact Nat.lt_of_lt_of_le first (hf a d).onward
  | error e d =>
    rw [after_of_error h] at first
    rw [after_of_error (bind_of_error h)]
    exact first

theorem byte_moves : Moves byte := by
  intro c left
  cases h : c.rest with
  | nil =>
    rw [isAtEnd, h] at left
    cases left
  | cons b rest =>
    rw [after_of_ok (byte_of_cons h)]
    exact Nat.lt_succ_self c.pos

theorem varint_moves : Moves varint := by
  refine byte_moves.bind fun b => ?_
  split
  · exact .pure Along.refl _
  · refine .bind Along.trans ?_ fun high => .pure Along.refl _
    exact varintWithin_keeps Along.refl Along.trans byte_along 8

theorem sint32_moves : Moves sint32 := by
  intro c left
  have moved : Moves (varint >>= fun n => if n < 0x100000000 then
      pure (Int32.ofInt (Varint.unzigzag n)) else throw (.invalidVarint c.pos)) := by
    refine varint_moves.bind fun n => ?_
    split
    · exact .pure Along.refl _
    · exact .throw Along.refl _
  have same := moved c left
  rw [after, ← sint32_eq c] at same
  exact same

theorem tag_moves : Moves tag := sint32_moves.bind fun _ => .pure Along.refl _

theorem bytes_moves : Moves bytes := varint_moves.bind take_along

theorem item_moves (kind : Item.Kind) : Moves (item kind) := by
  cases kind with
  | varint => exact varint_moves.bind fun _ => .pure Along.refl _
  | sint32 => exact sint32_moves.bind fun _ => .pure Along.refl _
  | tag => exact tag_moves.bind fun _ => .pure Along.refl _
  | bytes => exact bytes_moves.bind fun _ => .pure Along.refl _
  | text =>
    refine Moves.bind (bytes_moves.bind fun bs => ?_) fun _ => .pure Along.refl _
    split
    · exact .pure Along.refl _
    · exact .throw Along.refl _

/-- A field whose first number cannot be read fails as that number does. -/
theorem item_of_error {c d : Cursor} (h : varint c = .error e d) (kind : Item.Kind) :
    item kind c = .error e d := by
  cases kind with
  | varint => exact bind_of_error h
  | sint32 => exact bind_of_error (sint32_of_error h)
  | tag => exact bind_of_error (tag_of_error (sint32_of_error h))
  | bytes => exact bind_of_error (bind_of_error h)
  | text => exact bind_of_error (bind_of_error (bind_of_error h))

theorem varint_at_end {c : Cursor} (h : c.pos = c.size) :
    varint c = .error (.truncated c.size) c := by
  have nothing : c.rest = [] := by
    have := c.size_eq
    exact List.eq_nil_of_length_eq_zero (by omega)
  rw [← h, c.eq_facing, nothing]
  exact varintWithin_nil 9 c.pos

/-- What the content of a field of text is taken for. -/
def textOf (bs : List UInt8) : Except FieldError Item :=
  match String.fromUTF8? ⟨bs.toArray⟩ with
  | some s => .ok (.text s)
  | none => .error .invalidUtf8

/-- One read: where it began, what came of it and where it stopped. -/
structure Call where
  kind : Item.Kind
  start : Cursor
  outcome : Except FieldError Item
  stop : Cursor

def call (kind : Item.Kind) (c : Cursor) : Call :=
  match item kind c with
  | .ok x d => ⟨kind, c, .ok x, d⟩
  | .error e d => ⟨kind, c, .error e, d⟩

/-- Reads of these kinds in turn. One that fails does not stop the others. -/
def calls : List Item.Kind → Cursor → List Call
  | [], _ => []
  | kind :: kinds, c => call kind c :: calls kinds (call kind c).stop

theorem call_of_ok {c : Cursor} (h : item kind c = .ok x d) :
    call kind c = ⟨kind, c, .ok x, d⟩ := by
  rw [call, h]

theorem call_of_error {c : Cursor} (h : item kind c = .error e d) :
    call kind c = ⟨kind, c, .error e, d⟩ := by
  rw [call, h]

theorem call_kind (kind : Item.Kind) (c : Cursor) : (call kind c).kind = kind := by
  rw [call]
  split <;> rfl

theorem call_start (kind : Item.Kind) (c : Cursor) : (call kind c).start = c := by
  rw [call]
  split <;> rfl

theorem call_stop (kind : Item.Kind) (c : Cursor) :
    (call kind c).stop = after (item kind) c := by
  rw [call]
  cases h : item kind c with
  | ok x d => exact (after_of_ok h).symm
  | error e d => exact (after_of_error h).symm

section

variable {c d : Cursor} {n : Nat} (prefixed : varint c = .ok n d)

include prefixed

theorem bytes_of_fits (fits : d.pos + n ≤ d.size) :
    bytes c = .ok (d.rest.take n) (d.advance n fits) :=
  (bind_of_ok prefixed).trans (dif_pos fits)

/-- A field that is longer than what is left fails behind its length. -/
theorem bytes_of_short (short : ¬ d.pos + n ≤ d.size) :
    bytes c = .error (.truncated d.size) d :=
  (bind_of_ok prefixed).trans (dif_neg short)

theorem call_bytes_of_fits (fits : d.pos + n ≤ d.size) :
    call .bytes c = ⟨.bytes, c, .ok (.bytes (d.rest.take n)), d.advance n fits⟩ :=
  call_of_ok (bind_of_ok (bytes_of_fits prefixed fits))

theorem call_text_of_fits (fits : d.pos + n ≤ d.size) :
    call .text c = ⟨.text, c, textOf (d.rest.take n), d.advance n fits⟩ := by
  have content : text c = _ := bind_of_ok (bytes_of_fits prefixed fits)
  unfold textOf
  cases h : String.fromUTF8? ⟨(d.rest.take n).toArray⟩ with
  | some s =>
    rw [h] at content
    exact call_of_ok (bind_of_ok content)
  | none =>
    rw [h] at content
    exact call_of_error (bind_of_error content)

theorem call_of_short (short : ¬ d.pos + n ≤ d.size) (kind : Item.Kind)
    (field : kind = .bytes ∨ kind = .text) :
    call kind c = ⟨kind, c, .error (.truncated d.size), d⟩ := by
  have failed := bytes_of_short prefixed short
  rcases field with rfl | rfl
  · exact call_of_error (bind_of_error failed)
  · exact call_of_error (bind_of_error (bind_of_error failed))

end

/-- Where a field ends, in words of 64 bits: nowhere if the sum does not fit into a word, or if it
lies behind the buffer. -/
def fieldEnd? (pos length size : UInt64) : Option UInt64 :=
  let sum := pos + length
  if sum < pos then none else if sum ≤ size then some sum else none

/-- No length makes the sum wrap unnoticed. -/
theorem fieldEnd?_eq (pos length size : UInt64) : (fieldEnd? pos length size).map UInt64.toNat =
    if pos.toNat + length.toNat ≤ size.toNat then some (pos.toNat + length.toNat) else none := by
  have sum := UInt64.toNat_add pos length
  have := pos.toNat_lt
  have := length.toNat_lt
  have := size.toNat_lt
  unfold fieldEnd?
  simp only [UInt64.lt_iff_toNat_lt, UInt64.le_iff_toNat_le]
  split
  · rw [if_neg (by omega)]
    rfl
  · split
    · rw [if_pos (by omega)]
      exact congrArg some (by omega)
    · rw [if_neg (by omega)]
      rfl

/-- What holds of a read in a buffer of bytes, whatever was read before it and whether that failed
or not. -/
structure Call.Sane (bs : List UInt8) (x : Call) : Prop where
  onward : x.start.pos ≤ x.stop.pos
  inside : x.stop.pos ≤ bs.length
  faces : x.start.rest = bs.drop x.start.pos ∧ x.stop.rest = bs.drop x.stop.pos
  /-- Before the end a byte is taken at least, also by a read that fails. -/
  moves : x.start.pos < bs.length → x.start.pos < x.stop.pos
  atEnd : x.start.pos = bs.length →
    x.outcome = .error (.truncated bs.length) ∧ x.stop = x.start
  /-- The content of a field that fits is a slice of the buffer. -/
  slice : ∀ n d, varint x.start = .ok n d → d.pos + n ≤ bs.length →
    (x.kind = .bytes → x.stop.pos = d.pos + n ∧
      x.outcome = .ok (.bytes (bs.extract d.pos (d.pos + n)))) ∧
    (x.kind = .text → x.stop.pos = d.pos + n ∧
      x.outcome = textOf (bs.extract d.pos (d.pos + n)))
  short : ∀ n d, varint x.start = .ok n d → bs.length < d.pos + n →
    x.kind = .bytes ∨ x.kind = .text → x.outcome = .error (.truncated bs.length) ∧ x.stop = d
  /-- The end of a field is the same for words of 64 bits, as long as they can hold the buffer. -/
  words : ∀ n d, varint x.start = .ok n d → bs.length < 0x10000000000000000 →
    (fieldEnd? (.ofNat d.pos) (.ofNat n) (.ofNat bs.length)).map UInt64.toNat =
      if d.pos + n ≤ bs.length then some (d.pos + n) else none

theorem isAtEnd_iff (c : Cursor) : c.isAtEnd = true ↔ c.pos = c.size := by
  have := c.size_eq
  rw [isAtEnd, List.isEmpty_iff, ← List.length_eq_zero_iff]
  omega

/-- One step of the run: a read from anywhere in the buffer. -/
theorem call_sane {bs : List UInt8} {c : Cursor} (h : Along (ofList bs) c) (kind : Item.Kind) :
    (call kind c).Sane bs ∧ Along (ofList bs) (call kind c).stop := by
  have further : Along (ofList bs) (call kind c).stop := by
    rw [call_stop]
    exact .trans _ _ _ h (item_along kind c)
  have size : c.size = bs.length := h.size_eq
  have prefixed : ∀ n d, varint c = .ok n d → d.size = bs.length ∧ d.rest = bs.drop d.pos := by
    intro n d read
    have along := Along.trans _ _ _ h (varint_along.ok read)
    exact ⟨along.size_eq, along.rest_eq⟩
  refine ⟨?_, further⟩
  constructor <;> try rw [call_start]
  case onward =>
    rw [call_stop]
    exact (item_along kind c).onward
  case inside =>
    have := further.size_eq ▸ (call kind c).stop.pos_le_end
    exact this
  case faces => exact ⟨h.rest_eq, further.rest_eq⟩
  case moves =>
    intro left
    have before : c.isAtEnd = false := by
      rw [Bool.eq_false_iff, Ne, isAtEnd_iff]
      omega
    rw [call_stop]
    exact item_moves kind c before
  case atEnd =>
    intro last
    have failed := item_of_error (varint_at_end (last.trans size.symm)) kind
    rw [call_of_error failed, size]
    exact ⟨rfl, rfl⟩
  case slice =>
    intro n d read fits
    obtain ⟨whole, rest⟩ := prefixed n d read
    have content : d.rest.take n = bs.extract d.pos (d.pos + n) := by
      rw [List.extract_eq_take_drop, rest, Nat.add_sub_cancel_left]
    rw [← whole] at fits
    rw [← content, call_kind]
    constructor
    · rintro rfl
      rw [call_bytes_of_fits read fits]
      exact ⟨rfl, rfl⟩
    · rintro rfl
      rw [call_text_of_fits read fits]
      exact ⟨rfl, rfl⟩
  case short =>
    intro n d read long field
    obtain ⟨whole, _⟩ := prefixed n d read
    rw [call_kind] at field
    rw [call_of_short read (by omega) kind field, whole]
    exact ⟨rfl, rfl⟩
  case words =>
    intro n d read held
    obtain ⟨whole, _⟩ := prefixed n d read
    have small : n < 0x10000000000000000 := varintWithin_lt read
    have place : d.pos < 0x10000000000000000 := Nat.lt_of_le_of_lt (whole ▸ d.pos_le_end) held
    rw [fieldEnd?_eq, UInt64.toNat_ofNat_of_lt' small, UInt64.toNat_ofNat_of_lt' held,
      UInt64.toNat_ofNat_of_lt' place]

/-- Each call goes on from where the one before it stopped. -/
theorem calls_sane {bs : List UInt8} {c : Cursor} (h : Along (ofList bs) c)
    (kinds : List Item.Kind) : ∀ x ∈ calls kinds c, x.Sane bs := by
  induction kinds generalizing c with
  | nil => nofun
  | cons kind kinds ih =>
    obtain ⟨sane, further⟩ := call_sane h kind
    exact List.forall_mem_cons.mpr ⟨sane, ih further⟩

theorem call_moves {c : Cursor} (left : ¬ c.isAtEnd = true) (kind : Item.Kind) :
    (call kind c).stop.size - (call kind c).stop.pos < c.size - c.pos := by
  have moved := item_moves kind c (Bool.eq_false_iff.mpr left)
  have same := (item_along kind c).size_eq
  have inside := (call kind c).stop.pos_le_end
  rw [call_stop] at inside ⊢
  omega

/-- Calls for as long as something is left, of whatever kind the calls so far suggest. -/
def callsToEnd (choose : List Call → Item.Kind) (made : List Call) (c : Cursor) : List Call :=
  if c.isAtEnd then made
  else
    let next := call (choose made) c
    callsToEnd choose (made ++ [next]) next.stop
termination_by c.size - c.pos
decreasing_by
  rename_i left
  exact call_moves left _

/-- Reading to the end is a run of calls, no more than there are bytes, and comes to the end. -/
theorem callsToEnd_eq (choose : List Call → Item.Kind) (made : List Call) (c : Cursor) :
    ∃ kinds, callsToEnd choose made c = made ++ calls kinds c ∧ kinds.length ≤ c.size - c.pos ∧
      (kinds.foldl (fun d kind => (call kind d).stop) c).isAtEnd = true := by
  induction made, c using callsToEnd.induct choose with
  | case1 made c atEnd =>
    refine ⟨[], ?_, Nat.zero_le _, atEnd⟩
    rw [callsToEnd, if_pos atEnd, calls, List.append_nil]
  | case2 made c left next ih =>
    obtain ⟨kinds, run, few, ended⟩ := ih
    have closer := call_moves left (choose made)
    refine ⟨choose made :: kinds, ?_, ?_, ended⟩
    · rw [callsToEnd, if_neg left, run, calls, List.append_assoc]
      rfl
    · rw [List.length_cons]
      exact Nat.lt_of_le_of_lt few closer

/-- In any sequence of reads, going on after those that fail, each call stays in the buffer and
never goes back. It moves on by a byte at least unless it begins at the end, where it is refused and
stays. A field of bytes or text is the slice behind its length if that fits, also where the sum is
made in words, and is refused there otherwise. So reading up to the end needs no more calls than
there are bytes, whichever they are. -/
theorem reads_stay_sane (bs : List UInt8) :
    (∀ kinds, ∀ x ∈ calls kinds (ofList bs), x.Sane bs) ∧
    (∀ choose, ∃ kinds, callsToEnd choose [] (ofList bs) = calls kinds (ofList bs) ∧
      kinds.length ≤ bs.length ∧
      (kinds.foldl (fun d kind => (call kind d).stop) (ofList bs)).isAtEnd = true) ∧
    ∀ pos length size, (fieldEnd? pos length size).map UInt64.toNat =
      if pos.toNat + length.toNat ≤ size.toNat then some (pos.toNat + length.toNat) else none :=
  ⟨calls_sane (.refl _), fun choose => callsToEnd_eq choose [] (ofList bs), fieldEnd?_eq⟩

/-- A field that is no text, one whose length is more than there is, and a read at the end. -/
theorem reads_after_failures : ∃ x y z,
    calls [.text, .bytes, .tag] (ofList [0x02, 0xFF, 0xFE, 0xFF, 0x01]) = [x, y, z] ∧
    x.outcome = .error .invalidUtf8 ∧ x.stop.pos = 3 ∧ y.outcome = .error (.truncated 5) ∧
    y.stop = facing 5 [] ∧ z.outcome = .error (.truncated 5) ∧ z.stop = facing 5 [] := by
  have sane := (reads_stay_sane [0x02, 0xFF, 0xFE, 0xFF, 0x01]).1 [.text, .bytes, .tag]
  obtain ⟨first, second, third, _⟩ : _ ∧ _ ∧ _ ∧ _ := by
    simpa only [calls, List.forall_mem_cons] using sane
  have length : varint (ofList [0x02, 0xFF, 0xFE, 0xFF, 0x01]) =
      .ok 2 (facing 1 [0xFF, 0xFE, 0xFF, 0x01]) := by decide
  obtain ⟨stopped, outcome⟩ := (first.slice _ _ length (by decide)).2 rfl
  obtain ⟨refused, stayed⟩ := second.short 0xFF (facing 5 []) (by decide) (by decide) (.inl rfl)
  obtain ⟨last, unmoved⟩ := third.atEnd (congrArg Cursor.pos stayed)
  exact ⟨_, _, _, rfl, outcome, stopped, refused, stayed, last, unmoved.trans stayed⟩

end Cursor

end TagCodec
