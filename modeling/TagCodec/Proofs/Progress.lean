import TagCodec.Proofs.Fields
import TagCodec.Proofs.Reading

namespace TagCodec

open Steps

namespace Cursor

section

variable {R : Cursor → Cursor → Prop} (refl : ∀ c, R c c)
  (trans : ∀ c d e, R c d → R d e → R c e) (one : Keeps R byte) (many : ∀ n, Keeps R (take n))

include refl trans one

theorem varintWithin_keeps (more : Nat) : Keeps R (varintWithin more) := by
  induction more with
  | zero =>
    refine .bind trans one fun b => ?_
    split
    · exact .pure refl _
    · exact .bind trans refl fun p => .throw refl _
  | succ more ih =>
    refine .bind trans one fun b => ?_
    split
    · exact .pure refl _
    · exact .bind trans ih fun high => .pure refl _

theorem sint32_keeps : Keeps R sint32 := by
  refine .bind trans refl fun start => ?_
  refine .bind trans (varintWithin_keeps refl trans one 9) fun n => ?_
  split
  · exact .pure refl _
  · exact .throw refl _

theorem tag_keeps : Keeps R tag :=
  .bind trans (sint32_keeps refl trans one) fun _ => .pure refl _

include many

theorem bytes_keeps : Keeps R bytes := .bind trans (varintWithin_keeps refl trans one 9) many

theorem text_keeps : Keeps R text := by
  refine .bind trans (bytes_keeps refl trans one many) fun bs => ?_
  split
  · exact .pure refl _
  · exact .throw refl _

theorem item_keeps (kind : Item.Kind) : Keeps R (item kind) := by
  cases kind with
  | varint => exact .bind trans (varintWithin_keeps refl trans one 9) fun _ => .pure refl _
  | sint32 => exact .bind trans (sint32_keeps refl trans one) fun _ => .pure refl _
  | tag => exact .bind trans (tag_keeps refl trans one) fun _ => .pure refl _
  | bytes => exact .bind trans (bytes_keeps refl trans one many) fun _ => .pure refl _
  | text => exact .bind trans (text_keeps refl trans one many) fun _ => .pure refl _

end

/-- The second cursor is no further back. -/
def Onward (c c' : Cursor) : Prop := c.pos ≤ c'.pos

theorem Onward.refl (c : Cursor) : Onward c c := Nat.le_refl _

theorem Onward.trans (c c' c'' : Cursor) (h : Onward c c') (g : Onward c' c'') : Onward c c'' :=
  Nat.le_trans h g

theorem byte_advances {c c' : Cursor} (h : byte c = .ok b c') : c.pos < c'.pos := by
  rw [c.eq_facing] at h
  cases hr : c.rest with
  | nil =>
    rw [hr] at h
    cases h
  | cons b rest =>
    rw [hr, byte_cons] at h
    cases h
    exact Nat.lt_succ_self _

theorem byte_onward : Keeps Onward byte := by
  intro c
  rw [c.eq_facing]
  cases c.rest with
  | nil => exact .refl _
  | cons b rest =>
    rw [after_of_ok (byte_cons ..)]
    exact Nat.le_succ _

theorem take_onward (n : Nat) : Keeps Onward (take n) := by
  intro c
  by_cases fits : c.pos + n ≤ c.size
  · rw [after_of_ok (dif_pos fits)]
    exact Nat.le_add_right _ _
  · rw [after_of_error (dif_neg fits)]
    exact .refl c

theorem varintWithin_onward (more : Nat) : Keeps Onward (varintWithin more) :=
  varintWithin_keeps Onward.refl Onward.trans byte_onward more

theorem sint32_onward : Keeps Onward sint32 := sint32_keeps Onward.refl Onward.trans byte_onward

theorem tag_onward : Keeps Onward tag := tag_keeps Onward.refl Onward.trans byte_onward

theorem bytes_onward : Keeps Onward bytes :=
  bytes_keeps Onward.refl Onward.trans byte_onward take_onward

theorem text_onward : Keeps Onward text :=
  text_keeps Onward.refl Onward.trans byte_onward take_onward

theorem varintWithin_advances {more : Nat} {c c' : Cursor} (h : varintWithin more c = .ok n c') :
    c.pos < c'.pos := by
  cases more with
  | zero =>
    obtain ⟨b, d, first, rest⟩ := bind_eq_ok.mp h
    have started := byte_advances first
    split at rest
    · cases rest
      exact started
    · cases rest
  | succ more =>
    obtain ⟨b, d, first, rest⟩ := bind_eq_ok.mp h
    have started := byte_advances first
    split at rest
    · cases rest
      exact started
    · obtain ⟨high, e, further, last⟩ := bind_eq_ok.mp rest
      cases last
      exact Nat.lt_of_lt_of_le started ((varintWithin_onward more).ok further)

theorem tag_advances {c c' : Cursor} (h : tag c = .ok t c') : c.pos < c'.pos := by
  obtain ⟨x, d, number, rest⟩ := bind_eq_ok.mp h
  cases rest
  obtain ⟨_, _, ⟨⟩, h⟩ := bind_eq_ok.mp number
  obtain ⟨n, e, field, rest⟩ := bind_eq_ok.mp h
  have started := varintWithin_advances field
  split at rest
  · cases rest
    exact started
  · cases rest

end Cursor

namespace Decode

/-- The input is no further back, and the depth is the same. -/
def Onward (s t : Decoder) : Prop := s.input.pos ≤ t.input.pos ∧ t.depth = s.depth

theorem Onward.refl (s : Decoder) : Onward s s := ⟨Nat.le_refl _, rfl⟩

theorem Onward.trans (s t u : Decoder) (h : Onward s t) (g : Onward t u) : Onward s u :=
  ⟨Nat.le_trans h.1 g.1, g.2.trans h.2⟩

theorem field_onward {read : Read α} (h : Keeps Cursor.Onward read) :
    Keeps Onward (field read) := keeps_field fun s => ⟨h s.input, rfl⟩

theorem closed_onward : Closed (Keeps Onward) where
  pure a := .pure Onward.refl a
  throw e _ _ := .throw Onward.refl e
  bind hx hf := .bind Onward.trans hx hf
  varint := field_onward (Cursor.varintWithin_onward 9)
  sint32 := field_onward Cursor.sint32_onward
  bytes := field_onward Cursor.bytes_onward
  text := field_onward Cursor.text_onward
  allocate _ := ⟨Nat.le_refl _, rfl⟩

end Decode

namespace Registry

variable {r : Registry}

theorem announce_onward (r : Registry) (t : Tag) : Keeps Decode.Onward (r.announce t) :=
  announce_closed Decode.closed_onward (Decode.keeps_lookup fun _ => ⟨Nat.le_refl _, rfl⟩)

theorem readTag_advances {s u : Decoder} (h : r.readTag s = .ok a u) :
    s.input.pos < u.input.pos := by
  rw [readTag_eq] at h
  obtain ⟨t, s', tag, announced⟩ := bind_eq_ok.mp h
  obtain ⟨c, field, rfl⟩ := Decode.field_eq_ok.mp tag
  exact Nat.lt_of_lt_of_le (Cursor.tag_advances field) ((r.announce_onward t).ok announced).1

theorem readTag_onward (r : Registry) : Keeps Decode.Onward r.readTag :=
  readTag_closed Decode.closed_onward (Decode.field_onward Cursor.tag_onward)
    fun _ => Decode.keeps_lookup fun _ => ⟨Nat.le_refl _, rfl⟩

end Registry

end TagCodec
