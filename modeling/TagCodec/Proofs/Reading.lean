import TagCodec.Decoding
import TagCodec.Proofs.TagSpace

namespace TagCodec

open Steps

namespace Decode

/-- The property holds of the single steps of a payload and of what is put together from steps
that have it. A payload never throws the error of a field by itself, nor finds that it is nested too
deep. -/
structure Closed (P : ∀ {α : Type}, Decode α → Prop) : Prop where
  pure : ∀ {α : Type} (a : α), P (pure a : Decode α)
  throw : ∀ {α : Type} e, (∀ f, e ≠ .field f) → (∀ n, e ≠ .tooDeep n) → P (throw e : Decode α)
  bind : ∀ {α β : Type} {x : Decode α} {f : α → Decode β}, P x → (∀ a, P (f a)) → P (x >>= f)
  varint : P (field Cursor.varint)
  sint32 : P (field Cursor.sint32)
  bytes : P (field Cursor.bytes)
  text : P (field Cursor.text)
  allocate : P allocate

namespace Closed

variable {P : ∀ {α : Type}, Decode α → Prop}

theorem object (h : Closed @P) (x : Leaf) : P (object x) :=
  h.bind h.allocate fun _ => h.pure _

theorem ofJson (h : Closed @P) (x : Except JsonError α) : P (ofJson x) := by
  cases x with
  | ok a => exact h.pure a
  | error e => exact h.throw _ (by simp) (by simp)

theorem record (h : Closed @P) (t : RecordType) : P (record t) := by
  apply h.bind h.bytes
  intro bs
  apply h.bind (h.ofJson _)
  intro v
  exact h.bind (h.ofJson _) fun r => h.object _

theorem read (h : Closed @P) {side : Decode Value} (hs : P side) (f : Format) :
    P (f.read side) := by
  cases f with
  | point => exact h.bind h.sint32 fun x => h.bind h.sint32 fun y => h.object _
  | label => exact h.bind h.text fun s => h.object _
  | shape =>
    apply h.bind h.text
    intro name
    split
    · exact h.record _
    · exact h.throw _ (by simp) (by simp)
  | pair =>
    apply h.bind hs
    intro left
    apply h.bind hs
    intro right
    exact h.bind h.allocate fun addr => h.pure _
  | ordinal cls e =>
    apply h.bind h.varint
    intro n
    split
    · exact h.object _
    · exact h.throw _ (by simp) (by simp)
  | fields cls t => exact h.record t
  | token cls extra known =>
    apply h.bind h.text
    intro name
    split
    · exact h.bind h.sint32 fun id => h.object _
    · exact h.throw _ (by simp) (by simp)

end Closed

end Decode

namespace Registry

/-- What follows a tag that was read. -/
def announce (r : Registry) (t : Tag) : Decode Announced :=
  if t.isNull then pure (.value .null)
  else if t.isBackReference then throw (.backReference t)
  else
    match r.constantAt? t with
    | some v => pure (.value v)
    | none => Decode.lookup (r.resolveTag t) >>= fun b => pure (.payload b.format)

theorem readTag_eq (r : Registry) : r.readTag = Decode.field Cursor.tag >>= r.announce :=
  rfl

variable {r : Registry} {P : ∀ {α : Type}, Decode α → Prop}

theorem announce_closed (h : Decode.Closed @P) {t : Tag}
    (lookup : P (Decode.lookup (r.resolveTag t))) : P (r.announce t) := by
  unfold announce
  split
  · exact h.pure _
  · split
    · exact h.throw _ (by simp) (by simp)
    · split
      · exact h.pure _
      · exact h.bind lookup fun b => h.pure _

theorem readTag_closed (h : Decode.Closed @P) (tag : P (Decode.field Cursor.tag))
    (lookup : ∀ t, P (Decode.lookup (r.resolveTag t))) : P r.readTag := by
  rw [readTag_eq]
  exact h.bind tag fun t => announce_closed h (lookup t)

/-- The induction over nested reads, made once for all properties. -/
theorem readWithin_closed (h : Decode.Closed @P) (tag : P (Decode.field Cursor.tag))
    (lookup : ∀ t, P (Decode.lookup (r.resolveTag t)))
    (tooDeep : P (throw (.tooDeep nestingLimit) : Decode Value))
    (deeper : ∀ {x : Decode Value}, P x → P (Decode.deeper x)) (room : Nat) :
    P (r.readWithin room) := by
  induction room with
  | zero =>
    apply h.bind (readTag_closed h tag lookup)
    intro a
    cases a with
    | value v => exact h.pure v
    | payload f => exact tooDeep
  | succ room ih =>
    apply h.bind (readTag_closed h tag lookup)
    intro a
    cases a with
    | value v => exact h.pure v
    | payload f => exact deeper (h.read ih f)

end Registry

namespace Decode

theorem keeps_field {R : Decoder → Decoder → Prop} {read : Read α}
    (h : ∀ s, R s { s with input := after read s.input }) : Keeps R (field read) := by
  intro s
  have hs := h s
  unfold after at hs ⊢
  unfold field
  cases hr : read s.input <;> simpa only [hr] using hs

theorem keeps_lookup {R : Decoder → Decoder → Prop} {l : Lookup α}
    (h : ∀ s, R s { s with memo := after l s.memo }) : Keeps R (lookup l) := by
  intro s
  have hs := h s
  unfold after at hs ⊢
  unfold lookup
  cases hl : l s.memo <;> simpa only [hl] using hs

theorem field_eq_ok {read : Read α} {s t : Decoder} :
    field read s = .ok a t ↔ ∃ c, read s.input = .ok a c ∧ t = { s with input := c } := by
  unfold field
  cases read s.input with
  | ok b c =>
    constructor
    · rintro ⟨⟩
      exact ⟨c, rfl, rfl⟩
    · rintro ⟨_, ⟨⟩, rfl⟩
      rfl
  | error f c => simp

theorem field_eq_error {read : Read α} {s t : Decoder} :
    field read s = .error e t ↔
      ∃ f c, read s.input = .error f c ∧ e = .field f ∧ t = { s with input := c } := by
  unfold field
  cases read s.input with
  | ok b c => simp
  | error f c =>
    constructor
    · rintro ⟨⟩
      exact ⟨f, c, rfl, rfl, rfl⟩
    · rintro ⟨_, _, ⟨⟩, rfl, rfl⟩
      rfl

theorem lookup_eq_ok {l : Lookup α} {s t : Decoder} :
    lookup l s = .ok a t ↔ ∃ m, l s.memo = .ok a m ∧ t = { s with memo := m } := by
  unfold lookup
  cases l s.memo with
  | ok b m =>
    constructor
    · rintro ⟨⟩
      exact ⟨m, rfl, rfl⟩
    · rintro ⟨_, ⟨⟩, rfl⟩
      rfl
  | error f m => simp

theorem lookup_eq_error {l : Lookup α} {s t : Decoder} :
    lookup l s = .error e t ↔
      ∃ f m, l s.memo = .error f m ∧ e = .noCodec f ∧ t = { s with memo := m } := by
  unfold lookup
  cases l s.memo with
  | ok b m => simp
  | error f m =>
    constructor
    · rintro ⟨⟩
      exact ⟨f, m, rfl, rfl, rfl⟩
    · rintro ⟨_, _, ⟨⟩, rfl, rfl⟩
      rfl

theorem deeper_eq_ok {x : Decode α} : deeper x s = .ok a t ↔
    ∃ u, x { s with depth := s.depth + 1 } = .ok a u ∧ t = { u with depth := u.depth - 1 } := by
  unfold deeper
  cases x { s with depth := s.depth + 1 } with
  | ok b u =>
    constructor
    · rintro ⟨⟩
      exact ⟨u, rfl, rfl⟩
    · rintro ⟨_, ⟨⟩, rfl⟩
      rfl
  | error f u => simp

theorem deeper_eq_error {x : Decode α} : deeper x s = .error e t ↔
    ∃ u, x { s with depth := s.depth + 1 } = .error e u ∧ t = { u with depth := u.depth - 1 } := by
  unfold deeper
  cases x { s with depth := s.depth + 1 } with
  | ok b u => simp
  | error f u =>
    constructor
    · rintro ⟨⟩
      exact ⟨u, rfl, rfl⟩
    · rintro ⟨_, ⟨⟩, rfl⟩
      rfl

theorem keeps_deeper {R S : Decoder → Decoder → Prop} {x : Decode α} (hx : Keeps R x)
    (h : ∀ s t, R { s with depth := s.depth + 1 } t → S s { t with depth := t.depth - 1 }) :
    Keeps S (deeper x) := by
  intro s
  have hs := h s _ (hx { s with depth := s.depth + 1 })
  unfold after at hs ⊢
  unfold deeper
  cases hr : x { s with depth := s.depth + 1 } <;> simpa only [hr] using hs

def SameDepth (s t : Decoder) : Prop := t.depth = s.depth

theorem SameDepth.refl (s : Decoder) : SameDepth s s := rfl

theorem SameDepth.trans (h : SameDepth s t) (g : SameDepth t u) : SameDepth s u := Eq.trans g h

theorem closed_sameDepth : Closed (Keeps SameDepth) where
  pure a := .pure SameDepth.refl a
  throw e _ _ := .throw SameDepth.refl e
  bind hx hf := .bind (R := SameDepth) (fun _ _ _ => .trans) hx hf
  varint := keeps_field fun _ => rfl
  sint32 := keeps_field fun _ => rfl
  bytes := keeps_field fun _ => rfl
  text := keeps_field fun _ => rfl
  allocate _ := rfl

theorem deeper_sameDepth {x : Decode α} (h : Keeps SameDepth x) : Keeps SameDepth (deeper x) :=
  keeps_deeper h fun s t same => by
    simp only [SameDepth] at same ⊢
    omega

end Decode

/-- A payload is read alike through two readers that agree at its depth. -/
theorem Format.read_congr {side other : Decode Value} (f : Format)
    (balanced : Keeps Decode.SameDepth side) (s : Decoder)
    (same : ∀ t, t.depth = s.depth → side t = other t) : f.read side s = f.read other s := by
  cases f with
  | pair =>
    apply bind_congr (same s rfl)
    intro left t hl
    exact bind_congr (same t (balanced.ok hl)) fun _ _ _ => rfl
  | _ => rfl

namespace Registry

variable {r : Registry}

/-- The depth is put back on every way out of a read. -/
theorem readWithin_sameDepth (r : Registry) (room : Nat) :
    Keeps Decode.SameDepth (r.readWithin room) :=
  readWithin_closed Decode.closed_sameDepth (Decode.keeps_field fun _ => rfl)
    (fun _ => Decode.keeps_lookup fun _ => rfl) (.throw Decode.SameDepth.refl _)
    Decode.deeper_sameDepth room

theorem read_eq {s : Decoder} (room : Nat) (h : s.depth + room = nestingLimit) :
    r.read s = r.readWithin room s := by
  have : nestingLimit - s.depth = room := by omega
  change r.readWithin (nestingLimit - s.depth) s = _
  rw [this]

theorem read_of_value {s : Decoder} (h : r.readTag s = .ok (.value v) t) : r.read s = .ok v t := by
  change r.readWithin (nestingLimit - s.depth) s = _
  cases nestingLimit - s.depth <;> exact bind_of_ok h

theorem read_of_error {s : Decoder} (h : r.readTag s = .error e t) : r.read s = .error e t := by
  change r.readWithin (nestingLimit - s.depth) s = _
  cases nestingLimit - s.depth <;> exact bind_of_error h

theorem readTag_sameDepth (r : Registry) : Keeps Decode.SameDepth r.readTag :=
  readTag_closed Decode.closed_sameDepth (Decode.keeps_field fun _ => rfl)
    (fun _ => Decode.keeps_lookup fun _ => rfl)

/-- A payload is announced by a tag that a lookup finds a codec for, and by no other. -/
theorem readTag_eq_payload {s u : Decoder} (h : r.readTag s = .ok (.payload f) u) :
    ∃ t s' b m, Decode.field Cursor.tag s = .ok t s' ∧ r.resolveTag t s'.memo = .ok b m ∧
      b.format = f ∧ u = { s' with memo := m } := by
  rw [readTag_eq] at h
  obtain ⟨t, s', tag, announced⟩ := bind_eq_ok.mp h
  refine ⟨t, s', ?_⟩
  unfold announce at announced
  split at announced
  · cases announced
  · split at announced
    · cases announced
    · cases constant : r.constantAt? t <;> rw [constant] at announced
      · obtain ⟨b, _, lookup, last⟩ := bind_eq_ok.mp announced
        obtain ⟨m, found, rfl⟩ := Decode.lookup_eq_ok.mp lookup
        cases last
        exact ⟨b, m, tag, found, rfl, rfl⟩
      · cases announced

/-- Below the limit, a tag that announces a payload has the payload read one level deeper. -/
theorem read_of_payload {s : Decoder} (h : r.readTag s = .ok (.payload f) t)
    (below : s.depth < nestingLimit) : r.read s = Decode.deeper (r.readPayload f) t := by
  obtain ⟨room, hr⟩ : ∃ room, s.depth + (room + 1) = nestingLimit :=
    ⟨nestingLimit - s.depth - 1, by omega⟩
  have ht : t.depth = s.depth := (r.readTag_sameDepth).ok h
  -- one level down there is one less room, so that the two still make up the limit
  rw [read_eq (room + 1) hr]
  have inner : f.read (r.readWithin room) { t with depth := t.depth + 1 } =
      r.readPayload f { t with depth := t.depth + 1 } := by
    apply f.read_congr (r.readWithin_sameDepth room) _
    intro u hu
    change u.depth = t.depth + 1 at hu
    exact (read_eq room (by omega)).symm
  have outer : r.readWithin (room + 1) s = Decode.deeper (f.read (r.readWithin room)) t :=
    bind_of_ok h
  rw [outer]
  simp only [Decode.deeper, inner]

end Registry

end TagCodec
