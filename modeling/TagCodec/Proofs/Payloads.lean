import TagCodec.Format.Payload
import TagCodec.Proofs.NumberSize
import TagCodec.Proofs.Reading
import TagCodec.Proofs.RecordText

namespace TagCodec

open Steps

/-- The content of an object once it was written and read. Only numbers go through a text. -/
def Leaf.reread? : Leaf → Option Leaf
  | .record r => r.reread?.map .record
  | x => some x

/-- The length of the text that the content is fits into 64 bits. -/
def Leaf.Short : Leaf → Prop
  | .label s => s.utf8ByteSize < 0x10000000000000000
  | _ => True

/-- Whether what is read depends on the classes that the format knows. -/
def Format.isToken : Format → Bool
  | .token _ _ _ => true
  | _ => false

namespace Decode

theorem field_facing {read : Read α} {s : Decoder} (faces : s.input = c)
    (h : read c = .ok a c') : field read s = .ok a { s with input := c' } :=
  field_eq_ok.mpr ⟨c', faces ▸ h, rfl⟩

theorem field_at {read : Read α} (s : Decoder) (h : read c = .ok a c') :
    field read { s with input := c } = .ok a { s with input := c' } :=
  field_eq_ok.mpr ⟨c', h, rfl⟩

/-- A text that can be read is short, since the length of a longer one cannot. -/
theorem short_of_field {text : String} {s : Decoder}
    (faces : s.input = .facing pos ((Item.text text).encode ++ rest))
    (read : field Cursor.text s = .ok a t) : text.utf8ByteSize < 0x10000000000000000 := by
  rcases Nat.lt_or_ge text.utf8ByteSize 0x10000000000000000 with short | large
  · exact short
  · obtain ⟨e, c, failed⟩ := Cursor.text_large large pos rest
    rw [← faces] at failed
    rw [field_eq_error.mpr ⟨e, c, failed, rfl, rfl⟩] at read
    cases read

/-- The outcome of reading a content that may have changed, or may be unreadable. -/
def Reads (read : Decode Value) (x? : Option Leaf) (s : Decoder) (c : Cursor) : Prop :=
  match x? with
  | some x => read s = .ok (.leaf s.fresh x) { s with input := c, fresh := s.fresh + 1 }
  | none => ∃ e t, read s = .error e t

/-- The first step of a read does not count if it only moves the input. -/
theorem Reads.of_step {read read' : Decode Value} {s : Decoder} {c c' : Cursor}
    (h : Reads read' x? { s with input := c' } c) (step : read s = read' { s with input := c' }) :
    Reads read x? s c := by
  cases x? with
  | some x => exact step.trans h
  | none =>
    obtain ⟨e, t, he⟩ := h
    exact ⟨e, t, step.trans he⟩

/-- The text is parsed and then taken for a record; it makes no difference which of the two
fails. -/
theorem record_eq (t : RecordType) : record t = field Cursor.bytes >>= fun bs =>
    ofJson (Json.parseBytes bs >>= t.ofJson) >>= fun r => object (.record r) := by
  unfold record
  congr 1
  funext bs
  cases Json.parseBytes bs <;> rfl

theorem record_reads (r : Record) {s : Decoder} {c : Cursor}
    (field : field Cursor.bytes s =
      .ok r.toJson.text.toUTF8.data.toList { s with input := c }) :
    Reads (record r.type) (r.reread?.map .record) s c := by
  have text := r.ofJson_text
  rw [record_eq]
  cases hr : Json.parseBytes r.toJson.text.toUTF8.data.toList >>= r.type.ofJson with
  | error e =>
    rw [hr] at text
    rw [← text]
    refine ⟨.json e, { s with input := c }, (bind_of_ok field).trans ?_⟩
    rw [hr]
    rfl
  | ok r' =>
    rw [hr] at text
    rw [← text]
    apply (bind_of_ok field).trans
    rw [hr]
    rfl

end Decode

namespace Format

theorem get_shape (t : RecordType) :
    (Catalog.shapes.get? (Catalog.record t).name >>= Class.record?) = some t := by
  cases t <;> decide

theorem recordPayload_eq_complete {t : RecordType} {x : Leaf} {items : List Item}
    (h : recordPayload t x = .complete items) :
    ∃ r, x = .record r ∧ r.type = t ∧ items = [.bytes r.toJson.text.toUTF8.data.toList] := by
  unfold recordPayload recordJson at h
  cases x with
  | record r =>
    by_cases same : r.type = t
    · simp only [same, if_true] at h
      cases h
      exact ⟨r, rfl, same, rfl⟩
    · simp only [if_neg same] at h
      cases h
  | _ => cases h

/-- The contents that a format has a payload for, with the fields of that payload. -/
inductive Fits : Format → Leaf → List Item → Prop
  | point (p : Point) : Fits point (.point p) [.sint32 p.x, .sint32 p.y]
  | label (s : String) : Fits label (.label s) [.text s]
  | shape (r : Record) : Fits shape (.record r)
      [.text (Catalog.record r.type).name, .bytes r.toJson.text.toUTF8.data.toList]
  | ordinal (cls : Class) (e : Enumeration) (i : Fin e.cases.length) :
      Fits (ordinal cls e) (.member e i) [.varint (UInt64.ofNat i)]
  | fields (cls : Class) (r : Record) :
      Fits (fields cls r.type) (.record r) [.bytes r.toJson.text.toUTF8.data.toList]

theorem fits_of_payload {f : Format} (other : f.isToken = false) {x : Leaf} {items : List Item}
    (written : f.payload x = .complete items) : Fits f x items := by
  cases f with
  | point =>
    cases x <;> cases written
    exact .point _
  | label =>
    cases x <;> cases written
    exact .label _
  | shape =>
    simp only [payload] at written
    split at written
    · rename_i t record
      obtain ⟨hi, hf⟩ := Payload.mk.inj written
      have fields : recordPayload t x = .complete (recordPayload t x).items := by
        rw [Payload.complete, ← hf]
      obtain ⟨r, rfl, _, same⟩ := recordPayload_eq_complete fields
      rw [← hi, same]
      exact .shape r
    · cases written
  | pair => cases x <;> cases written
  | ordinal cls e =>
    simp only [payload] at written
    split at written
    · rename_i n number
      cases written
      cases x with
      | member e' i =>
        simp only [Enumeration.ordinal?] at number
        split at number <;> cases number
        rename_i same
        subst same
        exact .ordinal cls e i
      | _ => cases number
    · cases written
  | fields cls t =>
    obtain ⟨r, rfl, rfl, rfl⟩ := recordPayload_eq_complete (by simpa [payload] using written)
    exact .fields cls r
  | token cls extra known => cases other

theorem payload_of_fits {f : Format} {x : Leaf} {items : List Item} (fits : f.Fits x items) :
    f.payload x = .complete items := by
  cases fits with
  | shape r =>
    have named : (Leaf.record r).cls.record? = some r.type := by cases r <;> rfl
    simp only [payload, named, recordPayload, recordJson, if_true]
    rfl
  | ordinal cls e i => simp [payload, Enumeration.ordinal?]
  | fields cls r => simp [payload, recordPayload, recordJson]
  | _ => rfl

theorem text_length {s : String} (h : (Item.text s).encode.length < 0x10000000000000000) :
    s.utf8ByteSize < 0x10000000000000000 := by
  have same : s.toUTF8.data.toList.length = s.utf8ByteSize := rfl
  rw [Item.encode, List.length_append] at h
  omega

theorem short_of_fits {f : Format} {x : Leaf} {items : List Item} (fits : f.Fits x items)
    (short : (items.flatMap Item.encode).length < 0x10000000000000000) : x.Short := by
  cases fits with
  | label text =>
    simp only [List.flatMap_cons, List.flatMap_nil, List.append_nil] at short
    exact text_length short
  | _ => trivial

theorem short_of_read {f : Format} {x : Leaf} {items : List Item} (fits : f.Fits x items)
    {side : Decode Value} {s : Decoder}
    (faces : s.input = .facing pos (items.flatMap Item.encode ++ rest))
    (read : f.read side s = .ok v t) : x.Short := by
  cases fits with
  | label text =>
    rw [List.flatMap_singleton] at faces
    obtain ⟨_, _, field, _⟩ := bind_eq_ok.mp read
    exact Decode.short_of_field faces field
  | _ => trivial

/-- A payload that was written without a fault is read in its own format, whatever follows it. -/
theorem read_payload {f : Format} {x : Leaf} {items : List Item} (fits : f.Fits x items)
    (side : Decode Value) {s : Decoder}
    (faces : s.input = .facing pos (items.flatMap Item.encode ++ rest)) (short : x.Short) :
    Decode.Reads (f.read side) x.reread? s
      (.facing (pos + (items.flatMap Item.encode).length) rest) := by
  cases fits with
  | point p =>
    simp only [List.flatMap_cons, List.flatMap_nil, List.append_nil, List.append_assoc,
      List.length_append, ← Nat.add_assoc] at faces ⊢
    have first := Decode.field_facing faces (Cursor.sint32_encode p.x pos _)
    have second (next : Nat) := Decode.field_at s (Cursor.sint32_encode p.y next rest)
    exact (bind_of_ok first).trans ((bind_of_ok (second _)).trans rfl)
  | label text =>
    simp only [List.flatMap_cons, List.flatMap_nil, List.append_nil] at faces ⊢
    have field := Decode.field_facing faces (Cursor.text_encode short pos rest)
    exact (bind_of_ok field).trans rfl
  | shape r =>
    simp only [List.flatMap_cons, List.flatMap_nil, List.append_nil, List.append_assoc,
      List.length_append, ← Nat.add_assoc] at faces ⊢
    have known : (Catalog.record r.type).name.utf8ByteSize < 0x10000000000000000 := by
      cases r.type <;> decide
    have name := Decode.field_facing faces (Cursor.text_encode known pos _)
    have field (next : Nat) := Decode.field_at s (Cursor.bytes_encode r.length_text_lt next rest)
    have record (next : Nat) := Decode.record_reads r (s := { s with input := _ }) (field next)
    refine (record _).of_step ((bind_of_ok name).trans ?_)
    rw [get_shape]
  | ordinal cls e i =>
    simp only [List.flatMap_cons, List.flatMap_nil, List.append_nil] at faces ⊢
    have field := Decode.field_facing faces (Cursor.varint_encode (UInt64.toNat_lt _) pos rest)
    have small : e.cases.length < 0x10000000000000000 := by cases e <;> decide
    have number : (UInt64.ofNat i).toNat = i :=
      UInt64.toNat_ofNat_of_lt' (Nat.lt_trans i.isLt small)
    have same : e.ofOrdinal? (UInt64.ofNat i).toNat = some (.member e i) := by
      rw [number]
      exact dif_pos i.isLt
    apply (bind_of_ok field).trans
    rw [same]
    rfl
  | fields cls r =>
    simp only [List.flatMap_cons, List.flatMap_nil, List.append_nil] at faces ⊢
    exact Decode.record_reads r
      (Decode.field_facing faces (Cursor.bytes_encode r.length_text_lt pos rest))

end Format

end TagCodec
