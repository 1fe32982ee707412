import TagCodec.Proofs.Objects
import TagCodec.Proofs.Transfer

namespace TagCodec

open Steps

theorem Binary64.reread_isSome_iff {x : Binary64} :
    x.reread?.isSome = true ↔ x.isFinite = true := by
  refine ⟨fun read => ?_, reread_isSome⟩
  refine Classical.byContradiction fun other => ?_
  rw [reread?, Json.rereadJson_other other] at read
  cases read

/-- The text of a number is always read as something. -/
theorem Json.rereadJson_ok (x : Binary64) : ∃ v, rereadJson x = .ok v := by
  by_cases finite : x.isFinite = true
  · have read := Binary64.reread_isSome finite
    unfold Binary64.reread? at read
    cases value : rereadJson x with
    | ok v => exact ⟨v, rfl⟩
    | error e =>
      rw [value] at read
      cases read
  · exact ⟨.null, rereadJson_other finite⟩

theorem Json.mapM_rereadJson_ok (xs : List Binary64) : ∃ vs, xs.mapM rereadJson = .ok vs := by
  induction xs with
  | nil => exact ⟨[], rfl⟩
  | cons x xs ih =>
    obtain ⟨v, value⟩ := rereadJson_ok x
    obtain ⟨vs, values⟩ := ih
    exact ⟨v :: vs, by rw [List.mapM_cons, value, values]; rfl⟩

namespace Record

/-- The text of a record is JSON, whatever its numbers are. -/
theorem parseBytes_ok (c : Record) :
    ∃ v, Json.parseBytes c.toJson.text.toUTF8.data.toList = .ok v := by
  have nonempty : c.namedValues ≠ [] := by cases c <;> exact List.cons_ne_nil _ _
  obtain ⟨vs, values⟩ := Json.mapM_rereadJson_ok c.values
  rw [parseBytes_text, toJson_eq, Json.parse_object nonempty, namedValues,
    Json.rereadMembers_zip c.length_fields, values]
  exact ⟨_, rfl⟩

/-- If the text is no record, then for its shape. -/
theorem ofJson_text_eq (c : Record) :
    (Json.parseBytes c.toJson.text.toUTF8.data.toList >>= c.type.ofJson) =
      match c.reread? with
      | some c' => .ok c'
      | none => .error .misshapen := by
  obtain ⟨v, parsed⟩ := c.parseBytes_ok
  have text := c.ofJson_text
  rw [parsed] at text ⊢
  rw [← text]
  change c.type.ofJson v = match (c.type.ofJson v).toOption with
    | some c' => .ok c'
    | none => .error .misshapen
  unfold RecordType.ofJson
  cases c.type.values? v >>= c.type.ofValues? <;> rfl

theorem isSome_of_mapM {f : α → Option β} {xs : List α} {ys : List β} (h : xs.mapM f = some ys) :
    ∀ x ∈ xs, (f x).isSome = true := by
  induction xs generalizing ys with
  | nil => exact fun x hx => absurd hx List.not_mem_nil
  | cons x xs ih =>
    rw [List.mapM_cons] at h
    obtain ⟨y, hy, h⟩ := Option.bind_eq_some_iff.mp h
    obtain ⟨zs, hzs, _⟩ := Option.bind_eq_some_iff.mp h
    intro z hz
    rcases List.mem_cons.mp hz with rfl | later
    · rw [hy]
      rfl
    · exact ih hzs z later

theorem reread_isSome_iff {c : Record} :
    c.reread?.isSome = true ↔ ∀ x ∈ c.values, x.isFinite = true := by
  refine ⟨fun read => ?_, reread_isSome⟩
  obtain ⟨c', read⟩ := Option.isSome_iff_exists.mp read
  obtain ⟨ys, values, _⟩ := Option.bind_eq_some_iff.mp read
  exact fun x hx => Binary64.reread_isSome_iff.mp (isSome_of_mapM values x hx)

theorem type_of_reread {c c' : Record} (h : c.reread? = some c') : c'.type = c.type := by
  have text := c.ofJson_text_eq
  rw [h] at text
  exact RecordType.type_of_parsed text

end Record

theorem Decode.record_misshapen {c : Record} (lost : c.reread? = none) {s : Decoder} {stop : Cursor}
    (field : field Cursor.bytes s =
      .ok c.toJson.text.toUTF8.data.toList { s with input := stop }) :
    record c.type s = .error (.json .misshapen) { s with input := stop } := by
  have text := c.ofJson_text_eq
  rw [lost] at text
  rw [record_eq]
  apply (bind_of_ok field).trans
  rw [text]
  rfl

namespace Format

/-- Only two formats take records, and one of the two only those of its own type. -/
theorem payload_record_iff (f : Format) (c : Record) :
    (f.payload (.record c)).fault? = none ↔ f = .shape ∨ ∃ cls, f = .fields cls c.type := by
  constructor
  · intro accepted
    obtain ⟨items, written⟩ : ∃ items, f.payload (.record c) = .complete items :=
      ⟨(f.payload (.record c)).items, by rw [Payload.complete, ← accepted]⟩
    cases token : f.isToken with
    | false =>
      cases fits_of_payload token written with
      | shape => exact .inl rfl
      | fields cls => exact .inr ⟨cls, rfl⟩
    | true =>
      cases f with
      | token cls extra known => cases accepted
      | _ => cases token
  · rintro (rfl | ⟨cls, rfl⟩)
    · rw [payload_of_fits (.shape c)]
      rfl
    · rw [payload_of_fits (.fields cls c)]
      rfl

/-- The reader has come to the end of the payload when it finds that there is no record. -/
theorem read_misshapen {f : Format} {c : Record} {items : List Item}
    (fits : f.Fits (.record c) items) (lost : c.reread? = none) (side : Decode Value) {s : Decoder}
    (faces : s.input = .facing pos (items.flatMap Item.encode ++ rest)) :
    f.read side s = .error (.json .misshapen)
      { s with input := .facing (pos + (items.flatMap Item.encode).length) rest } := by
  cases fits with
  | shape =>
    simp only [List.flatMap_cons, List.flatMap_nil, List.append_nil, List.append_assoc,
      List.length_append, ← Nat.add_assoc] at faces ⊢
    have known : (Catalog.record c.type).name.utf8ByteSize < 0x10000000000000000 := by
      cases c.type <;> decide
    have name := Decode.field_facing faces (Cursor.text_encode known pos _)
    have field (next : Nat) := Decode.field_at s (Cursor.bytes_encode c.length_text_lt next rest)
    refine (bind_of_ok name).trans ?_
    rw [get_shape]
    exact Decode.record_misshapen lost (field _)
  | fields cls =>
    simp only [List.flatMap_cons, List.flatMap_nil, List.append_nil] at faces ⊢
    exact Decode.record_misshapen lost
      (Decode.field_facing faces (Cursor.bytes_encode c.length_text_lt pos rest))

theorem write_of_fits {f : Format} {x : Leaf} {items : List Item} (fits : f.Fits x items)
    (s : Encoder) : ∃ s', (f.payload x).write s = .ok () s' ∧ s'.memo = s.memo ∧
      s'.out.toList = s.out.toList ++ items.flatMap Item.encode := by
  rw [payload_of_fits fits]
  refine ⟨{ s with out := items.foldl Output.put s.out }, ?_, rfl, ?_⟩
  · exact (bind_of_ok (Encode.emit_foldl items s)).trans rfl
  · exact Output.toList_foldl_put items s.out

/-- What is read from the state `s` where the payload of a record is, which ends at `stop`. -/
structure ReadsBack (f : Format) (c : Record) (side : Decode Value) (s : Decoder)
    (stop : Cursor) : Prop where
  /-- All numbers are what their texts are read as if and only if the record is the same again. -/
  finite : (∀ x ∈ c.values, x.isFinite = true) → ∃ c', c'.type = c.type ∧
    (c' = c ↔ ∀ x ∈ c.values, x.reread? = some x) ∧
    f.read side s = .ok (.leaf s.fresh (.record c')) { s with input := stop, fresh := s.fresh + 1 }
  notFinite : (∃ x ∈ c.values, x.isFinite = false) →
    f.read side s = .error (.json .misshapen) { s with input := stop }

theorem readsBack {f : Format} {c : Record} {items : List Item} (fits : f.Fits (.record c) items)
    (side : Decode Value) {s : Decoder}
    (faces : s.input = .facing pos (items.flatMap Item.encode ++ rest)) :
    f.ReadsBack c side s (.facing (pos + (items.flatMap Item.encode).length) rest) where
  finite finite := by
    obtain ⟨c', read⟩ := Option.isSome_iff_exists.mp (Record.reread_isSome finite)
    have content := read_payload fits side faces trivial
    simp only [Leaf.reread?, read, Option.map_some] at content
    refine ⟨c', Record.type_of_reread read, ?_, content⟩
    rw [← c.reread_eq_self, read, Option.some.injEq]
  notFinite := by
    rintro ⟨x, hx, other⟩
    refine read_misshapen fits ?_ side faces
    cases read : c.reread? with
    | none => rfl
    | some c' =>
      have finite := Record.reread_isSome_iff.mp (Option.isSome_iff_exists.mpr ⟨c', read⟩) x hx
      rw [other] at finite
      cases finite

theorem written_unreadable {f : Format} {c : Record} {items : List Item}
    (fits : f.Fits (.record c) items) (other : ∃ x ∈ c.values, x.isFinite = false) : ∃ s,
    (f.payload (.record c)).write ⟨.empty, .empty⟩ = .ok () s ∧
    ∀ side, f.read side ⟨.ofList s.out.toList, 0, 0, .empty⟩ =
      .error (.json .misshapen) ⟨.facing s.out.toList.length [], 0, 0, .empty⟩ := by
  obtain ⟨s, written, _, bytes⟩ := write_of_fits fits ⟨.empty, .empty⟩
  rw [Output.toList_empty, List.nil_append] at bytes
  refine ⟨s, written, fun side => ?_⟩
  have faces : Cursor.ofList s.out.toList = .facing 0 (items.flatMap Item.encode ++ []) := by
    rw [bytes, List.append_nil]
    exact Cursor.ofList_eq_facing _
  have read := (readsBack fits side (s := ⟨_, 0, 0, .empty⟩) faces).notFinite other
  rwa [Nat.zero_add, ← bytes] at read

/-- A format for records takes any record of its type. What it writes is read as a record of the
same type if all numbers are finite, and then it is the same record if and only if each number is
what its text is read as. If some number is not finite, the format writes it all the same, but does
not read what it has written. -/
theorem record_payloads (f : Format) (c : Record) :
    ((f.payload (.record c)).fault? = none ↔ f = .shape ∨ ∃ cls, f = .fields cls c.type) ∧
    ((f.payload (.record c)).fault? = none → ∃ bs,
      (∀ s, ∃ s', (f.payload (.record c)).write s = .ok () s' ∧ s'.memo = s.memo ∧
        s'.out.toList = s.out.toList ++ bs) ∧
      ∀ side s pos rest, s.input = .facing pos (bs ++ rest) →
        f.ReadsBack c side s (.facing (pos + bs.length) rest)) := by
  refine ⟨payload_record_iff f c, fun accepted => ?_⟩
  obtain ⟨items, fits⟩ : ∃ items, f.Fits (.record c) items := by
    rcases (payload_record_iff f c).mp accepted with rfl | ⟨cls, rfl⟩
    · exact ⟨_, .shape c⟩
    · exact ⟨_, .fields cls c⟩
  exact ⟨items.flatMap Item.encode, write_of_fits fits,
    fun side s pos rest faces => readsBack fits side faces⟩

/-- A circle of the radius 1.5 is kept. -/
theorem circle_kept :
    ∃ (c : Record) (bs : List UInt8), c = .circle ⟨0x3FF8000000000000⟩ ∧
      (∃ s, (shape.payload (.record c)).write ⟨.empty, .empty⟩ = .ok () s ∧ s.out.toList = bs) ∧
      ∀ side, shape.read side ⟨.ofList bs, 0, 0, .empty⟩ =
        .ok (.leaf 0 (.record c)) ⟨.facing bs.length [], 0, 1, .empty⟩ := by
  obtain ⟨c, radius⟩ : ∃ c : Record, c = .circle ⟨0x3FF8000000000000⟩ := ⟨_, rfl⟩
  obtain ⟨accepts, kept⟩ := record_payloads .shape c
  obtain ⟨bs, written, reads⟩ := kept (accepts.mpr (.inl rfl))
  obtain ⟨s, write, _, bytes⟩ := written ⟨.empty, .empty⟩
  rw [Output.toList_empty, List.nil_append] at bytes
  refine ⟨c, bs, radius, ⟨s, write, bytes⟩, fun side => ?_⟩
  have faces : Cursor.ofList bs = .facing 0 (bs ++ []) := by
    rw [List.append_nil]
    exact Cursor.ofList_eq_facing _
  have stable : ∀ x ∈ c.values, x.isFinite = true ∧ x.reread? = some x := by
    rw [radius]
    intro x hx
    cases List.mem_singleton.mp hx
    decide +kernel
  obtain ⟨c', _, same, read⟩ :=
    (reads side ⟨_, 0, 0, .empty⟩ 0 [] faces).finite fun x hx => (stable x hx).1
  rw [same.mpr fun x hx => (stable x hx).2, Nat.zero_add] at read
  exact read

/-- Both formats for circles write one whose radius is no number, and refuse what they wrote. -/
theorem circle_without_number :
    ∃ c : Record, c = .circle ⟨0x7FF8000000000000⟩ ∧
      c.toJson.text = "\x7b\"radius\":null\x7d" ∧
      ∀ f ∈ [Format.shape, .fields Catalog.circle .circle], ∃ s,
        (f.payload (.record c)).write ⟨.empty, .empty⟩ = .ok () s ∧
        ∀ side, f.read side ⟨.ofList s.out.toList, 0, 0, .empty⟩ =
          .error (.json .misshapen) ⟨.facing s.out.toList.length [], 0, 0, .empty⟩ := by
  refine ⟨_, rfl, by decide, fun f hf => ?_⟩
  rcases List.mem_cons.mp hf with rfl | hf
  · exact written_unreadable (.shape (.circle _)) ⟨_, List.mem_singleton_self _, by decide⟩
  · cases List.mem_singleton.mp hf
    exact written_unreadable (.fields Catalog.circle (.circle _))
      ⟨_, List.mem_singleton_self _, by decide⟩

end Format

end TagCodec
