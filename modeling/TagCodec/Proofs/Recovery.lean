import TagCodec.Proofs.Lockstep
import TagCodec.Proofs.Transfer

namespace TagCodec

open Steps

namespace Format

/-- What is written of the content in the format can be read again, if not as the same numbers. Of a
token the format has to know a class of the same name. -/
def Recovers : Format → Leaf → Prop
  | token _ _ known, .token c _ =>
    c.name.utf8ByteSize < 0x10000000000000000 ∧ ∃ e ∈ known, e.name = c.name
  | _, x => x.Readable ∧ x.Short

theorem recovers_iff {f : Format} (other : f.isToken = false) (x : Leaf) :
    f.Recovers x ↔ x.Readable ∧ x.Short := by
  cases f with
  | token cls extra known => cases other
  | _ => rfl

theorem recovers_of_plain {x : Leaf} (plain : ∀ c id, x ≠ .token c id) (f : Format) :
    f.Recovers x ↔ x.Readable ∧ x.Short := by
  cases f with
  | token cls extra known =>
    cases x with
    | token c id => exact absurd rfl (plain c id)
    | _ => rfl
  | _ => rfl

theorem exists_known {known : List Class} {name : String} :
    (∃ e, known.reverse.find? (fun e => e.name == name) = some e) ↔
      ∃ e ∈ known, e.name = name := by
  rw [← Option.isSome_iff_exists, List.find?_isSome]
  simp only [List.mem_reverse, beq_iff_eq]

/-- A token is read by its class name and its id. Whether its class is known is decided in between,
and which class of the name it is does not matter. -/
theorem read_token {cls c : Class} {extra known : List Class} (side : Decode Value) {s : Decoder}
    (faces : s.input = .facing pos
      ((Item.text c.name).encode ++ ((Item.sint32 number).encode ++ rest))) :
    ((token cls extra known).Recovers (.token c number) ∧
      ∃ e, (token cls extra known).read side s = .ok (.leaf s.fresh (.token e number)) { s with
        input := .facing (pos + (Item.text c.name).encode.length +
          (Item.sint32 number).encode.length) rest, fresh := s.fresh + 1 }) ∨
    (¬ (token cls extra known).Recovers (.token c number) ∧
      ∃ e t, (token cls extra known).read side s = .error e t) := by
  rcases Nat.lt_or_ge c.name.utf8ByteSize 0x10000000000000000 with short | large
  · have name := Decode.field_facing faces (Cursor.text_encode short pos _)
    have id (next : Nat) := Decode.field_at s (Cursor.sint32_encode number next rest)
    cases found : known.reverse.find? fun e => e.name == c.name with
    | some e =>
      refine .inl ⟨⟨short, exists_known.mp ⟨e, found⟩⟩, e, ?_⟩
      rw [Format.read, bind_of_ok name]
      simp only [found]
      rw [bind_of_ok (id _)]
      rfl
    | none =>
      right
      constructor
      · intro recovers
        obtain ⟨e, listed⟩ := exists_known.mpr recovers.2
        rw [found] at listed
        cases listed
      · rw [Format.read, bind_of_ok name]
        simp only [found]
        exact ⟨_, _, rfl⟩
  · obtain ⟨e, d, failed⟩ := Cursor.text_large large pos ((Item.sint32 number).encode ++ rest)
    rw [← faces] at failed
    have name := Decode.field_eq_error.mpr ⟨e, d, failed, rfl, rfl⟩
    exact .inr ⟨fun h => absurd h.1 (Nat.not_lt.mpr large), _, _, bind_of_error name⟩

/-- A content that a format has a payload for is read as one new object, and the reader stops
behind the payload, or else it is not read at all. -/
theorem read_written {f : Format} {x : Leaf} {items : List Item}
    (written : f.payload x = .complete items) (side : Decode Value) {s : Decoder}
    (faces : s.input = .facing pos (items.flatMap Item.encode ++ rest)) :
    (f.Recovers x ∧ ∃ y, f.read side s = .ok (.leaf s.fresh y) { s with
      input := .facing (pos + (items.flatMap Item.encode).length) rest, fresh := s.fresh + 1 }) ∨
    (¬ f.Recovers x ∧ ∃ e t, f.read side s = .error e t) := by
  cases token : f.isToken with
  | false =>
    rw [recovers_iff token]
    have fits := fits_of_payload token written
    by_cases short : x.Short
    · have content := read_payload fits side faces short
      cases hx : x.reread? with
      | some y =>
        rw [hx] at content
        exact .inl ⟨⟨congrArg Option.isSome hx, short⟩, y, content⟩
      | none =>
        rw [hx] at content
        refine .inr ⟨fun h => ?_, content⟩
        have readable := h.1
        rw [Leaf.Readable, hx] at readable
        cases readable
    · refine .inr ⟨fun h => short h.2, ?_⟩
      cases read : f.read side s with
      | ok v t => exact absurd (short_of_read fits faces read) short
      | error e t => exact ⟨e, t, rfl⟩
  | true =>
    cases f with
    | token cls extra known =>
      cases x with
      | token c id =>
        cases written
        simp only [List.flatMap_cons, List.flatMap_nil, List.append_nil, List.append_assoc,
          List.length_append, ← Nat.add_assoc] at faces ⊢
        rcases read_token side faces with ⟨recovers, e, read⟩ | failed
        · exact .inl ⟨recovers, _, read⟩
        · exact .inr failed
      | _ => cases written
    | _ => cases token

section

variable {f : Format} {x : Leaf} {items : List Item} (written : f.payload x = .complete items)
  {side : Decode Value} {s : Decoder}
  (faces : s.input = .facing pos (items.flatMap Item.encode ++ rest))

include written faces

theorem read_iff : (∃ v t, f.read side s = .ok v t) ↔ f.Recovers x := by
  rcases read_written written side faces with ⟨recovers, y, read⟩ | ⟨lost, e, u, failed⟩
  · exact ⟨fun _ => recovers, fun _ => ⟨_, _, read⟩⟩
  · refine ⟨?_, fun recovers => absurd recovers lost⟩
    rintro ⟨v, t, read⟩
    rw [failed] at read
    cases read

theorem read_eq_ok (read : f.read side s = .ok v t) : ∃ y, v = .leaf s.fresh y ∧ t = { s with
    input := .facing (pos + (items.flatMap Item.encode).length) rest, fresh := s.fresh + 1 } := by
  rcases read_written written side faces with ⟨_, y, whole⟩ | ⟨_, e, u, failed⟩
  · cases read.symm.trans whole
    exact ⟨y, rfl, rfl⟩
  · rw [failed] at read
    cases read

end

theorem read_pair_iff {side : Decode Value} {s : Decoder} :
    (∃ v t, pair.read side s = .ok v t) ↔
      ∃ l u, side s = .ok l u ∧ ∃ r t, side u = .ok r t := by
  constructor
  · rintro ⟨v, t, read⟩
    obtain ⟨l, u, first, rest⟩ := bind_eq_ok.mp read
    obtain ⟨r, t', second, _⟩ := bind_eq_ok.mp rest
    exact ⟨l, u, first, r, t', second⟩
  · rintro ⟨l, u, first, r, t, second⟩
    exact ⟨_, _, (bind_of_ok first).trans ((bind_of_ok second).trans rfl)⟩

end Format

namespace Registry

/-- The same tree of objects again, as far as constants go: where a constant was there is the very
object that was registered, and where none was there is a new object or null. -/
inductive Restores (r : Registry) : Value → Value → Prop
  | null : r.Restores .null .null
  | constant (listed : k ∈ r.constants) (same : k.identity? = v.identity?) : r.Restores v k
  | leaf (other : r.constantTag? (.leaf addr x) = none) : r.Restores (.leaf addr x) (.leaf addr' y)
  | pair (other : r.constantTag? (.pair addr left right) = none) (first : r.Restores left left')
      (second : r.Restores right right') :
      r.Restores (.pair addr left right) (.pair addr' left' right')

/-- The codec that the content is written by, if there is one, recovers it. -/
def Recovers (r : Registry) (x : Leaf) : Prop :=
  ∀ b, r.answer r.fallback.made (.byClass x.cls) = .ok b → b.format.Recovers x

variable {r : Registry}

theorem answer_of_resolve {c : Class} (sound : r.Sound m) (found : r.resolve c m = .ok b n) :
    r.answer r.fallback.made (.byClass c) = .ok b := by
  rw [← sound.result_resolve, result, found]

/-- The bytes are those of the fields that are told of the value. -/
theorem Writes.told (h : r.Writes v bs) :
    ∃ items, (r.transcript r.fallback.made v).toPayload = .complete items ∧
      items.flatMap Item.encode = bs := by
  induction h with
  | null => exact ⟨[.tag .null], rfl, List.flatMap_singleton _ _⟩
  | constant object registered =>
    rw [transcript_of_constant object registered]
    exact ⟨_, rfl, List.flatMap_singleton _ _⟩
  | leaf other sound found complete =>
    simp only [transcript, other]
    exact ⟨_, complete_coded (answer_of_resolve sound found) complete, List.flatMap_cons⟩
  | pair other sound found sides _ _ first second =>
    obtain ⟨is, left, rfl⟩ := first
    obtain ⟨js, right, rfl⟩ := second
    simp only [transcript, other]
    refine ⟨_ :: (is ++ js), complete_coded (answer_of_resolve sound found) ?_, ?_⟩
    · rw [sides]
      exact Transcript.complete_followedBy left right
    · rw [List.flatMap_cons, List.flatMap_append]

/-- What has bytes is written as these, whatever was looked up before. -/
theorem Writes.written (h : r.Writes v bs) {m : Memo} (reached : r.Leads r.start m)
    (out : Output) :
    ∃ s, r.write v ⟨out, m⟩ = .ok () s ∧ s.out.toList = out.toList ++ bs := by
  obtain ⟨items, told, rfl⟩ := h.told
  exact write_of_complete reached told out

/-- What is read of the bytes of a value has the constants of the value in their places. -/
theorem Spells.restored {v w : Value} (h : r.Spells v bs) {s t : Decoder} (sound : r.Sound s.memo)
    (faces : s.input = .facing pos (bs ++ rest)) (read : r.readWithin room s = .ok w t) :
    r.Restores v w ∧ t.input = .facing (pos + bs.length) rest ∧ r.Sound t.memo := by
  induction h generalizing s t w pos rest room with
  | null =>
    cases (readWithin_value (readTag_of_null faces) room).symm.trans read
    exact ⟨.null, rfl, sound⟩
  | constant object registered =>
    obtain ⟨i, k, mine, same, rfl⟩ := constantTag_eq_some registered
    cases (readWithin_value (readTag_of_constant mine faces) room).symm.trans read
    exact ⟨.constant (List.mem_of_getElem? mine) same, rfl, sound⟩
  | @leaf addr x sign f items other offers complete =>
    rw [List.append_assoc] at faces
    obtain ⟨m, sound, tag⟩ := readTag_of_offers offers sound faces
    obtain ⟨k, u, _, content, rfl⟩ := content_of_ok tag read
    obtain ⟨y, rfl, rfl⟩ := Format.read_eq_ok complete rfl content
    rw [List.length_append, ← Nat.add_assoc]
    exact ⟨.leaf other, rfl, sound⟩
  | @pair addr left right sign bs cs other offers first second ihl ihr =>
    rw [List.append_assoc, List.append_assoc] at faces
    obtain ⟨m, sound, tag⟩ := readTag_of_offers offers sound faces
    obtain ⟨k, u, _, content, rfl⟩ := content_of_ok tag read
    obtain ⟨l, u₁, readLeft, content⟩ := bind_eq_ok.mp content
    obtain ⟨k, u₂, readRight, content⟩ := bind_eq_ok.mp content
    obtain ⟨left, place, sound⟩ := ihl sound rfl readLeft
    obtain ⟨right, place, sound⟩ := ihr sound place readRight
    cases content
    rw [List.length_append, List.length_append, ← Nat.add_assoc, ← Nat.add_assoc]
    exact ⟨.pair other left right, place, sound⟩

/-- A payload is read if there is room for it and its content is read. -/
theorem readWithin_iff {s t : Decoder} (tag : r.readTag s = .ok (.payload f) t) :
    (∃ w u, r.readWithin room s = .ok w u) ↔ ∃ k, room = k + 1 ∧
      ∃ w u, f.read (r.readWithin k) { t with depth := t.depth + 1 } = .ok w u := by
  constructor
  · rintro ⟨w, u, read⟩
    obtain ⟨k, u', same, content, _⟩ := content_of_ok tag read
    exact ⟨k, same, w, u', content⟩
  · rintro ⟨k, rfl, w, u, content⟩
    rw [readWithin_succ tag]
    exact ⟨w, _, Decode.deeper_eq_ok.mpr ⟨u, content, rfl⟩⟩

/-- The bytes of a value are read to their end if there is room for its payloads and each of them
can be recovered, and under no other condition. -/
theorem Writes.read_iff {v : Value} (h : r.Writes v bs) {s : Decoder} (sound : r.Sound s.memo)
    (faces : s.input = .facing pos (bs ++ rest)) (room : Nat) :
    (∃ w t, r.readWithin room s = .ok w t) ↔
      r.AllCoded r.Recovers v ∧ r.payloadDepth v ≤ room := by
  induction h generalizing s pos rest room with
  | null =>
    have read := readWithin_value (readTag_of_null (r := r) faces) room
    exact ⟨fun _ => ⟨trivial, Nat.zero_le _⟩, fun _ => ⟨_, _, read⟩⟩
  | constant object registered =>
    have all := allCoded_of_constant registered r.Recovers
    have flat := payloadDepth_of_constant registered
    obtain ⟨i, k, mine, _, rfl⟩ := constantTag_eq_some registered
    have read := readWithin_value (readTag_of_constant mine faces) room
    exact ⟨fun _ => ⟨all, by omega⟩, fun _ => ⟨_, _, read⟩⟩
  | @leaf addr x m b n items other sound' found complete =>
    have answered := answer_of_resolve sound' found
    rw [List.append_assoc] at faces
    obtain ⟨m, _, tag⟩ := readTag_of_offers (offers_of_resolve sound' found).1 sound faces
    have depth : r.payloadDepth (.leaf addr x) = 1 := by
      rw [payloadDepth, other]
      rfl
    rw [readWithin_iff tag, depth]
    constructor
    · rintro ⟨k, rfl, content⟩
      have recovers := (Format.read_iff complete rfl).mp content
      refine ⟨fun _ c other => ?_, Nat.le_add_left _ _⟩
      cases answered.symm.trans other
      exact recovers
    · rintro ⟨all, enough⟩
      refine ⟨room - 1, by omega, (Format.read_iff complete rfl).mpr ?_⟩
      exact all other b answered
  | @pair addr left right m b n bs cs other sound' found sides first second ihl ihr =>
    rw [List.append_assoc, List.append_assoc] at faces
    have offers : r.Offers b.tag .pair := sides ▸ (offers_of_resolve sound' found).1
    obtain ⟨m, sound, tag⟩ := readTag_of_offers offers sound faces
    have depth : r.payloadDepth (.pair addr left right) =
        1 + max (r.payloadDepth left) (r.payloadDepth right) := by
      rw [payloadDepth, other]
      rfl
    have lefts := ihl (s := ⟨.facing (pos + (Item.tag b.tag).encode.length) (bs ++ (cs ++ rest)),
      s.depth + 1, s.fresh, m⟩) sound rfl
    rw [readWithin_iff tag, depth]
    constructor
    · rintro ⟨k, rfl, content⟩
      obtain ⟨l, u, readLeft, readRight⟩ := Format.read_pair_iff.mp content
      -- the right side is read from where the left one ends
      obtain ⟨_, place, sound⟩ := first.spells.restored sound rfl readLeft
      obtain ⟨recoversLeft, _⟩ := (lefts k).mp ⟨l, u, readLeft⟩
      obtain ⟨recoversRight, _⟩ := (ihr sound place k).mp readRight
      exact ⟨fun _ => ⟨recoversLeft, recoversRight⟩, by omega⟩
    · rintro ⟨all, enough⟩
      obtain ⟨recoversLeft, recoversRight⟩ := all other
      refine ⟨room - 1, by omega, Format.read_pair_iff.mpr ?_⟩
      obtain ⟨l, u, readLeft⟩ := (lefts (room - 1)).mpr ⟨recoversLeft, by omega⟩
      obtain ⟨_, place, sound⟩ := first.spells.restored sound rfl readLeft
      exact ⟨l, u, readLeft, (ihr sound place (room - 1)).mpr ⟨recoversRight, by omega⟩⟩

end Registry

end TagCodec
