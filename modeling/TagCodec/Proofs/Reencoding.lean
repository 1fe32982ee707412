import TagCodec.Proofs.Lockstep
import TagCodec.Proofs.NumberRange
import TagCodec.Proofs.Writers

namespace TagCodec

open Steps

/-- Each finite number of the content is the one that its text is read as. -/
def Leaf.Exact : Leaf → Prop
  | .record r => ∀ x ∈ r.values, x.isFinite = true → x.reread? = some x
  | _ => True

theorem Leaf.Exact.reread {x : Leaf} (h : x.Exact) (finite : x.Finite) :
    x.reread? = some x := by
  apply Leaf.reread_eq_self.mpr
  cases x with
  | record r => exact fun y hy => h y hy (finite y hy)
  | _ => trivial

namespace Registry

variable {r : Registry}

/-- All objects that are constants have addresses below this one. -/
def Predates (r : Registry) (fresh : Nat) : Prop :=
  ∀ k ∈ r.constants, ∀ id, k.identity? = some id → id.addr < fresh

theorem Predates.mono (h : r.Predates fresh) (le : fresh ≤ fresh') : r.Predates fresh' :=
  fun k hk id hid => Nat.lt_of_lt_of_le (h k hk id hid) le

theorem Predates.other (h : r.Predates fresh) {v : Value} {me : Identity}
    (object : v.identity? = some me) (new : fresh ≤ me.addr) : r.constantTag? v = none := by
  unfold constantTag?
  rw [Option.map_eq_none_iff]
  apply List.findIdx?_eq_none_iff.mpr
  intro k hk
  rw [object]
  apply beq_false_of_ne
  intro same
  exact absurd (h k hk me same) (Nat.not_lt.mpr new)

theorem constantTag_of_listed (listed : r.constants[i]? = some v) :
    r.constantTag? v = some (r.constantTag i) := by
  obtain ⟨inside, same⟩ := List.getElem?_eq_some_iff.mp listed
  unfold constantTag?
  rw [Option.map_eq_some_iff]
  refine ⟨i, List.findIdx?_eq_some_iff_getElem.mpr ⟨inside, ?_, fun j hj => ?_⟩, rfl⟩
  · rw [same, beq_self_eq_true]
  · have distinct := List.pairwise_iff_getElem.mp r.constants_distinct j i
      (by rw [List.length_map]; omega) (by rw [List.length_map]; exact inside) hj
    rw [List.getElem_map, List.getElem_map, same] at distinct
    simpa using distinct

/-- How a value is written by codecs that need not be those that read it: the fields, if there is
room for so many payloads. -/
inductive Rewrites (r : Registry) : Nat → Value → List Item → Prop
  | null : r.Rewrites room .null [.tag .null]
  | constant (listed : r.constants[i]? = some v) : r.Rewrites room v [.tag (r.constantTag i)]
  | leaf (other : r.constantTag? (.leaf addr x) = none)
      (found : r.answer r.fallback.made (.byClass x.cls) = .ok b) (fits : b.format.Fits x items)
      (short : x.Short) (finite : x.Finite) :
      r.Rewrites (room + 1) (.leaf addr x) (.tag b.tag :: items)
  | pair (other : r.constantTag? (.pair addr left right) = none)
      (found : r.answer r.fallback.made (.byClass Catalog.pair) = .ok b)
      (sides : b.format = .pair) (first : r.Rewrites room left is)
      (second : r.Rewrites room right js) :
      r.Rewrites (room + 1) (.pair addr left right) (.tag b.tag :: (is ++ js))

theorem Rewrites.transcript (h : r.Rewrites room v items) :
    (r.transcript r.fallback.made v).toPayload = .complete items := by
  induction h with
  | null => rfl
  | @constant i v room listed =>
    have registered := constantTag_of_listed listed
    have object : v ≠ .null := fun null => r.constants_not_null (null ▸ List.mem_of_getElem? listed)
    exact congrArg Transcript.toPayload (transcript_of_constant object registered _)
  | leaf other found fits =>
    simp only [Registry.transcript, other]
    exact complete_coded found (Format.payload_of_fits fits)
  | pair other found sides first second ihl ihr =>
    simp only [Registry.transcript, other]
    apply complete_coded found
    rw [sides]
    exact Transcript.complete_followedBy ihl ihr

/-- The same tree of objects again. Its constants are the very same, and what was no constant is
none. -/
inductive Copies (r : Registry) : Value → Value → Prop
  | null : r.Copies .null .null
  | constant (listed : v ∈ r.constants) : r.Copies v v
  | leaf (x : Leaf) (first : r.constantTag? (.leaf addr x) = none)
      (second : r.constantTag? (.leaf addr' x) = none) : r.Copies (.leaf addr x) (.leaf addr' x)
  | pair (first : r.constantTag? (.pair addr left right) = none)
      (second : r.constantTag? (.pair addr' left' right') = none) (lefts : r.Copies left left')
      (rights : r.Copies right right') :
      r.Copies (.pair addr left right) (.pair addr' left' right')

/-- What a tag can announce. -/
inductive Announces (r : Registry) : Announced → Prop
  | null : r.Announces (.value .null)
  | constant {i : Nat} (listed : r.constants[i]? = some v) : r.Announces (.value v)
  | payload (offers : r.Offers t f) : r.Announces (.payload f)

theorem Announces.rewrites (h : r.Announces (.value v)) (room : Nat) :
    ∃ items, r.Rewrites room v items := by
  cases h with
  | null => exact ⟨_, .null⟩
  | constant listed => exact ⟨_, .constant listed⟩

theorem announces_of_plainTag (run : r.plainTag r.fallback.made p = .ok a p') :
    r.Announces a ∧ p'.fresh = p.fresh := by
  obtain ⟨t, q, tag, announced⟩ := bind_eq_ok.mp run
  have fresh : q.fresh = p.fresh := by
    unfold Reading.step Decode.field at tag
    cases hr : Cursor.tag p.input <;> simp only [hr] at tag <;> cases tag
    rfl
  unfold plainAnnounce at announced
  split at announced
  · cases announced
    exact ⟨.null, fresh⟩
  · split at announced
    · cases announced
    · cases constant : r.constantAt? t with
      | some v =>
        rw [constant] at announced
        cases announced
        obtain ⟨i, _, listed⟩ := (r.constantAt_eq_some t v).mp constant
        exact ⟨.constant listed, fresh⟩
      | none =>
        rw [constant] at announced
        obtain ⟨b, q', asked, last⟩ := bind_eq_ok.mp announced
        unfold Reading.ask at asked
        cases found : r.answer r.fallback.made (.byTag t) <;> rw [found] at asked <;> cases asked
        cases last
        exact ⟨.payload (offers_of_answer found), fresh⟩

section

variable (ordinary : r.Ordinary)

include ordinary

theorem rewrites_of_content (offers : r.Offers t f) (other : f ≠ .pair) {p p' : Reader}
    (older : r.Predates p.fresh) (side : Reading Value) (run : f.plainRead side p = .ok v p')
    (room : Nat) : (∃ items, r.Rewrites (room + 1) v items) ∧ p.fresh ≤ p'.fresh := by
  rw [(Format.read_alone other (return .null) side).2] at run
  unfold Reading.step at run
  cases hr : f.read (return .null) ⟨p.input, 0, p.fresh, .empty⟩ <;> rw [hr] at run <;> cases run
  obtain ⟨x, given, rfl, next, _⟩ := f.read_makes other (return .null) _ _ _ hr
  obtain ⟨b, items, found, fits⟩ := writer_of_content ordinary offers given
  have new := older.other (v := .leaf p.fresh x) rfl (Nat.le_refl _)
  refine ⟨⟨_, .leaf new found fits given.short given.finite⟩, ?_⟩
  exact Nat.le_of_lt (Nat.lt_of_succ_le (Nat.le_of_eq next.symm))

theorem rewrites_of_plainRead {room : Nat} {p p' : Reader} {v : Value}
    (older : r.Predates p.fresh) (run : r.plainRead r.fallback.made room p = .ok v p') :
    (∃ items, r.Rewrites room v items) ∧ p.fresh ≤ p'.fresh := by
  induction room generalizing p p' v with
  | zero =>
    obtain ⟨a, q, tag, rest⟩ := bind_eq_ok.mp run
    obtain ⟨announces, fresh⟩ := announces_of_plainTag tag
    cases a with
    | value w =>
      cases rest
      exact ⟨announces.rewrites 0, Nat.le_of_eq fresh.symm⟩
    | payload f => cases rest
  | succ room ih =>
    obtain ⟨a, q, tag, rest⟩ := bind_eq_ok.mp run
    obtain ⟨announces, fresh⟩ := announces_of_plainTag tag
    rw [← fresh] at older ⊢
    cases a with
    | value w =>
      cases rest
      exact ⟨announces.rewrites _, Nat.le_refl _⟩
    | payload f =>
      cases announces with
      | payload offers =>
        by_cases pair : f = .pair
        · subst pair
          obtain ⟨left, q₁, first, rest⟩ := bind_eq_ok.mp rest
          obtain ⟨right, q₂, second, rest⟩ := bind_eq_ok.mp rest
          obtain ⟨⟨is, lefts⟩, le₁⟩ := ih older first
          obtain ⟨⟨js, rights⟩, le₂⟩ := ih (older.mono le₁) second
          obtain ⟨b, found, sides⟩ := writer_of_pair ordinary offers
          cases rest
          have new := older.other (v := .pair q₂.fresh left right) rfl (Nat.le_trans le₁ le₂)
          exact ⟨⟨_, .pair new found sides lefts rights⟩,
            Nat.le_succ_of_le (Nat.le_trans le₁ le₂)⟩
        · exact rewrites_of_content ordinary offers pair older _ rest room

end

theorem readTag_of_answer (found : r.answer r.fallback.made q = .ok b) {s : Decoder}
    (sound : r.Sound s.memo) (faces : s.input = .facing pos ((Item.tag b.tag).encode ++ rest)) :
    ∃ t pos', r.readTag s = .ok (.payload b.format) t ∧ t.input = .facing pos' rest ∧
      t.fresh = s.fresh ∧ r.Sound t.memo := by
  obtain ⟨m, sound, read⟩ := readTag_of_offers (offers_of_answer found) sound faces
  exact ⟨_, _, read, rfl, rfl, sound⟩

/-- The fields of a value are read as a copy of it, for which they are the fields again. -/
theorem Rewrites.read (h : r.Rewrites room v items) (exact : r.AllCoded Leaf.Exact v) {s : Decoder}
    (sound : r.Sound s.memo) (older : r.Predates s.fresh)
    (faces : s.input = .facing pos (items.flatMap Item.encode ++ rest)) :
    ∃ v' s' pos', r.readWithin room s = .ok v' s' ∧ r.Copies v v' ∧ r.Rewrites room v' items ∧
      s'.input = .facing pos' rest ∧ r.Sound s'.memo ∧ s.fresh ≤ s'.fresh := by
  induction h generalizing s pos rest with
  | @null room =>
    rw [List.flatMap_singleton] at faces
    exact ⟨_, _, _, readWithin_value (readTag_of_null faces) room, .null, .null, rfl, sound,
      Nat.le_refl _⟩
  | @constant i v room listed =>
    rw [List.flatMap_singleton] at faces
    exact ⟨_, _, _, readWithin_value (readTag_of_constant listed faces) room,
      .constant (List.mem_of_getElem? listed), .constant listed, rfl, sound, Nat.le_refl _⟩
  | @leaf addr x b items room other found fits short finite =>
    rw [List.flatMap_cons, List.append_assoc] at faces
    obtain ⟨t, _, read, place, fresh, sound⟩ := readTag_of_answer found sound faces
    have content := Format.read_payload fits (r.readWithin room)
      (s := { t with depth := t.depth + 1 }) place short
    rw [(exact other).reread finite] at content
    have done := Decode.deeper_eq_ok.mpr ⟨_, content, rfl⟩
    rw [← readWithin_succ read] at done
    rw [← fresh] at older ⊢
    have new := older.other (v := .leaf t.fresh x) rfl (Nat.le_refl _)
    exact ⟨_, _, _, done, .leaf x other new, .leaf new found fits short finite, rfl, sound,
      Nat.le_succ _⟩
  | @pair addr left right b room is js other found sides first second ihl ihr =>
    obtain ⟨exactLeft, exactRight⟩ := exact other
    rw [List.flatMap_cons, List.flatMap_append, List.append_assoc, List.append_assoc] at faces
    obtain ⟨t, _, read, place, fresh, sound⟩ := readTag_of_answer found sound faces
    rw [sides] at read
    rw [← fresh] at older ⊢
    obtain ⟨l, u, _, hl, leftCopy, lefts, place, sound, le₁⟩ :=
      ihl exactLeft (s := { t with depth := t.depth + 1 }) sound older place
    obtain ⟨w, u', _, hr, rightCopy, rights, place, sound, le₂⟩ :=
      ihr exactRight sound (older.mono le₁) place
    have new := older.other (v := .pair u'.fresh l w) rfl (Nat.le_trans le₁ le₂)
    exact ⟨_, _, _, readWithin_pair read hl hr, .pair other new leftCopy rightCopy,
      .pair new found sides lefts rights, place, sound, Nat.le_succ_of_le (Nat.le_trans le₁ le₂)⟩

theorem rewrites_of_decode (ordinary : r.Ordinary) {m m' : Memo} (reached : r.Leads r.start m)
    {fresh : Nat} (older : r.Predates fresh) {bs : List UInt8}
    (read : r.decode bs fresh m = .ok v m') : ∃ items, r.Rewrites nestingLimit v items := by
  unfold decode at read
  have plainly := r.read_plainly (.ofList bs) 0 fresh m
  rw [reached.settled] at plainly
  cases run : r.plainRead r.fallback.made (nestingLimit - 0) ⟨.ofList bs, fresh, []⟩ with
  | error e p =>
    rw [run] at plainly
    rw [plainly] at read
    cases read
  | ok w p =>
    rw [run] at plainly
    rw [plainly] at read
    cases read
    exact (rewrites_of_plainRead ordinary older run).1

/-- What is read can be written, by whichever codecs that is then, and the bytes are a normal form:
reading them gives the value again, its constants the very same, and writing it these bytes. The
numbers are taken to be read as they were printed. -/
theorem reencoding_normalizes {d : Draft} (ordinary : d.Ordinary) (built : d.build = .ok r)
    {m m' : Memo} (reached : r.Leads r.start m) {fresh : Nat} (older : r.Predates fresh)
    {bs : List UInt8} (read : r.decode bs fresh m = .ok v m') :
    ∃ cs, (∀ n, r.Leads r.start n → ∃ n', r.encode v n = .ok cs n') ∧
      (r.AllCoded Leaf.Exact v → ∀ n fresh', r.Leads r.start n → r.Predates fresh' →
        ∃ v' n', r.decode cs fresh' n = .ok v' n' ∧ r.Copies v v' ∧
          ∀ k, r.Leads r.start k → ∃ k', r.encode v' k = .ok cs k') := by
  obtain ⟨items, rewrites⟩ := rewrites_of_decode (ordinary.build built) reached older read
  refine ⟨items.flatMap Item.encode, fun n reached => ?_, fun exact n fresh' reached older => ?_⟩
  · exact encode_of_complete reached rewrites.transcript
  · have faces : Cursor.ofList (items.flatMap Item.encode) =
        .facing 0 (items.flatMap Item.encode ++ []) := by
      rw [List.append_nil]
      exact Cursor.ofList_eq_facing _
    obtain ⟨v', s', _, read, copies, again, _⟩ := rewrites.read exact
      (s := ⟨.ofList (items.flatMap Item.encode), 0, fresh', n⟩) reached.sound older faces
    refine ⟨v', s'.memo, ?_, copies, fun k reached => encode_of_complete reached again.transcript⟩
    unfold decode
    rw [read_eq nestingLimit rfl, read]

/-- A circle that came under the tag for its name goes out again as a shape, and the byte behind
the value is gone. -/
theorem circle_written_as_shape :
    ∃ d r bs v cs v' m n, (((((Draft.empty.addCodec ⟨7, .shape⟩).addCodec ⟨8, .pair⟩).addName
        "demo.shapes.Circle").withResolver (.ofClassPath Catalog.classPath)).addConstant
        (.leaf 5 (.label "on")) (by simp)) = .ok d ∧
      d.Ordinary ∧ d.build = .ok r ∧ r.Predates 10 ∧ r.decode bs 10 r.start = .ok v m ∧
      r.AllCoded Leaf.Exact v ∧ r.encode v r.start = .ok cs r.start ∧ cs ≠ bs ∧
      r.decode cs 20 r.start = .ok v' n ∧ r.Copies v v' ∧ ∃ k, r.encode v' r.start = .ok cs k := by
  obtain ⟨d, added⟩ : ∃ d, (((((Draft.empty.addCodec ⟨7, .shape⟩).addCodec ⟨8, .pair⟩).addName
      "demo.shapes.Circle").withResolver (.ofClassPath Catalog.classPath)).addConstant
      (.leaf 5 (.label "on")) (by simp)) = .ok d := ⟨_, rfl⟩
  obtain ⟨r, built⟩ : ∃ r, d.build = .ok r := by
    cases added
    exact ⟨_, rfl⟩
  have ordinary : d.Ordinary := by
    cases added
    exact ⟨by decide, rfl⟩
  have older (fresh : Nat) (new : 5 < fresh) : r.Predates fresh := by
    cases added
    cases built
    intro k hk me same
    cases List.mem_singleton.mp hk
    cases same
    exact new
  obtain ⟨bs, hbs⟩ : ∃ bs : List UInt8, bs = [2, 8, 12, 123, 34, 114, 97, 100, 105, 117, 115, 34,
    58, 50, 125, 6, 9] := ⟨_, rfl⟩
  obtain ⟨v, hv⟩ : ∃ v : Value, v = .pair 11 (.leaf 10 (.record (.circle ⟨0x4000000000000000⟩)))
    (.leaf 5 (.label "on")) := ⟨_, rfl⟩
  obtain ⟨cs, hcs⟩ : ∃ cs : List UInt8, cs = [2, 4, 18, 100, 101, 109, 111, 46, 115, 104, 97, 112,
    101, 115, 46, 67, 105, 114, 99, 108, 101, 14, 123, 34, 114, 97, 100, 105, 117, 115, 34, 58, 50,
    46, 48, 125, 6] := ⟨_, rfl⟩
  have read : r.decode bs 10 r.start = .ok v (after (r.decode bs 10) r.start) := by
    cases added
    cases built
    rw [hbs, hv]
    decide +kernel
  have written : r.encode v r.start = .ok cs r.start := by
    cases added
    cases built
    rw [hv, hcs]
    decide +kernel
  have exact : r.AllCoded Leaf.Exact v := by
    rw [hv]
    refine fun _ => ⟨fun _ x hx _ => ?_, fun _ => trivial⟩
    cases List.mem_singleton.mp hx
    decide +kernel
  obtain ⟨ds, encoded, again⟩ :=
    reencoding_normalizes ordinary built .start (older 10 (by decide)) read
  obtain ⟨_, same⟩ := encoded r.start .start
  cases written.symm.trans same
  obtain ⟨v', n, decoded, copies, rewritten⟩ := again exact r.start 20 .start (older 20 (by decide))
  have other : cs ≠ bs := by
    rw [hcs, hbs]
    decide
  exact ⟨d, r, bs, v, cs, v', _, n, added, ordinary, built, older 10 (by decide), read, exact,
    written, other, decoded, copies, rewritten r.start .start⟩

end Registry

end TagCodec
