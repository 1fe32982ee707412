import TagCodec.Proofs.FiniteNumbers
import TagCodec.Proofs.Peers

namespace TagCodec

open Steps

/-- The content can be read back, though its numbers may have changed. -/
def Leaf.Readable (x : Leaf) : Prop := x.reread?.isSome = true

/-- All numbers of the content are finite. -/
def Leaf.Finite : Leaf → Prop
  | .record r => ∀ x ∈ r.values, x.isFinite = true
  | _ => True

/-- Each number of the content is the one that its text is read as. -/
def Leaf.Stable : Leaf → Prop
  | .record r => ∀ x ∈ r.values, x.reread? = some x
  | _ => True

/-- Only the numbers can keep a content from being read back as it was. -/
theorem Leaf.reread_eq_self {x : Leaf} : x.reread? = some x ↔ x.Stable := by
  cases x with
  | record r =>
    simp only [reread?, Stable, Option.map_eq_some_iff, record.injEq, exists_eq_right]
    exact r.reread_eq_self
  | _ => exact ⟨fun _ => trivial, fun _ => rfl⟩

theorem Leaf.Finite.readable {x : Leaf} (h : x.Finite) : x.Readable := by
  cases x with
  | record r => exact Option.isSome_map.trans (Record.reread_isSome h)
  | _ => rfl

namespace Registry

/-- The contents that go through a codec all have the property. Constants do not. -/
def AllCoded (r : Registry) (P : Leaf → Prop) : Value → Prop
  | .null => True
  | .leaf addr x => r.constantTag? (.leaf addr x) = none → P x
  | .pair addr left right => r.constantTag? (.pair addr left right) = none →
      r.AllCoded P left ∧ r.AllCoded P right

/-- How many payloads are open at once while the value is written or read. -/
def payloadDepth (r : Registry) : Value → Nat
  | .null => 0
  | .leaf addr x => if (r.constantTag? (.leaf addr x)).isSome then 0 else 1
  | .pair addr left right =>
    if (r.constantTag? (.pair addr left right)).isSome then 0
    else 1 + max (r.payloadDepth left) (r.payloadDepth right)

/-- The same tree of objects on two sides. A constant of the one stands where the constant of
the same number stands on the other, and all other contents correspond by `via`. -/
inductive Mirrors (a b : Registry) (via : Leaf → Option Leaf) : Value → Value → Prop
  | null : a.Mirrors b via .null .null
  | constant {i : Nat} {k v : Value} (mine : a.constants[i]? = some k)
      (same : k.identity? = v.identity?) (theirs : b.constants[i]? = some v') :
      a.Mirrors b via v v'
  | leaf (other : a.constantTag? (.leaf addr x) = none) (content : via x = some y) :
      a.Mirrors b via (.leaf addr x) (.leaf addr' y)
  | pair (other : a.constantTag? (.pair addr left right) = none)
      (first : a.Mirrors b via left left') (second : a.Mirrors b via right right') :
      a.Mirrors b via (.pair addr left right) (.pair addr' left' right')

/-- The same tree of objects, but for the addresses of those that are no constants. -/
inductive Same (r : Registry) : Value → Value → Prop
  | null : r.Same .null .null
  | constant (listed : v ∈ r.constants) : r.Same v v
  | leaf (x : Leaf) : r.Same (.leaf addr x) (.leaf addr' x)
  | pair (left : r.Same l l') (right : r.Same k k') : r.Same (.pair addr l k) (.pair addr' l' k')

theorem constantTag_eq_some {r : Registry} {v : Value} (h : r.constantTag? v = some t) :
    ∃ i k, r.constants[i]? = some k ∧ k.identity? = v.identity? ∧ t = r.constantTag i := by
  obtain ⟨i, hi, rfl⟩ := Option.map_eq_some_iff.mp h
  obtain ⟨inside, same, _⟩ := List.findIdx?_eq_some_iff_getElem.mp hi
  exact ⟨i, _, List.getElem?_eq_getElem inside, eq_of_beq same, rfl⟩

theorem allCoded_of_constant {r : Registry} {v : Value} (h : r.constantTag? v = some t)
    (P : Leaf → Prop) : r.AllCoded P v := by
  cases v with
  | null => trivial
  | leaf addr x =>
    intro other
    rw [h] at other
    cases other
  | pair addr left right =>
    intro other
    rw [h] at other
    cases other

theorem payloadDepth_of_constant {r : Registry} {v : Value} (h : r.constantTag? v = some t) :
    r.payloadDepth v = 0 := by
  cases v with
  | null => rfl
  | leaf addr x => rw [payloadDepth, h, Option.isSome_some, if_pos rfl]
  | pair addr left right => rw [payloadDepth, h, Option.isSome_some, if_pos rfl]

theorem readTag_of_null {r : Registry} {s : Decoder}
    (faces : s.input = .facing pos ((Item.tag .null).encode ++ rest)) :
    r.readTag s = .ok (.value .null)
      { s with input := .facing (pos + (Item.tag .null).encode.length) rest } := by
  rw [readTag_of_field (Decode.field_facing faces (Cursor.tag_encode .null pos rest))]
  rfl

theorem readTag_of_constant {r : Registry} {s : Decoder} (listed : r.constants[i]? = some v)
    (faces : s.input = .facing pos ((Item.tag (r.constantTag i)).encode ++ rest)) :
    r.readTag s = .ok (.value v)
      { s with input := .facing (pos + (Item.tag (r.constantTag i)).encode.length) rest } := by
  have inside := (List.getElem?_eq_some_iff.mp listed).1
  have tag := toInt_constantTag inside
  rw [readTag_of_field (Decode.field_facing faces (Cursor.tag_encode _ pos rest)),
    announce_assigned (by omega), constantAt_constantTag listed]
  rfl

section

variable {r : Registry} {s t : Decoder}

theorem readWithin_value (h : r.readTag s = .ok (.value v) t) (room : Nat) :
    r.readWithin room s = .ok v t := by
  cases room <;> exact bind_of_ok h

theorem readWithin_zero (h : r.readTag s = .ok (.payload f) t) :
    r.readWithin 0 s = .error (.tooDeep nestingLimit) t :=
  bind_of_ok h

theorem readWithin_succ (h : r.readTag s = .ok (.payload f) t) (room : Nat) :
    r.readWithin (room + 1) s = Decode.deeper (f.read (r.readWithin room)) t :=
  bind_of_ok h

/-- A read that finds a payload comes to an end if it has room for it and the payload is read. -/
theorem content_of_ok (tag : r.readTag s = .ok (.payload f) t)
    (read : r.readWithin room s = .ok u s') : ∃ k t', room = k + 1 ∧
      f.read (r.readWithin k) { t with depth := t.depth + 1 } = .ok u t' ∧
      s' = { t' with depth := t'.depth - 1 } := by
  cases room with
  | zero =>
    rw [readWithin_zero tag] at read
    cases read
  | succ k =>
    rw [readWithin_succ tag] at read
    obtain ⟨t', content, left⟩ := Decode.deeper_eq_ok.mp read
    exact ⟨k, t', rfl, content, left⟩

end

/-- What comes of reading the bytes of a value, `c` being the place behind them, when there is
room for so many payloads. -/
structure Receives (a b : Registry) (v : Value) (room : Nat) (s : Decoder) (c : Cursor) :
    Prop where
  complete : a.AllCoded Leaf.Readable v → a.payloadDepth v ≤ room → ∃ v' s',
    b.readWithin room s = .ok v' s' ∧ a.Mirrors b Leaf.reread? v v' ∧ s'.input = c ∧
      b.Sound s'.memo
  tooDeep : a.AllCoded Leaf.Readable v → room < a.payloadDepth v →
    ∃ s', b.readWithin room s = .error (.tooDeep nestingLimit) s'
  unreadable : ¬ a.AllCoded Leaf.Readable v → ∃ e s', b.readWithin room s = .error e s'

theorem receives_of_value {a b : Registry} {v v' : Value} {s s' : Decoder}
    (read : b.readTag s = .ok (.value v') s') (mirrors : a.Mirrors b Leaf.reread? v v')
    (free : a.AllCoded Leaf.Readable v) (flat : a.payloadDepth v = 0) (sound : b.Sound s'.memo)
    (room : Nat) : a.Receives b v room s s'.input where
  complete _ _ := ⟨v', s', readWithin_value read room, mirrors, rfl, sound⟩
  tooDeep _ deep := absurd deep (by omega)
  unreadable bad := absurd free bad

theorem receives_of_constant {a b : Registry} {v : Value} (peers : a.Peers b)
    (registered : a.constantTag? v = some t) {s : Decoder} (sound : b.Sound s.memo)
    (faces : s.input = .facing pos ((Item.tag t).encode ++ rest)) (room : Nat) :
    a.Receives b v room s (.facing (pos + (Item.tag t).encode.length) rest) := by
  have free := allCoded_of_constant registered Leaf.Readable
  have flat := payloadDepth_of_constant registered
  obtain ⟨i, k, mine, same, rfl⟩ := constantTag_eq_some registered
  have inside : i < b.constants.length := peers.constants ▸ (List.getElem?_eq_some_iff.mp mine).1
  have theirs := List.getElem?_eq_getElem inside
  rw [peers.constantTag] at faces ⊢
  exact receives_of_value (readTag_of_constant theirs faces) (.constant mine same theirs) free flat
    sound room

section

variable {a b : Registry} {s : Decoder} {pos : Nat} {rest : List UInt8}

/-- Without room for its payload, a value is too deep whatever is in it. -/
theorem receives_zero {v : Value} {t : Decoder} (read : b.readTag s = .ok (.payload f) t)
    (deep : 0 < a.payloadDepth v) (c : Cursor) : a.Receives b v 0 s c where
  complete _ enough := absurd enough (by omega)
  tooDeep _ _ := ⟨t, readWithin_zero read⟩
  unreadable _ := ⟨_, t, readWithin_zero read⟩

theorem receives_leaf {x : Leaf} (other : a.constantTag? (.leaf addr x) = none)
    {f : Format} {items : List Item} (fits : f.Fits x items) (short : x.Short) {t : Decoder}
    (read : b.readTag s = .ok (.payload f) t) (sound : b.Sound t.memo)
    (faces : t.input = .facing pos (items.flatMap Item.encode ++ rest)) (room : Nat) :
    a.Receives b (.leaf addr x) room s
      (.facing (pos + (items.flatMap Item.encode).length) rest) := by
  have depth : a.payloadDepth (.leaf addr x) = 1 := by
    rw [payloadDepth, other]
    rfl
  cases room with
  | zero => exact receives_zero read (by omega) _
  | succ room =>
    have content := Format.read_payload fits (b.readWithin room)
      (s := { t with depth := t.depth + 1 }) faces short
    cases hx : x.reread? with
    | none =>
      rw [hx] at content
      obtain ⟨e, u, he⟩ := content
      have failed : b.readWithin (room + 1) s = .error e { u with depth := u.depth - 1 } := by
        rw [readWithin_succ read]
        exact Decode.deeper_eq_error.mpr ⟨u, he, rfl⟩
      have unread : ¬ x.Readable := by
        rw [Leaf.Readable, hx]
        exact Bool.false_ne_true
      exact ⟨fun all => absurd (all other) unread, fun all => absurd (all other) unread,
        fun _ => ⟨e, _, failed⟩⟩
    | some y =>
      rw [hx] at content
      have done := Decode.deeper_eq_ok.mpr ⟨_, content, rfl⟩
      rw [← readWithin_succ read] at done
      constructor
      · intro _ _
        exact ⟨_, _, done, .leaf other hx, rfl, sound⟩
      · intro _ deep
        omega
      · intro bad
        refine absurd (fun _ => ?_) bad
        rw [Leaf.Readable, hx]
        rfl

section

variable {t : Decoder} (read : b.readTag s = .ok (.payload .pair) t)

include read

theorem readWithin_pair (hl : b.readWithin room { t with depth := t.depth + 1 } = .ok l u)
    (hr : b.readWithin room u = .ok r u') : b.readWithin (room + 1) s =
      .ok (.pair u'.fresh l r) { u' with depth := u'.depth - 1, fresh := u'.fresh + 1 } := by
  rw [readWithin_succ read]
  exact Decode.deeper_eq_ok.mpr ⟨_, (bind_of_ok hl).trans ((bind_of_ok hr).trans rfl), rfl⟩

theorem readWithin_pair_of_left
    (hl : b.readWithin room { t with depth := t.depth + 1 } = .error e u) :
    ∃ s', b.readWithin (room + 1) s = .error e s' := by
  rw [readWithin_succ read]
  exact ⟨_, Decode.deeper_eq_error.mpr ⟨u, bind_of_error hl, rfl⟩⟩

theorem readWithin_pair_of_right
    (hl : b.readWithin room { t with depth := t.depth + 1 } = .ok l u)
    (hr : b.readWithin room u = .error e u') :
    ∃ s', b.readWithin (room + 1) s = .error e s' := by
  rw [readWithin_succ read]
  exact ⟨_, Decode.deeper_eq_error.mpr ⟨u', (bind_of_ok hl).trans (bind_of_error hr), rfl⟩⟩

/-- A pair is received if its sides are, the second from where the first one ends. -/
theorem receives_pair (other : a.constantTag? (.pair addr left right) = none) {c c' : Cursor}
    (first : ∀ room, a.Receives b left room { t with depth := t.depth + 1 } c)
    (second : ∀ u : Decoder, u.input = c → b.Sound u.memo → ∀ room, a.Receives b right room u c')
    (room : Nat) : a.Receives b (.pair addr left right) room s c' := by
  have depth : a.payloadDepth (.pair addr left right) =
      1 + max (a.payloadDepth left) (a.payloadDepth right) := by
    rw [payloadDepth, other]
    rfl
  cases room with
  | zero => exact receives_zero read (by omega) _
  | succ room =>
    constructor
    · intro all enough
      obtain ⟨readableLeft, readableRight⟩ := all other
      obtain ⟨l, u, hl, left, place, sound⟩ := (first room).complete readableLeft (by omega)
      obtain ⟨r, u', hr, right, place', sound'⟩ :=
        (second u place sound room).complete readableRight (by omega)
      exact ⟨_, _, readWithin_pair read hl hr, .pair other left right, place', sound'⟩
    · intro all deep
      obtain ⟨readableLeft, readableRight⟩ := all other
      -- if the left side fits in, it is read to its end before the right one fails
      by_cases enough : a.payloadDepth left ≤ room
      · obtain ⟨l, u, hl, _, place, sound⟩ := (first room).complete readableLeft enough
        obtain ⟨u', hr⟩ := (second u place sound room).tooDeep readableRight (by omega)
        exact readWithin_pair_of_right read hl hr
      · obtain ⟨u, hl⟩ := (first room).tooDeep readableLeft (by omega)
        exact readWithin_pair_of_left read hl
    · intro bad
      by_cases readableLeft : a.AllCoded Leaf.Readable left
      · by_cases enough : a.payloadDepth left ≤ room
        · obtain ⟨l, u, hl, _, place, sound⟩ := (first room).complete readableLeft enough
          have badRight : ¬ a.AllCoded Leaf.Readable right :=
            fun readableRight => bad fun _ => ⟨readableLeft, readableRight⟩
          obtain ⟨e, u', hr⟩ := (second u place sound room).unreadable badRight
          exact ⟨e, readWithin_pair_of_right read hl hr⟩
        · obtain ⟨u, hl⟩ := (first room).tooDeep readableLeft (by omega)
          exact ⟨_, readWithin_pair_of_left read hl⟩
      · obtain ⟨e, u, hl⟩ := (first room).unreadable readableLeft
        exact ⟨e, readWithin_pair_of_left read hl⟩

end

end

/-- The bytes of a value are received by every peer, whatever is behind them. -/
theorem read_spelled {a b : Registry} (peers : a.Peers b) (h : a.Spells v bs)
    (short : a.AllCoded Leaf.Short v) {s : Decoder} (sound : b.Sound s.memo)
    (faces : s.input = .facing pos (bs ++ rest)) (room : Nat) :
    a.Receives b v room s (.facing (pos + bs.length) rest) := by
  -- the memo of the reader changes on the way, of which only its soundness is needed
  induction h generalizing s pos rest room with
  | null => exact receives_of_value (readTag_of_null faces) .null trivial rfl sound room
  | constant object registered =>
    exact receives_of_constant peers registered sound faces room
  | leaf other offers complete =>
    rw [List.append_assoc] at faces
    rw [List.length_append]
    obtain ⟨m, sound, read⟩ := readTag_of_offers (peers.offers offers) sound faces
    have fits := Format.fits_of_payload (peers.noToken offers) complete
    rw [← Nat.add_assoc]
    exact receives_leaf other fits (short other) read sound rfl room
  | pair other offers first second ihl ihr =>
    rw [List.append_assoc, List.append_assoc] at faces
    rw [List.length_append, List.length_append]
    obtain ⟨shortLeft, shortRight⟩ := short other
    obtain ⟨m, sound, read⟩ := readTag_of_offers (peers.offers offers) sound faces
    rw [← Nat.add_assoc, ← Nat.add_assoc]
    refine receives_pair read other (fun room => ihl shortLeft sound rfl room) ?_ room
    exact fun u place sound room => ihr shortRight sound place room

theorem Spells.short {a b : Registry} (peers : a.Peers b) (h : a.Spells v bs)
    (short : bs.length < 0x10000000000000000) : a.AllCoded Leaf.Short v := by
  induction h with
  | null => trivial
  | constant object registered => exact allCoded_of_constant registered _
  | leaf other offers complete =>
    rw [List.length_append] at short
    intro _
    exact Format.short_of_fits (Format.fits_of_payload (peers.noToken offers) complete) (by omega)
  | pair other offers first second ihl ihr =>
    rw [List.length_append, List.length_append] at short
    exact fun _ => ⟨ihl (by omega), ihr (by omega)⟩

theorem AllCoded.imp {r : Registry} {P Q : Leaf → Prop} (h : ∀ x, P x → Q x) {v : Value}
    (all : r.AllCoded P v) : r.AllCoded Q v := by
  induction v with
  | null => trivial
  | leaf addr x => exact fun other => h x (all other)
  | pair addr left right ihl ihr => exact fun other => ⟨ihl (all other).1, ihr (all other).2⟩

theorem constantTag_of_same {r : Registry} {i : Nat} {k v : Value} (mine : r.constants[i]? = some k)
    (same : k.identity? = v.identity?) : ∃ t, r.constantTag? v = some t := by
  unfold constantTag?
  cases found : r.constants.findIdx? fun k => k.identity? == v.identity? with
  | some j => exact ⟨_, rfl⟩
  | none =>
    have differs := List.findIdx?_eq_none_iff.mp found k (List.mem_of_getElem? mine)
    rw [same, beq_self_eq_true] at differs
    cases differs

theorem constant_unique {r : Registry} {i j : Nat} (mine : r.constants[i]? = some k)
    (other : r.constants[j]? = some l) (same : k.identity? = l.identity?) : i = j := by
  have left : (r.constants.map Value.identity?)[i]? = some k.identity? := by
    rw [List.getElem?_map, mine]
    rfl
  have right : (r.constants.map Value.identity?)[j]? = some k.identity? := by
    rw [List.getElem?_map, other, same]
    rfl
  have inside := (List.getElem?_eq_some_iff.mp left).1
  exact (List.getElem?_inj inside r.constants_distinct).mp (left.trans right.symm)

theorem constant_ne_null {r : Registry} {i : Nat} (mine : r.constants[i]? = some k) :
    k.identity? ≠ Value.null.identity? := by
  cases k with
  | null => exact absurd (List.mem_of_getElem? mine) r.constants_not_null
  | _ => exact nofun

theorem not_constant {r : Registry} {i : Nat} {k v : Value} (mine : r.constants[i]? = some k)
    (other : r.constantTag? v = none) : k.identity? ≠ v.identity? := by
  intro same
  obtain ⟨t, registered⟩ := constantTag_of_same mine same
  rw [other] at registered
  cases registered

theorem Mirrors.of_stable {a b : Registry} {v v' : Value}
    (h : a.Mirrors b Leaf.reread? v v') (stable : a.AllCoded Leaf.Stable v) :
    a.Mirrors b some v v' := by
  induction h with
  | null => exact .null
  | constant mine same theirs => exact .constant mine same theirs
  | leaf other content =>
    have same := Leaf.reread_eq_self.mpr (stable other)
    rw [content] at same
    exact .leaf other same.symm
  | pair other first second ihl ihr =>
    exact .pair other (ihl (stable other).1) (ihr (stable other).2)

theorem Mirrors.stable {a b : Registry} {v v' : Value}
    (h : a.Mirrors b Leaf.reread? v v') (kept : a.Mirrors b some v v') :
    a.AllCoded Leaf.Stable v := by
  induction h with
  | null => trivial
  | constant mine same theirs =>
    obtain ⟨t, registered⟩ := constantTag_of_same mine same
    exact allCoded_of_constant registered _
  | leaf other content =>
    intro _
    cases kept with
    | constant mine same _ => exact absurd same (not_constant mine other)
    | leaf _ alike =>
      cases alike
      exact Leaf.reread_eq_self.mp content
  | pair other first second ihl ihr =>
    intro _
    cases kept with
    | constant mine same _ => exact absurd same (not_constant mine other)
    | pair _ left right => exact ⟨ihl left, ihr right⟩

/-- What corresponds to one value is the same but for addresses. -/
theorem Mirrors.same {a b : Registry} {v u w : Value} (first : a.Mirrors b via v u)
    (second : a.Mirrors b via v w) : b.Same u w := by
  induction first generalizing w with
  | null =>
    cases second with
    | null => exact .null
    | constant mine same _ => exact absurd same (constant_ne_null mine)
  | constant mine same theirs =>
    cases second with
    | null => exact absurd same (constant_ne_null mine)
    | constant mine' same' theirs' =>
      have place := constant_unique mine mine' (same.trans same'.symm)
      subst place
      rw [theirs] at theirs'
      cases theirs'
      exact .constant (List.mem_of_getElem? theirs)
    | leaf other _ => exact absurd same (not_constant mine other)
    | pair other _ _ => exact absurd same (not_constant mine other)
  | leaf other content =>
    cases second with
    | constant mine same _ => exact absurd same (not_constant mine other)
    | leaf _ content' =>
      rw [content] at content'
      cases content'
      exact .leaf _
  | pair other _ _ ihl ihr =>
    cases second with
    | constant mine same _ => exact absurd same (not_constant mine other)
    | pair _ left right => exact .pair (ihl left) (ihr right)

theorem spells_of_encode {a : Registry} {m m' : Memo} (written : a.Leads a.start m) {v : Value}
    {bs : List UInt8} (encoded : a.encode v m = .ok bs m') : a.Spells v bs := by
  unfold encode at encoded
  cases hw : a.write v ⟨.empty, m⟩ with
  | error e s =>
    rw [hw] at encoded
    cases encoded
  | ok u s =>
    rw [hw] at encoded
    cases encoded
    obtain ⟨bs, spelled, out, _⟩ := write_spells written.sound hw
    rw [Output.toList_empty, List.nil_append] at out
    rwa [out]

/-- What one registry wrote, read by its peer from the start of an input. -/
theorem receives_of_encode {a b : Registry} (peers : a.Peers b) {m m' n : Memo}
    (written : a.Leads a.start m) (read : b.Leads b.start n) {v : Value} {bs : List UInt8}
    (encoded : a.encode v m = .ok bs m') (short : bs.length < 0x10000000000000000)
    (more : List UInt8) (fresh : Nat) :
    a.Receives b v nestingLimit ⟨.ofList (bs ++ more), 0, fresh, n⟩ (.facing bs.length more) := by
  have spelled := spells_of_encode written encoded
  have received := read_spelled peers spelled (spelled.short peers short)
    (s := ⟨.ofList (bs ++ more), 0, fresh, n⟩) read.sound (Cursor.ofList_eq_facing _) nestingLimit
  rwa [Nat.zero_add] at received

/-- A value whose numbers are finite is read back by a peer, which stops where its bytes end, and
constants come back as the peer's own. All is as it was exactly when each number is what its text
is read as. Beyond the limit of nesting the reading fails. The bound on the length is that of an
address space, which no buffer exceeds. -/
theorem peers_agree {d e : Draft} (same : d.Peers e) {a b : Registry} (ha : d.build = .ok a)
    (hb : e.build = .ok b) {m m' n : Memo} (wrote : a.Leads a.start m) (reads : b.Leads b.start n)
    {v : Value} (finite : a.AllCoded Leaf.Finite v) {bs : List UInt8}
    (encoded : a.encode v m = .ok bs m') (short : bs.length < 0x10000000000000000)
    (more : List UInt8) (fresh : Nat) :
    (a.payloadDepth v ≤ nestingLimit → ∃ v' s',
      b.read ⟨.ofList (bs ++ more), 0, fresh, n⟩ = .ok v' s' ∧ s'.input = .facing bs.length more ∧
      a.Mirrors b Leaf.reread? v v' ∧
      (a.Mirrors b some v v' ↔ a.AllCoded Leaf.Stable v)) ∧
    (nestingLimit < a.payloadDepth v → ∃ s',
      b.read ⟨.ofList (bs ++ more), 0, fresh, n⟩ = .error (.tooDeep nestingLimit) s') := by
  have received := receives_of_encode (peers_of_build same ha hb) wrote reads encoded short more
    fresh
  have readable := finite.imp fun x => Leaf.Finite.readable
  rw [read_eq nestingLimit rfl]
  constructor
  · intro shallow
    obtain ⟨v', s', read, mirrors, place, _⟩ := received.complete readable shallow
    exact ⟨v', s', read, place, mirrors, mirrors.stable, mirrors.of_stable⟩
  · exact received.tooDeep readable

/-- A pair of a constant and a circle goes to a peer with codecs added in another order. -/
theorem pair_for_a_peer :
    ∃ v d e a b bs m v' s', v = .pair 1 (.leaf 5 (.label "on"))
        (.leaf 2 (.record (.circle ⟨0x3FF8000000000000⟩))) ∧
      ((Draft.empty.addCodec ⟨7, .shape⟩).addCodec ⟨8, .pair⟩).addConstant
        (.leaf 5 (.label "on")) (by simp) = .ok d ∧
      ((Draft.empty.addCodec ⟨3, .pair⟩).addCodec ⟨4, .shape⟩).addConstant
        (.leaf 9 (.label "off")) (by simp) = .ok e ∧
      d.Peers e ∧ d.build = .ok a ∧ e.build = .ok b ∧ a.AllCoded Leaf.Finite v ∧
      a.encode v a.start = .ok bs m ∧ bs.length < 0x10000000000000000 ∧
      b.read ⟨.ofList (bs ++ [9]), 0, 0, b.start⟩ = .ok v' s' ∧
      s'.input = .facing bs.length [9] ∧ a.Mirrors b some v v' := by
  obtain ⟨v, hv⟩ : ∃ v : Value, v = .pair 1 (.leaf 5 (.label "on"))
      (.leaf 2 (.record (.circle ⟨0x3FF8000000000000⟩))) := ⟨_, rfl⟩
  obtain ⟨d, added⟩ : ∃ d, ((Draft.empty.addCodec ⟨7, .shape⟩).addCodec ⟨8, .pair⟩).addConstant
      (.leaf 5 (.label "on")) (by simp) = .ok d := ⟨_, rfl⟩
  obtain ⟨e, other⟩ : ∃ e, ((Draft.empty.addCodec ⟨3, .pair⟩).addCodec ⟨4, .shape⟩).addConstant
      (.leaf 9 (.label "off")) (by simp) = .ok e := ⟨_, rfl⟩
  have same : d.Peers e := by
    cases added
    cases other
    refine ⟨fun f => ?_, by decide, fun name => Iff.rfl, rfl, rfl, rfl, rfl⟩
    constructor <;> simp [Draft.addCodec, Draft.empty, or_comm]
  obtain ⟨a, ha⟩ : ∃ a, d.build = .ok a := by
    cases added
    exact ⟨_, rfl⟩
  obtain ⟨b, hb⟩ : ∃ b, e.build = .ok b := by
    cases other
    exact ⟨_, rfl⟩
  have finite : a.AllCoded Leaf.Finite v := by
    rw [hv]
    refine fun _ => ⟨fun _ => trivial, fun _ x hx => ?_⟩
    cases List.mem_singleton.mp hx
    decide
  have stable : a.AllCoded Leaf.Stable v := by
    rw [hv]
    refine fun _ => ⟨fun _ => trivial, fun _ x hx => ?_⟩
    cases List.mem_singleton.mp hx
    decide +kernel
  have shallow : a.payloadDepth v ≤ nestingLimit := by
    cases added
    cases ha
    rw [hv]
    decide +kernel
  have encoded : a.encode v a.start = .ok [2, 6, 4, 18, 100, 101, 109, 111, 46, 115, 104, 97, 112,
      101, 115, 46, 67, 105, 114, 99, 108, 101, 14, 123, 34, 114, 97, 100, 105, 117, 115, 34, 58,
      49, 46, 53, 125] a.start := by
    cases added
    cases ha
    rw [hv]
    decide +kernel
  obtain ⟨v', s', read, place, _, kept⟩ :=
    (peers_agree same ha hb .start .start finite encoded (by decide) [9] 0).1 shallow
  exact ⟨v, d, e, a, b, _, _, v', s', hv, added, other, same, ha, hb, finite, encoded, by decide,
    read, place, kept.mpr stable⟩

/-- The radius 1.0000000000000007 is read as the next number above it. -/
theorem radius_not_kept :
    ∃ v v' r bs m s', v = .leaf 2 (.record (.circle ⟨0x3FF0000000000003⟩)) ∧
      v' = .leaf 3 (.record (.circle ⟨0x3FF0000000000004⟩)) ∧
      (Draft.empty.addCodec ⟨7, .shape⟩).build = .ok r ∧ r.AllCoded Leaf.Finite v ∧
      r.payloadDepth v ≤ nestingLimit ∧ r.encode v r.start = .ok bs m ∧
      r.read ⟨.ofList bs, 0, 3, r.start⟩ = .ok v' s' ∧ ¬ r.Mirrors r some v v' := by
  obtain ⟨r, built⟩ : ∃ r, (Draft.empty.addCodec ⟨7, .shape⟩).build = .ok r := ⟨_, rfl⟩
  obtain ⟨bs, hbs⟩ : ∃ bs : List UInt8, bs = [2, 18, 100, 101, 109, 111, 46, 115, 104, 97, 112,
    101, 115, 46, 67, 105, 114, 99, 108, 101, 29, 123, 34, 114, 97, 100, 105, 117, 115, 34, 58,
    49, 46, 48, 48, 48, 48, 48, 48, 48, 48, 48, 48, 48, 48, 48, 48, 48, 55, 125] := ⟨_, rfl⟩
  refine ⟨_, _, r, bs, r.start, ⟨.facing bs.length [], 0, 4, r.start⟩, rfl, rfl, built, ?_, ?_, ?_,
    ?_, ?_⟩
  · intro _ x hx
    cases List.mem_singleton.mp hx
    decide
  · cases built
    decide +kernel
  · cases built
    rw [hbs]
    decide +kernel
  · cases built
    rw [hbs]
    decide +kernel
  · intro kept
    cases kept with
    | constant mine _ _ =>
      cases built
      cases mine
    | leaf _ content => exact absurd content (by decide)

end Registry

end TagCodec
