import TagCodec.Proofs.Payloads
import TagCodec.Proofs.PlainReading

namespace TagCodec

open Steps

theorem RecordType.type_of_ofJson {t : RecordType} {v : Json} (h : t.ofJson v = .ok r) :
    r.type = t := by
  unfold ofJson at h
  cases hv : t.values? v >>= t.ofValues? with
  | none =>
    rw [hv] at h
    cases h
  | some r' =>
    rw [hv] at h
    cases h
    obtain ⟨xs, _, made⟩ := Option.bind_eq_some_iff.mp hv
    unfold ofValues? at made
    split at made <;> cases made <;> rfl

theorem RecordType.type_of_parsed {t : RecordType} {bs : List UInt8}
    (parsed : (Json.parseBytes bs >>= t.ofJson) = .ok r) : r.type = t := by
  obtain ⟨v, _, made⟩ := bind_except_eq_ok.mp parsed
  exact type_of_ofJson made

namespace Cursor

/-- No text is longer than the number in front of it, which has 64 bits. -/
theorem text_lt {c c' : Cursor} (h : text c = .ok s c') :
    s.utf8ByteSize < 0x10000000000000000 := by
  obtain ⟨bs, d, field, last⟩ := bind_eq_ok.mp h
  obtain ⟨n, e, number, taken⟩ := bind_eq_ok.mp field
  have small : n < 0x10000000000000000 := varintWithin_lt number
  have length : bs.length ≤ n := by
    unfold take at taken
    split at taken
    · cases taken
      exact List.length_take_le _ _
    · cases taken
  have same : s.utf8ByteSize = bs.length := by
    cases made : String.fromUTF8? ⟨bs.toArray⟩ <;> rw [made] at last <;> cases last
    unfold String.fromUTF8? at made
    split at made <;> cases made
    rfl
  omega
end Cursor

/-- The contents that a payload in the format can turn out to be. -/
inductive Format.Gives : Format → Leaf → Prop
  | point (p : Point) : Gives point (.point p)
  | label (short : s.utf8ByteSize < 0x10000000000000000) : Gives label (.label s)
  | shape (parsed : (Json.parseBytes bs >>= r.type.ofJson) = .ok r) : Gives shape (.record r)
  | ordinal (cls : Class) (e : Enumeration) (i : Fin e.cases.length) :
      Gives (ordinal cls e) (.member e i)
  | fields (cls : Class) (parsed : (Json.parseBytes bs >>= r.type.ofJson) = .ok r) :
      Gives (fields cls r.type) (.record r)
  | token (cls : Class) (extra : List Class) (known : c ∈ all) (id : Int32) :
      Gives (token cls extra all) (.token c id)

namespace Decode

/-- The step neither looks at the address of the next object nor changes it. -/
def Placeless (x : Decode α) : Prop := ∀ s fresh,
  x { s with fresh := fresh } = mapState (fun t => { t with fresh := fresh }) (x s)

namespace Placeless

theorem field (read : Read α) : Placeless (field read) := by
  intro s fresh
  unfold Decode.field
  cases read s.input <;> rfl

theorem fresh_eq {x : Decode α} (h : Placeless x) {s t : Decoder} (hx : x s = .ok a t) :
    t.fresh = s.fresh := by
  have same : x s = mapState (fun t => { t with fresh := s.fresh }) (x s) := h s s.fresh
  simp only [hx, mapState] at same
  have next := congrArg Decoder.fresh (EStateM.Result.ok.inj same).2
  exact next

end Placeless

/-- Whatever is read is one object at the next address, with such a content. At another address
the content would be the same. -/
def Makes (P : Leaf → Prop) (x : Decode Value) : Prop := ∀ s v t, x s = .ok v t →
  ∃ y, P y ∧ v = .leaf s.fresh y ∧ t.fresh = s.fresh + 1 ∧
    ∀ fresh, x { s with fresh := fresh } = .ok (.leaf fresh y) { t with fresh := fresh + 1 }

namespace Makes

variable {P : Leaf → Prop}

theorem object (h : P y) : Makes P (object y) := by
  intro s v t made
  cases made
  exact ⟨y, h, rfl, rfl, fun _ => rfl⟩

theorem throw (e : CodingError) : Makes P (throw e) := fun _ _ _ h => nomatch h

theorem bind {x : Decode α} {f : α → Decode Value} (hx : Placeless x)
    (hf : ∀ {s a t}, x s = .ok a t → Makes P (f a)) : Makes P (x >>= f) := by
  intro s v t h
  obtain ⟨a, u, first, second⟩ := bind_eq_ok.mp h
  obtain ⟨y, hy, rfl, next, elsewhere⟩ := hf first u v t second
  have same := hx.fresh_eq first
  refine ⟨y, hy, by rw [same], by rw [next, same], fun fresh => ?_⟩
  have moved := hx s fresh
  rw [first] at moved
  exact (bind_of_ok moved).trans (elsewhere fresh)

theorem record {t : RecordType}
    (h : ∀ bs r, (Json.parseBytes bs >>= t.ofJson) = .ok r → P (.record r)) :
    Makes P (record t) := by
  rw [record_eq]
  refine bind (.field _) fun {_ bs _} _ => ?_
  cases parsed : Json.parseBytes bs >>= t.ofJson with
  | error e => exact throw _
  | ok r => exact object (h bs r parsed)

end Makes

end Decode

theorem Format.read_makes {f : Format} (other : f ≠ .pair) (side : Decode Value) :
    Decode.Makes f.Gives (f.read side) := by
  have record (t : RecordType) {g : Format}
      (h : ∀ bs r, r.type = t → (Json.parseBytes bs >>= r.type.ofJson) = .ok r →
        g.Gives (.record r)) : Decode.Makes g.Gives (Decode.record t) := by
    refine .record fun bs r parsed => ?_
    have same := RecordType.type_of_parsed parsed
    exact h bs r same (same.symm ▸ parsed)
  cases f with
  | point => exact .bind (.field _) fun _ => .bind (.field _) fun _ => .object (.point ⟨_, _⟩)
  | label =>
    refine .bind (.field _) fun read => .object (.label ?_)
    obtain ⟨_, text, _⟩ := Decode.field_eq_ok.mp read
    exact Cursor.text_lt text
  | shape =>
    refine .bind (.field _) fun {s name t} _ => ?_
    split
    · exact record _ fun bs r _ parsed => .shape parsed
    · exact .throw _
  | pair => exact absurd rfl other
  | ordinal cls e =>
    refine .bind (.field _) fun {s n t} _ => ?_
    split
    · rename_i found
      unfold Enumeration.ofOrdinal? at found
      split at found <;> cases found
      exact .object (.ordinal cls e _)
    · exact .throw _
  | fields cls t => exact record t fun bs r same parsed => same ▸ .fields cls parsed
  | token cls extra known =>
    refine .bind (.field _) fun {s name t} _ => ?_
    split
    · rename_i c found
      refine .bind (.field _) fun _ => .object (.token cls extra ?_ _)
      exact List.mem_reverse.mp (List.mem_of_find?_eq_some found)
    · exact .throw _

theorem Format.Gives.short {f : Format} {x : Leaf} (h : f.Gives x) : x.Short := by
  cases h with
  | label short => exact short
  | _ => trivial

end TagCodec
