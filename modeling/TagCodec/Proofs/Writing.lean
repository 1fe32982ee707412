import TagCodec.Proofs.Agreement

namespace TagCodec

open Steps

namespace Registry

/-- Every filled cell holds what an attempt for its name comes to. -/
def Sound (r : Registry) (m : Memo) : Prop :=
  ∀ name cell, m.cell? name = some cell → cell = (r.fallback.construct name).toOption

theorem sound_start (r : Registry) : r.Sound r.start := by
  intro name cell h
  cases h

theorem sound_fill {r : Registry} (h : r.Sound m) (name : String) (events : List Event) :
    r.Sound (m.fill name (r.fallback.construct name).toOption events) := by
  intro n cell hc
  rw [Memo.cell_fill] at hc
  split at hc
  · rename_i same
    rw [same, ← Option.some.inj hc]
  · exact h n cell hc

theorem kept_sound (r : Registry) : r.Kept fun m n => r.Sound m → r.Sound n where
  refl _ h := h
  trans _ _ _ h g s := g (h s)
  get name t := by
    intro m sound
    cases hc : m.cell? name with
    | some cell =>
      rw [r.fallback.after_get_of_filled t hc]
      exact sound
    | none =>
      rw [r.fallback.after_get_of_empty t hc]
      exact sound_fill sound name _

theorem Leads.sound {r : Registry} (h : r.Leads r.start m) : r.Sound m :=
  r.kept_sound.leads h r.sound_start

/-- The formats of a registry, each with its tag. The codec of a listed name counts if an attempt
at it succeeds, made or not. -/
inductive Offers (r : Registry) : Tag → Format → Prop
  | explicit (codec : r.codecs[i]? = some c) : r.Offers (explicitTag i) c.format
  | fallback (allowed : r.allowDefault = true) (listed : r.names.toList[i]? = some name)
      (made : r.fallback.construct name = .ok f) : r.Offers (r.fallbackTag i) f

theorem Bound.offers {r : Registry} (h : r.Bound m b) (sound : r.Sound m) :
    r.Offers b.tag b.format := by
  cases h with
  | explicit codec => exact .explicit codec
  | @fallback i name f allowed listed built =>
    apply Offers.fallback allowed listed
    have outcome := sound name _ built
    cases hc : r.fallback.construct name with
    | ok g =>
      rw [hc] at outcome
      cases outcome
      rfl
    | error e =>
      rw [hc] at outcome
      cases outcome

/-- The bytes that a value can be written as. -/
inductive Spells (r : Registry) : Value → List UInt8 → Prop
  | null : r.Spells .null (Item.tag .null).encode
  | constant (object : v ≠ .null) (registered : r.constantTag? v = some t) :
      r.Spells v (Item.tag t).encode
  | leaf (other : r.constantTag? (.leaf addr x) = none) (offers : r.Offers t f)
      (complete : f.payload x = .complete items) :
      r.Spells (.leaf addr x) ((Item.tag t).encode ++ items.flatMap Item.encode)
  | pair (other : r.constantTag? (.pair addr left right) = none) (offers : r.Offers t .pair)
      (first : r.Spells left bs) (second : r.Spells right cs) :
      r.Spells (.pair addr left right) ((Item.tag t).encode ++ (bs ++ cs))

/-- The bytes that a value is written as, each object by the codec that is looked up for it. -/
inductive Writes (r : Registry) : Value → List UInt8 → Prop
  | null : r.Writes .null (Item.tag .null).encode
  | constant (object : v ≠ .null) (registered : r.constantTag? v = some t) :
      r.Writes v (Item.tag t).encode
  | leaf (other : r.constantTag? (.leaf addr x) = none) (sound : r.Sound m)
      (found : r.resolve x.cls m = .ok b n) (complete : b.format.payload x = .complete items) :
      r.Writes (.leaf addr x) ((Item.tag b.tag).encode ++ items.flatMap Item.encode)
  | pair (other : r.constantTag? (.pair addr left right) = none) (sound : r.Sound m)
      (found : r.resolve Catalog.pair m = .ok b n) (sides : b.format = .pair)
      (first : r.Writes left bs) (second : r.Writes right cs) :
      r.Writes (.pair addr left right) ((Item.tag b.tag).encode ++ (bs ++ cs))

end Registry

namespace Encode

theorem emit_run (item : Item) (s : Encoder) :
    emit item s = .ok () { s with out := s.out.put item } :=
  rfl

theorem emit_foldl (items : List Item) (s : Encoder) :
    items.forM emit s = .ok () { s with out := items.foldl Output.put s.out } := by
  induction items generalizing s with
  | nil => rfl
  | cons item items ih => exact (bind_of_ok (emit_run item s)).trans (ih _)

end Encode

theorem Payload.write_eq_ok {p : Payload} {s t : Encoder} (h : p.write s = .ok u t) :
    p = .complete p.items ∧ t.memo = s.memo ∧
      t.out.toList = s.out.toList ++ p.items.flatMap Item.encode := by
  obtain ⟨items, fault?⟩ := p
  have h := (bind_of_ok (Encode.emit_foldl items s)).symm.trans h
  cases fault? with
  | some e => cases h
  | none =>
    cases h
    exact ⟨rfl, rfl, Output.toList_foldl_put items s.out⟩

theorem Format.writePair_eq_ok {f : Format} {sides : Encode Unit}
    (h : f.writePair sides s = .ok u s') : f = .pair ∧ sides s = .ok u s' := by
  cases f with
  | pair => exact ⟨rfl, h⟩
  | _ => cases h

namespace Registry

variable {r : Registry}

theorem write_constant {v : Value} (object : v ≠ .null) (registered : r.constantTag? v = some t)
    (s : Encoder) : r.write v s = .ok () { s with out := s.out.put (.tag t) } := by
  cases v with
  | null => exact absurd rfl object
  | leaf addr x =>
    simp only [write, writeTag, registered, Value.cls?]
    rfl
  | pair addr left right =>
    simp only [write, writeTag, registered, Value.cls?]
    rfl

theorem write_eq_ok {v : Value} (object : v.cls? = some c) (other : r.constantTag? v = none)
    (h : r.write v s = .ok u s') :
    ∃ b t, r.resolve c s.memo = .ok b t.memo ∧ t.out = s.out.put (.tag b.tag) ∧
      r.writePayload b.format v t = .ok u s' := by
  obtain ⟨f?, t, tag⟩ : ∃ f? t, r.writeTag v s = .ok f? t := by
    cases v with
    | null => cases object
    | leaf addr x =>
      obtain ⟨f?, t, tag, _⟩ := bind_eq_ok.mp h
      exact ⟨f?, t, tag⟩
    | pair addr left right =>
      obtain ⟨f?, t, tag, _⟩ := bind_eq_ok.mp h
      exact ⟨f?, t, tag⟩
  obtain ⟨b, hb, rfl, out, written⟩ := writeTag_eq_ok object other tag
  exact ⟨b, t, hb, out, written.symm.trans h⟩

theorem offers_of_resolve {c : Class} (sound : r.Sound m) (h : r.resolve c m = .ok b n) :
    r.Offers b.tag b.format ∧ r.Sound n := by
  have after : r.Sound n := (r.kept_sound.resolve c).ok h sound
  exact ⟨(bound_of_resolve h).offers after, after⟩

theorem Writes.spells {v : Value} (h : r.Writes v bs) : r.Spells v bs := by
  induction h with
  | null => exact .null
  | constant object registered => exact .constant object registered
  | leaf other sound found complete =>
    exact .leaf other (offers_of_resolve sound found).1 complete
  | pair other sound found sides _ _ first second =>
    exact .pair other (sides ▸ (offers_of_resolve sound found).1) first second

/-- Whatever was written of the value, its bytes come after what was there. -/
theorem writes_of_write {v : Value} {s s' : Encoder} (sound : r.Sound s.memo)
    (h : r.write v s = .ok u s') :
    ∃ bs, r.Writes v bs ∧ s'.out.toList = s.out.toList ++ bs ∧ r.Sound s'.memo := by
  induction v generalizing s s' u with
  | null =>
    cases h
    exact ⟨_, .null, Output.toList_put _ _, sound⟩
  | leaf addr x =>
    cases registered : r.constantTag? (.leaf addr x) with
    | some t =>
      cases (write_constant (by simp) registered s).symm.trans h
      exact ⟨_, .constant (by simp) registered, Output.toList_put _ _, sound⟩
    | none =>
      obtain ⟨b, t, found, out, written⟩ := write_eq_ok rfl registered h
      obtain ⟨_, after⟩ := offers_of_resolve sound found
      obtain ⟨complete, memo, bytes⟩ := Payload.write_eq_ok written
      refine ⟨_, .leaf registered sound found complete, ?_, memo ▸ after⟩
      rw [bytes, out, Output.toList_put, List.append_assoc]
  | pair addr left right ihl ihr =>
    cases registered : r.constantTag? (.pair addr left right) with
    | some t =>
      cases (write_constant (by simp) registered s).symm.trans h
      exact ⟨_, .constant (by simp) registered, Output.toList_put _ _, sound⟩
    | none =>
      obtain ⟨b, t, found, out, written⟩ := write_eq_ok rfl registered h
      obtain ⟨_, after⟩ := offers_of_resolve sound found
      obtain ⟨same, sides⟩ := Format.writePair_eq_ok written
      obtain ⟨_, t', first, second⟩ := bind_eq_ok.mp sides
      obtain ⟨bs, lefts, leftBytes, after⟩ := ihl after first
      obtain ⟨cs, rights, rightBytes, after⟩ := ihr after second
      refine ⟨_, .pair registered sound found same lefts rights, ?_, after⟩
      rw [rightBytes, leftBytes, out, Output.toList_put]
      simp only [List.append_assoc]

theorem write_spells {v : Value} {s s' : Encoder} (sound : r.Sound s.memo)
    (h : r.write v s = .ok u s') :
    ∃ bs, r.Spells v bs ∧ s'.out.toList = s.out.toList ++ bs ∧ r.Sound s'.memo := by
  obtain ⟨bs, written, bytes, after⟩ := writes_of_write sound h
  exact ⟨bs, written.spells, bytes, after⟩

end Registry

end TagCodec
