import TagCodec.Encoding
import TagCodec.Proofs.Fields
import TagCodec.Proofs.NameOrder
import TagCodec.Proofs.TagMeaning

namespace TagCodec

open Steps

theorem Encode.lookup_eq_ok {l : Lookup α} {s t : Encoder} :
    lookup l s = .ok a t ↔ ∃ m, l s.memo = .ok a m ∧ t = { s with memo := m } := by
  unfold lookup
  cases l s.memo with
  | ok b m =>
    constructor
    · rintro ⟨⟩
      exact ⟨m, rfl, rfl⟩
    · rintro ⟨_, ⟨⟩, rfl⟩
      rfl
  | error f m => simp

namespace Registry

/-- The memos that some run of lookups makes of a memo. -/
inductive Leads (r : Registry) (m : Memo) : Memo → Prop
  | start : r.Leads m m
  | resolve (before : r.Leads m n) (c : Class) : r.Leads m (after (r.resolve c) n)
  | resolveTag (before : r.Leads m n) (t : Tag) : r.Leads m (after (r.resolveTag t) n)

/-- A relation between memos that no attempt of a fallback breaks. -/
structure Kept (r : Registry) (R : Memo → Memo → Prop) : Prop where
  refl : ∀ m, R m m
  trans : ∀ m n k, R m n → R n k → R m k
  get : ∀ name t, Keeps R (r.fallback.get name t)

namespace Kept

variable {r : Registry} {R : Memo → Memo → Prop}

theorem fallbackAt (h : r.Kept R) (name : String) (i : Nat) : Keeps R (r.fallbackAt name i) :=
  .bind h.trans (h.get _ _) fun _ => .pure h.refl _

theorem resolve (h : r.Kept R) (c : Class) : Keeps R (r.resolve c) := by
  unfold Registry.resolve
  split
  · exact .pure h.refl _
  · split
    · unfold fallbackFor
      split
      · exact h.fallbackAt _ _
      · exact .throw h.refl _
    · exact .throw h.refl _

theorem resolveTag (h : r.Kept R) (t : Tag) : Keeps R (r.resolveTag t) := by
  cases hp : r.place t with
  | fallback i =>
    obtain ⟨name, _, hr, _⟩ := resolveTag_of_fallback (hp ▸ r.assigns_place t)
    rw [hr]
    exact h.fallbackAt name i
  | explicit i =>
    intro m
    obtain ⟨c, _, hr⟩ := resolveTag_of_explicit (hp ▸ r.assigns_place t) m
    rw [after_of_ok hr]
    exact h.refl m
  | _ =>
    intro m
    rw [after_of_error (resolveTag_other (by simp [hp]) (by simp [hp]) m)]
    exact h.refl m

theorem leads (h : r.Kept R) (run : r.Leads m n) : R m n := by
  induction run with
  | start => exact h.refl m
  | resolve before c ih => exact h.trans _ _ _ ih (h.resolve c _)
  | resolveTag before t ih => exact h.trans _ _ _ ih (h.resolveTag t _)

end Kept

theorem Leads.retains {r : Registry} (h : r.Leads m n) : m.Retains n :=
  have kept : r.Kept Memo.Retains :=
    ⟨Memo.Retains.refl, fun _ _ _ => Memo.Retains.trans, r.fallback.get_retains⟩
  kept.leads h

/-- The bindings that a registry stands by once the memo is as it is. A codec that was built on
demand is one of them as soon as it is in the cell of its name. -/
inductive Bound (r : Registry) (m : Memo) : Binding → Prop
  | explicit (codec : r.codecs[i]? = some c) : r.Bound m ⟨explicitTag i, c.format, some c.id⟩
  | fallback (allowed : r.allowDefault = true) (listed : r.names.toList[i]? = some name)
      (built : m.cell? name = some (some f)) : r.Bound m ⟨r.fallbackTag i, f, none⟩

namespace Bound

variable {r : Registry}

theorem mono (h : r.Bound m b) (kept : m.Retains n) : r.Bound n b := by
  cases h with
  | explicit codec => exact .explicit codec
  | fallback allowed listed built => exact .fallback allowed listed (kept _ _ built)

theorem assigned (h : r.Bound m b) :
    (∃ i, r.Assigns b.tag (.explicit i)) ∨ ∃ i, r.Assigns b.tag (.fallback i) := by
  cases h with
  | @explicit i c codec =>
    have hi := (List.getElem?_eq_some_iff.mp codec).1
    exact .inl ⟨i, place_explicitTag hi ▸ r.assigns_place _⟩
  | @fallback i name f allowed listed built =>
    have hi := (List.getElem?_eq_some_iff.mp listed).1
    exact .inr ⟨i, place_fallbackTag allowed hi ▸ r.assigns_place _⟩

theorem positive (h : r.Bound m b) : 1 ≤ b.tag.toInt := by
  rcases h.assigned with ⟨i, _, ht⟩ | ⟨i, _, _, ht⟩ <;> omega

theorem constantAt_eq_none (h : r.Bound m b) : r.constantAt? b.tag = none := by
  rcases h.assigned with ⟨i, hi⟩ | ⟨i, hi⟩
  · exact constantAt_eq_none_of_assigns hi (by simp)
  · exact constantAt_eq_none_of_assigns hi (by simp)

/-- Nothing is built for such a lookup, since the memo is left as it was. -/
theorem resolveTag_eq (h : r.Bound m b) : r.resolveTag b.tag m = .ok b m := by
  cases h with
  | explicit codec =>
    have hi := (List.getElem?_eq_some_iff.mp codec).1
    exact resolveTag_explicit (place_explicitTag hi) codec m
  | fallback allowed listed built =>
    have hi := (List.getElem?_eq_some_iff.mp listed).1
    rw [resolveTag_fallback (place_fallbackTag allowed hi) listed]
    exact fallbackAt_of_get (r.fallback.get_of_cell _ built)

end Bound

theorem bound_of_fallbackAt {r : Registry} (allowed : r.allowDefault = true)
    (listed : r.names.toList[i]? = some name) (h : r.fallbackAt name i m = .ok b n) :
    r.Bound n b := by
  obtain ⟨tag, format, codecId?⟩ := b
  obtain ⟨rfl, rfl, built⟩ := fallbackAt_eq_ok h
  exact .fallback allowed listed built

theorem explicitFor_eq_some {r : Registry} {c : Class} (h : r.explicitFor? c = some b) :
    ∃ i e, r.codecs[i]? = some e ∧ b = ⟨explicitTag i, e.format, some e.id⟩ := by
  obtain ⟨a, _, ha⟩ := List.exists_of_findSome?_eq_some h
  obtain ⟨i, _, hi⟩ := Option.bind_eq_some_iff.mp ha
  obtain ⟨e, he, hb⟩ := Option.map_eq_some_iff.mp hi
  exact ⟨i, e, he, hb.symm⟩

theorem bound_of_resolve {r : Registry} {c : Class} (h : r.resolve c m = .ok b n) :
    r.Bound n b := by
  cases found : r.explicitFor? c with
  | some e =>
    obtain ⟨i, codec, hc, rfl⟩ := explicitFor_eq_some found
    simp only [resolve, found] at h
    cases h
    exact .explicit hc
  | none =>
    simp only [resolve, found] at h
    split at h
    · rename_i allowed
      cases hi : r.names.index? c.declaring.name with
      | some i =>
        simp only [fallbackFor, hi] at h
        exact bound_of_fallbackAt allowed (Names.get_of_index hi) h
      | none =>
        simp only [fallbackFor, hi] at h
        cases h
    · cases h

theorem tag_of_resolveTag {r : Registry} (h : r.resolveTag t m = .ok b n) : b.tag = t := by
  cases hp : r.place t with
  | explicit i =>
    obtain ⟨c, _, hr⟩ := resolveTag_of_explicit (hp ▸ r.assigns_place t) m
    rw [hr] at h
    cases h
    rfl
  | fallback i =>
    obtain ⟨name, _, hr, ht⟩ := resolveTag_of_fallback (hp ▸ r.assigns_place t)
    rw [hr] at h
    exact (fallbackAt_eq_ok h).1.trans ht
  | _ =>
    rw [resolveTag_other (by simp [hp]) (by simp [hp])] at h
    cases h

/-- A value that is no constant is written by the codec of the lookup by its class: the tag of
that codec, then the payload in its format. -/
theorem writeTag_eq_ok {r : Registry} {v : Value} (object : v.cls? = some c)
    (other : r.constantTag? v = none) (h : r.writeTag v s = .ok f? s') :
    ∃ b, r.resolve c s.memo = .ok b s'.memo ∧ f? = some b.format ∧
      s'.out = s.out.put (.tag b.tag) ∧ r.write v s = r.writePayload b.format v s' := by
  have start := h
  simp only [writeTag, object, other] at h
  obtain ⟨b, t, hb, h⟩ := bind_eq_ok.mp h
  obtain ⟨m, found, rfl⟩ := Encode.lookup_eq_ok.mp hb
  cases h
  refine ⟨b, found, rfl, rfl, ?_⟩
  cases v with
  | null => cases object
  | leaf addr x => exact bind_of_ok start
  | pair addr left right => exact bind_of_ok start

theorem readTag_of_bound {r : Registry} {s : Decoder} (h : r.Bound s.memo b)
    (faces : s.input = .facing pos ((Item.tag b.tag).encode ++ rest)) :
    r.readTag s = .ok (.payload b.format)
      { s with input := .facing (pos + (Item.tag b.tag).encode.length) rest } := by
  have field : Decode.field Cursor.tag s =
      .ok b.tag { s with input := .facing (pos + (Item.tag b.tag).encode.length) rest } :=
    Decode.field_eq_ok.mpr ⟨_, faces ▸ Cursor.tag_encode b.tag pos rest, rfl⟩
  rw [readTag_of_field field]
  exact announce_of_ok h.positive h.constantAt_eq_none h.resolveTag_eq

/-- Whatever is looked up in between, a lookup by tag finds the binding that a lookup by class
gave, and finds it in the memo. No other tag gives that binding. So a reader that faces the tag
of a value reads on in the format that the value was written in. -/
theorem lookups_agree (r : Registry) :
    (∀ c m b n, r.resolve c m = .ok b n → 1 ≤ b.tag.toInt ∧ r.constantAt? b.tag = none ∧
      ∀ later, r.Leads n later → r.resolveTag b.tag later = .ok b later) ∧
    (∀ t m b n, r.resolveTag t m = .ok b n → b.tag = t) ∧
    (∀ t u m k b n n', r.resolveTag t m = .ok b n → r.resolveTag u k = .ok b n' → t = u) ∧
    (∀ v c s f? s', v.cls? = some c → r.constantTag? v = none → r.writeTag v s = .ok f? s' →
      ∃ b, r.resolve c s.memo = .ok b s'.memo ∧ f? = some b.format ∧
        s'.out = s.out.put (.tag b.tag) ∧ r.write v s = r.writePayload b.format v s' ∧
        ∀ (reader : Decoder) pos rest, r.Leads s'.memo reader.memo →
          reader.input = .facing pos ((Item.tag b.tag).encode ++ rest) →
          r.resolveTag b.tag reader.memo = .ok b reader.memo ∧
          r.readTag reader = .ok (.payload b.format)
            { reader with input := .facing (pos + (Item.tag b.tag).encode.length) rest }) := by
  refine ⟨fun c m b n h => ?_, fun t m b n h => ?_, fun t u m k b n n' ht hu => ?_, ?_⟩
  · have bound := bound_of_resolve h
    refine ⟨bound.positive, bound.constantAt_eq_none, fun later leads => ?_⟩
    exact (bound.mono leads.retains).resolveTag_eq
  · exact tag_of_resolveTag h
  · exact (tag_of_resolveTag ht).symm.trans (tag_of_resolveTag hu)
  · intro v c s f? s' object other h
    obtain ⟨b, hb, hf, tag, written⟩ := writeTag_eq_ok object other h
    refine ⟨b, hb, hf, tag, written, fun reader pos rest leads faces => ?_⟩
    have known := (bound_of_resolve hb).mono leads.retains
    exact ⟨known.resolveTag_eq, readTag_of_bound known faces⟩

/-- A color is looked up by class before its codec exists, and is written under the tag 2. -/
theorem agreement_for_color :
    ∃ d r n s, d = ((Draft.empty.addCodec ⟨7, .shape⟩).addName "demo.Color").withResolver
        (.ofClassPath Catalog.classPath) ∧ d.build = .ok r ∧
      r.resolve Catalog.color r.start = .ok ⟨⟨2⟩, .ordinal Catalog.color .color, none⟩ n ∧
      r.resolveTag ⟨2⟩ (after (r.resolveTag ⟨9⟩) n) =
        .ok ⟨⟨2⟩, .ordinal Catalog.color .color, none⟩ (after (r.resolveTag ⟨9⟩) n) ∧
      r.writeTag (.leaf 0 (.member .color ⟨1, by decide⟩)) ⟨.empty, r.start⟩ =
        .ok (some (.ordinal Catalog.color .color)) s ∧
      r.readTag ⟨.facing 0 ((Item.tag ⟨2⟩).encode ++ [1]), 0, 0, s.memo⟩ =
        .ok (.payload (.ordinal Catalog.color .color))
          ⟨.facing (0 + (Item.tag ⟨2⟩).encode.length) [1], 0, 0, s.memo⟩ := by
  obtain ⟨r, built⟩ : ∃ r, (((Draft.empty.addCodec ⟨7, .shape⟩).addName
      "demo.Color").withResolver (.ofClassPath Catalog.classPath)).build = .ok r := ⟨_, rfl⟩
  obtain ⟨n, found⟩ : ∃ n, r.resolve Catalog.color r.start =
      .ok ⟨⟨2⟩, .ordinal Catalog.color .color, none⟩ n := by
    cases built
    exact ⟨_, rfl⟩
  obtain ⟨s, tag⟩ : ∃ s, r.writeTag (.leaf 0 (.member .color ⟨1, by decide⟩)) ⟨.empty, r.start⟩ =
      .ok (some (.ordinal Catalog.color .color)) s := by
    cases built
    exact ⟨_, rfl⟩
  have other : r.constantTag? (.leaf 0 (.member .color ⟨1, by decide⟩)) = none := by
    cases built
    rfl
  obtain ⟨byClass, _, _, written⟩ := lookups_agree r
  obtain ⟨b, hb, _, _, _, reads⟩ := written _ _ _ _ _ rfl other tag
  obtain ⟨rfl, _⟩ := EStateM.Result.ok.inj (found.symm.trans hb)
  refine ⟨_, r, n, s, rfl, built, found, ?_, tag, ?_⟩
  · exact (byClass _ _ _ _ found).2.2 _ (.resolveTag .start ⟨9⟩)
  · exact (reads ⟨.facing 0 _, 0, 0, s.memo⟩ 0 [1] .start rfl).2

end Registry

end TagCodec
