import TagCodec.Proofs.Cells
import TagCodec.Registry.Lookup

namespace TagCodec

open Steps

/-- What the counts of a draft's entries make of a tag. -/
def Draft.Assigns (d : Draft) (t : Tag) : Place → Prop
  | .null => t.toInt = 0
  | .backReference => t.toInt < 0
  | .explicit i => i < d.codecs.length ∧ t.toInt = i + 1
  | .constant i => i < d.constants.length ∧ t.toInt = d.codecs.length + i + 1
  | .fallback i => d.allowDefault = true ∧ i < d.names.size ∧
      t.toInt = d.codecs.length + d.constants.length + i + 1
  | .unassigned => d.codecs.length + d.constants.length < t.toInt ∧
      (d.allowDefault = true → d.codecs.length + d.constants.length + d.names.size < t.toInt)

theorem Draft.Assigns.unique {d : Draft} {t : Tag} {p q : Place}
    (hp : d.Assigns t p) (hq : d.Assigns t q) : p = q := by
  cases p <;> cases q <;> simp only [Draft.Assigns] at hp hq
  all_goals first
    | rfl
    | omega
    | congr 1; omega
    | have := hq.2 hp.1; omega
    | have := hp.2 hq.1; omega

/-- What construction takes over from the draft. Only the codecs change their order. -/
theorem Draft.build_eq_ok {d : Draft} {r : Registry} (h : d.build = .ok r) :
    r.toDraft = { d with
      codecs := Codec.sortByName d.codecs
      codecs_distinct :=
        ((Codec.sortByName_perm d.codecs).map Codec.id).nodup_iff.mpr d.codecs_distinct } := by
  unfold Draft.build at h
  split at h
  · split at h
    · cases h
    · cases h
      rfl
  · cases h

namespace Registry

theorem fits_int (r : Registry) :
    (r.codecs.length + r.constants.length + r.names.size : Int) ≤ 0x7FFFFFFE := by
  have := r.fits
  simp only [Draft.size, capacity] at this
  omega

theorem toInt_tagAt {i : Nat} (h : i < 0x7FFFFFFF) : (tagAt i).toInt = i + 1 :=
  Tag.toInt_first_offset h

theorem tagAt_of_toInt {t : Tag} {i : Nat} (h : t.toInt = i + 1) : tagAt i = t := by
  have first : Tag.first.toInt = 1 := by decide
  rw [tagAt, Tag.offset, first, Int.add_comm, ← h]
  exact Tag.ofInt_toInt t

/-- The place that the counts assign is the one that a lookup by tag goes to. -/
theorem assigns_place (r : Registry) (t : Tag) : r.Assigns t (r.place t) := by
  unfold place
  simp only [Tag.isNull, Tag.isBackReference, beq_iff_eq, decide_eq_true_eq]
  split
  · assumption
  · split
    · assumption
    · split
      · exact ⟨by assumption, by omega⟩
      · split
        · exact ⟨by omega, by omega⟩
        · split
          · rename_i h
            exact ⟨h.2, by omega, by omega⟩
          · rename_i h
            refine ⟨by omega, fun allowed => ?_⟩
            simp only [allowed, and_true] at h
            omega

theorem place_eq {r : Registry} (h : r.Assigns t p) : r.place t = p :=
  (r.assigns_place t).unique h

theorem place_explicitTag {r : Registry} (h : i < r.codecs.length) :
    r.place (explicitTag i) = .explicit i := by
  have := r.fits_int
  exact place_eq ⟨h, toInt_tagAt (by omega)⟩

theorem toInt_constantTag {r : Registry} (h : i < r.constants.length) :
    (r.constantTag i).toInt = r.codecs.length + i + 1 := by
  have := r.fits_int
  rw [constantTag, toInt_tagAt (by omega)]
  omega

theorem toInt_fallbackTag {r : Registry} (h : i < r.names.size) :
    (r.fallbackTag i).toInt = r.codecs.length + r.constants.length + i + 1 := by
  have := r.fits_int
  rw [fallbackTag, toInt_tagAt (by omega)]
  omega

theorem place_fallbackTag {r : Registry} (allowed : r.allowDefault = true)
    (h : i < r.names.size) : r.place (r.fallbackTag i) = .fallback i :=
  place_eq ⟨allowed, h, toInt_fallbackTag h⟩

theorem explicitAt_eq {r : Registry} (h : r.codecs[i]? = some c) :
    r.explicitAt? i = some ⟨explicitTag i, c.format, some c.id⟩ := by
  simp only [explicitAt?, h, Option.map_some]

theorem resolveTag_explicit {r : Registry} (h : r.place t = .explicit i)
    (hc : r.codecs[i]? = some c) (m : Memo) :
    r.resolveTag t m = .ok ⟨explicitTag i, c.format, some c.id⟩ m := by
  simp only [resolveTag, h, explicitAt_eq hc, Option.map_some, Option.getD_some, pure_run]

theorem resolveTag_fallback {r : Registry} (h : r.place t = .fallback i)
    (hn : r.names.toList[i]? = some name) : r.resolveTag t = r.fallbackAt name i := by
  simp only [resolveTag, h, Names.get?, hn, Option.map_some, Option.getD_some]

theorem resolveTag_other {r : Registry} (explicit : ∀ i, r.place t ≠ .explicit i)
    (fallback : ∀ i, r.place t ≠ .fallback i) (m : Memo) :
    r.resolveTag t m = .error (.unknownTag t) m := by
  unfold resolveTag
  split
  · exact absurd (by assumption) (explicit _)
  · exact absurd (by assumption) (fallback _)
  · rfl

theorem fallbackAt_of_get {r : Registry} (h : r.fallback.get name (r.fallbackTag i) m = .ok f n) :
    r.fallbackAt name i m = .ok ⟨r.fallbackTag i, f, none⟩ n :=
  bind_of_ok h

theorem fallbackAt_eq_ok {r : Registry} (h : r.fallbackAt name i m = .ok b n) :
    b.tag = r.fallbackTag i ∧ b.codecId? = none ∧ n.cell? name = some (some b.format) := by
  obtain ⟨f, k, hf, hb⟩ := bind_eq_ok.mp h
  cases hb
  exact ⟨rfl, rfl, Fallback.cell_of_get hf⟩

/-- The two outcomes of a lookup that goes to a listed name. -/
theorem fallbackAt_cases (r : Registry) (name : String) (i : Nat) (m : Memo) :
    (∃ f n, r.fallbackAt name i m = .ok ⟨r.fallbackTag i, f, none⟩ n ∧
      n.cell? name = some (some f)) ∨
    (∃ n, r.fallbackAt name i m = .error (.constructionFailed name) n ∧
      n.cell? name = some none) := by
  rcases r.fallback.get_cases name (r.fallbackTag i) m with ⟨f, n, hf, hc⟩ | ⟨n, hf, hc⟩
  · exact .inl ⟨f, n, bind_of_ok hf, hc⟩
  · exact .inr ⟨n, bind_of_error hf, hc⟩

theorem constantAt_eq {r : Registry} (h : r.place t = .constant i) :
    r.constantAt? t = r.constants[i]? := by
  simp only [constantAt?, h]

theorem constantAt_eq_none {r : Registry} (h : ∀ i, r.place t ≠ .constant i) :
    r.constantAt? t = none := by
  unfold constantAt?
  split
  · exact absurd (by assumption) (h _)
  · rfl

end Registry

end TagCodec
