import TagCodec.Proofs.Reading

namespace TagCodec

open Steps

/-- The outcome of a lookup by tag, by the place that the draft assigns. -/
structure Registry.LooksUp (r : Registry) (d : Draft) (t : Tag) (m : Memo) : Prop where
  explicit : ∀ i, d.Assigns t (.explicit i) → ∃ c, (Codec.sortByName d.codecs)[i]? = some c ∧
    r.resolveTag t m = .ok ⟨t, c.format, some c.id⟩ m
  /-- The cell of the name holds the outcome afterwards. -/
  fallback : ∀ i, d.Assigns t (.fallback i) → ∃ name, d.names.toList[i]? = some name ∧
    ((∃ f n, r.resolveTag t m = .ok ⟨t, f, none⟩ n ∧ n.cell? name = some (some f)) ∨
     (∃ n, r.resolveTag t m = .error (.constructionFailed name) n ∧ n.cell? name = some none))
  other : (∀ i, ¬ d.Assigns t (.explicit i)) → (∀ i, ¬ d.Assigns t (.fallback i)) →
    r.resolveTag t m = .error (.unknownTag t) m

/-- What is read from the state `s` when the tag `t` was there and `s'` is the state behind it.
Only the two kinds of codec are called; in all other cases nothing behind the tag is touched. -/
structure Registry.ReadsOn (r : Registry) (d : Draft) (t : Tag) (s s' : Decoder) : Prop where
  null : d.Assigns t .null → r.read s = .ok .null s'
  backReference : d.Assigns t .backReference → r.read s = .error (.backReference t) s'
  constant : ∀ i, d.Assigns t (.constant i) → ∃ v, d.constants[i]? = some v ∧ r.read s = .ok v s'
  explicit : ∀ i, d.Assigns t (.explicit i) → ∃ c, (Codec.sortByName d.codecs)[i]? = some c ∧
    r.read s = Decode.deeper (r.readPayload c.format) s'
  fallback : ∀ i, d.Assigns t (.fallback i) → ∃ name, d.names.toList[i]? = some name ∧
    ((∃ f n, r.resolveTag t s'.memo = .ok ⟨t, f, none⟩ n ∧
        r.read s = Decode.deeper (r.readPayload f) { s' with memo := n }) ∨
     (∃ n, r.resolveTag t s'.memo = .error (.constructionFailed name) n ∧
        r.read s = .error (.noCodec (.constructionFailed name)) { s' with memo := n }))
  unassigned : d.Assigns t .unassigned → r.read s = .error (.noCodec (.unknownTag t)) s'

theorem Draft.assigns_build {d : Draft} {r : Registry} (built : d.build = .ok r) (t : Tag)
    (p : Place) : d.Assigns t p ↔ r.Assigns t p := by
  rw [Draft.build_eq_ok built]
  have := (Codec.sortByName_perm d.codecs).length_eq
  cases p <;> simp only [Draft.Assigns, this]

namespace Registry

variable {r : Registry}

theorem resolveTag_of_explicit (h : r.Assigns t (.explicit i)) (m : Memo) :
    ∃ c, r.codecs[i]? = some c ∧ r.resolveTag t m = .ok ⟨t, c.format, some c.id⟩ m := by
  refine ⟨_, List.getElem?_eq_getElem h.1, ?_⟩
  rw [resolveTag_explicit (place_eq h) (List.getElem?_eq_getElem h.1), explicitTag,
    tagAt_of_toInt h.2]

theorem resolveTag_of_fallback (h : r.Assigns t (.fallback i)) :
    ∃ name, r.names.toList[i]? = some name ∧ r.resolveTag t = r.fallbackAt name i ∧
      r.fallbackTag i = t := by
  refine ⟨_, List.getElem?_eq_getElem h.2.1, ?_, ?_⟩
  · exact resolveTag_fallback (place_eq h) (List.getElem?_eq_getElem h.2.1)
  · exact tagAt_of_toInt (by have := h.2.2; omega)

/-- A lookup by tag never depends on more than the place of the tag and the cell of its name. -/
theorem looksUp {d : Draft} (built : d.build = .ok r) (t : Tag) (m : Memo) :
    r.LooksUp d t m := by
  have assigns := Draft.assigns_build built t
  have same := Draft.build_eq_ok built
  constructor
  · intro i h
    obtain ⟨c, hc, hr⟩ := resolveTag_of_explicit ((assigns _).mp h) m
    exact ⟨c, by simpa only [same] using hc, hr⟩
  · intro i h
    obtain ⟨name, hn, hr, ht⟩ := resolveTag_of_fallback ((assigns _).mp h)
    refine ⟨name, by simpa only [same] using hn, ?_⟩
    rw [hr, ← ht]
    exact r.fallbackAt_cases name i m
  · intro explicit fallback
    refine resolveTag_other (fun i h => explicit i ?_) (fun i h => fallback i ?_) m
    all_goals exact (assigns _).mpr (h ▸ r.assigns_place t)

theorem constantAt_eq_some (r : Registry) (t : Tag) (v : Value) :
    r.constantAt? t = some v ↔ ∃ i, r.Assigns t (.constant i) ∧ r.constants[i]? = some v := by
  constructor
  · intro h
    unfold constantAt? at h
    split at h
    · rename_i i hp
      exact ⟨i, hp ▸ r.assigns_place t, h⟩
    · cases h
  · rintro ⟨i, hp, hv⟩
    rw [constantAt_eq (place_eq hp), hv]

theorem constantAt_constantTag {r : Registry} (mine : r.constants[i]? = some k) :
    r.constantAt? (r.constantTag i) = some k := by
  have inside := (List.getElem?_eq_some_iff.mp mine).1
  exact (r.constantAt_eq_some _ k).mpr ⟨i, ⟨inside, toInt_constantTag inside⟩, mine⟩

/-- The tag alone decides how reading goes on behind it. -/
theorem readTag_of_field {s : Decoder} (h : Decode.field Cursor.tag s = .ok t s') :
    r.readTag s = r.announce t s' :=
  bind_of_ok h

theorem announce_null (h : t.toInt = 0) (r : Registry) : r.announce t = pure (.value .null) := by
  have null : t.isNull = true := beq_iff_eq.mpr h
  rw [announce, null]
  rfl

theorem announce_backReference (h : t.toInt < 0) (r : Registry) :
    r.announce t = throw (.backReference t) := by
  have null : t.isNull = false := by simp only [Tag.isNull, beq_eq_false_iff_ne]; omega
  have back : t.isBackReference = true := decide_eq_true h
  rw [announce, null, back]
  rfl

theorem announce_assigned {t : Tag} (positive : 0 < t.toInt) (r : Registry) :
    r.announce t = match r.constantAt? t with
      | some v => pure (.value v)
      | none => Decode.lookup (r.resolveTag t) >>= fun b => pure (.payload b.format) := by
  have null : t.isNull = false := by simp only [Tag.isNull, beq_eq_false_iff_ne]; omega
  have back : t.isBackReference = false := by
    simp only [Tag.isBackReference, decide_eq_false_iff_not]
    omega
  rw [announce, null, back]
  rfl

theorem announce_of_ok {s : Decoder} (positive : 0 < t.toInt)
    (constant : r.constantAt? t = none) (h : r.resolveTag t s.memo = .ok b n) :
    r.announce t s = .ok (.payload b.format) { s with memo := n } := by
  rw [announce_assigned positive, constant]
  exact bind_of_ok (Decode.lookup_eq_ok.mpr ⟨n, h, rfl⟩)

theorem announce_of_error {s : Decoder} (positive : 0 < t.toInt)
    (constant : r.constantAt? t = none) (h : r.resolveTag t s.memo = .error e n) :
    r.announce t s = .error (.noCodec e) { s with memo := n } := by
  rw [announce_assigned positive, constant]
  exact bind_of_error (Decode.lookup_eq_error.mpr ⟨e, n, h, rfl, rfl⟩)

theorem constantAt_eq_none_of_assigns (h : r.Assigns t p) (other : ∀ i, p ≠ .constant i) :
    r.constantAt? t = none :=
  constantAt_eq_none fun i hp => other i (place_eq h ▸ hp)

/-- Below the limit of nesting, reading goes on as the place of the tag says. -/
theorem readsOn {d : Draft} (built : d.build = .ok r) {s : Decoder}
    (below : s.depth < nestingLimit) (read : Decode.field Cursor.tag s = .ok t s') :
    r.ReadsOn d t s s' := by
  have assigns := Draft.assigns_build built t
  have same := Draft.build_eq_ok built
  have start := readTag_of_field (r := r) read
  constructor
  · intro h
    exact read_of_value (start.trans (by rw [announce_null h, pure_run]))
  · intro h
    exact read_of_error (start.trans (by rw [announce_backReference h, throw_run]))
  · intro i h
    have hi : i < d.constants.length := h.1
    have hv : r.constantAt? t = some d.constants[i] :=
      (r.constantAt_eq_some t _).mpr
        ⟨i, (assigns _).mp h, by simp only [same, List.getElem?_eq_getElem hi]⟩
    refine ⟨_, List.getElem?_eq_getElem hi, read_of_value (start.trans ?_)⟩
    rw [announce_assigned (by have := h.2; omega), hv]
    rfl
  · intro i h
    obtain ⟨c, hc, hr⟩ := resolveTag_of_explicit ((assigns _).mp h) s'.memo
    have none := constantAt_eq_none_of_assigns ((assigns _).mp h) (by simp)
    refine ⟨c, by simpa only [same] using hc, read_of_payload (start.trans ?_) below⟩
    exact announce_of_ok (by have := h.2; omega) none hr
  · intro i h
    obtain ⟨name, hn, hr, ht⟩ := resolveTag_of_fallback ((assigns _).mp h)
    have none := constantAt_eq_none_of_assigns ((assigns _).mp h) (by simp)
    have positive : 0 < t.toInt := by have := h.2.2; omega
    refine ⟨name, by simpa only [same] using hn, ?_⟩
    rcases r.fallbackAt_cases name i s'.memo with ⟨f, n, hf, _⟩ | ⟨n, hf, _⟩
    · rw [← hr, ht] at hf
      exact .inl ⟨f, n, hf, read_of_payload (start.trans (announce_of_ok positive none hf)) below⟩
    · rw [← hr] at hf
      exact .inr ⟨n, hf, read_of_error (start.trans (announce_of_error positive none hf))⟩
  · intro h
    have place := place_eq ((assigns _).mp h)
    have none := constantAt_eq_none_of_assigns ((assigns _).mp h) (by simp)
    refine read_of_error (start.trans (announce_of_error (by have := h.1; omega) none ?_))
    exact resolveTag_other (by simp [place]) (by simp [place]) s'.memo

/-- Every tag has one place, and the lookups and the reader go by it: the codecs first, in the
order of their class names, then the constants in the order of their registration, then the
names in their order. All other tags stand for nothing. -/
theorem tag_space_partitioned {d : Draft} {r : Registry} (built : d.build = .ok r) (t : Tag)
    (m : Memo) :
    (∀ p, d.Assigns t p ↔ p = r.place t) ∧ r.LooksUp d t m ∧
    (∀ v, r.constantAt? t = some v ↔
      ∃ i, d.Assigns t (.constant i) ∧ d.constants[i]? = some v) ∧
    (∀ s s', s.depth < nestingLimit → Decode.field Cursor.tag s = .ok t s' →
      r.ReadsOn d t s s') := by
  have assigns := Draft.assigns_build built t
  refine ⟨fun p => ?_, looksUp built t m, fun v => ?_, fun s s' => readsOn built⟩
  · rw [assigns]
    exact ⟨fun h => (place_eq h).symm, fun h => h ▸ r.assigns_place t⟩
  · have same : r.constants = d.constants := by rw [Draft.build_eq_ok built]
    simp only [constantAt_eq_some, assigns, same]

/-- One codec, one constant and one name have the tags 1, 2 and 3, and 4 is beyond the last. -/
theorem partition_of_three_entries :
    ∃ e d r, (Draft.empty.addCodec ⟨7, .point⟩).addConstant (.leaf 5 (.label "on")) (by simp) =
        .ok e ∧ d = e.addName "demo.Color" ∧ d.build = .ok r ∧
      (∀ m, r.resolveTag ⟨1⟩ m = .ok ⟨⟨1⟩, .point, some 7⟩ m) ∧
      r.constantAt? ⟨2⟩ = some (.leaf 5 (.label "on")) ∧
      (∀ m, (∃ f n, r.resolveTag ⟨3⟩ m = .ok ⟨⟨3⟩, f, none⟩ n) ∨
        ∃ n, r.resolveTag ⟨3⟩ m = .error (.constructionFailed "demo.Color") n) ∧
      r.read ⟨.ofList [8, 1], 127, 0, .empty⟩ =
        .error (.noCodec (.unknownTag ⟨4⟩)) ⟨⟨1, [1], 2, rfl⟩, 127, 0, .empty⟩ := by
  obtain ⟨e, added⟩ : ∃ e, (Draft.empty.addCodec ⟨7, .point⟩).addConstant
      (.leaf 5 (.label "on")) (by simp) = .ok e := ⟨_, rfl⟩
  obtain ⟨r, built⟩ : ∃ r, (e.addName "demo.Color").build = .ok r := by
    cases added
    exact ⟨_, rfl⟩
  cases added
  refine ⟨_, _, r, rfl, rfl, built, fun m => ?_, ?_, fun m => ?_, ?_⟩
  · obtain ⟨c, hc, hr⟩ := (tag_space_partitioned built ⟨1⟩ m).2.1.explicit 0 ⟨by decide, by decide⟩
    cases hc
    exact hr
  · exact ((tag_space_partitioned built ⟨2⟩ .empty).2.2.1 _).mpr ⟨0, ⟨by decide, by decide⟩, rfl⟩
  · obtain ⟨name, hn, h⟩ :=
      (tag_space_partitioned built ⟨3⟩ m).2.1.fallback 0 ⟨rfl, by decide, by decide⟩
    cases hn
    rcases h with ⟨f, n, hf, _⟩ | ⟨n, hn, _⟩
    · exact .inl ⟨f, n, hf⟩
    · exact .inr ⟨n, hn⟩
  · exact ((tag_space_partitioned built ⟨4⟩ .empty).2.2.2 _ _ (by decide) rfl).unassigned
      ⟨by decide, fun _ => by decide⟩

end Registry

end TagCodec
