import TagCodec.Proofs.Allocation
import TagCodec.Proofs.Runs

namespace TagCodec

open Steps

theorem Tag.toInt_inj {s t : Tag} (h : s.toInt = t.toInt) : s = t := by
  rw [← Tag.ofInt_toInt s, h, Tag.ofInt_toInt]

namespace Tag

theorem max_eq (s t : Tag) : (s.max t).toInt = Max.max s.toInt t.toInt := by
  unfold max
  split <;> omega

/-- The larger of a tag and of the best one so far. -/
def better (best : Option Tag) (t : Tag) : Option Tag := some (best.elim t fun s => s.max t)

@[simp] theorem better_none (t : Tag) : better none t = some t := rfl

/-- The walk ends with a tag that it has met and that no other one exceeds. -/
theorem foldl_better_some (ts : List Tag) (s : Tag) : ∃ t, ts.foldl better (some s) = some t ∧
    t ∈ s :: ts ∧ ∀ u ∈ s :: ts, u.toInt ≤ t.toInt := by
  induction ts generalizing s with
  | nil => exact ⟨s, rfl, List.mem_singleton_self s, by simp⟩
  | cons x ts ih =>
    obtain ⟨t, found, met, largest⟩ := ih (s.max x)
    have bound := largest _ List.mem_cons_self
    rw [max_eq] at bound
    refine ⟨t, found, ?_, ?_⟩
    · rcases List.mem_cons.mp met with rfl | later
      · unfold max
        split <;> simp
      · exact List.mem_cons_of_mem _ (List.mem_cons_of_mem _ later)
    · intro u hu
      rcases List.mem_cons.mp hu with rfl | hu
      · omega
      · rcases List.mem_cons.mp hu with rfl | hu
        · omega
        · exact largest u (List.mem_cons_of_mem _ hu)

end Tag

namespace Layout

theorem maxTag_eq (l : Layout) :
    l.maxTag? = (l.entries.map Entry.tag).foldl Tag.better none :=
  rfl

theorem maxTag_eq_none {l : Layout} : l.maxTag? = none ↔ l.entries = [] := by
  rw [maxTag_eq]
  cases l.entries with
  | nil => simp
  | cons e es =>
    obtain ⟨t, found, _⟩ := Tag.foldl_better_some (es.map Entry.tag) e.tag
    rw [List.map_cons, List.foldl_cons, Tag.better_none, found]
    exact ⟨nofun, nofun⟩

/-- The largest tag is one of those listed, and none of them is larger. -/
theorem maxTag_eq_some {l : Layout} : l.maxTag? = some t ↔
    (∃ e ∈ l.entries, e.tag = t) ∧ ∀ e ∈ l.entries, e.tag.toInt ≤ t.toInt := by
  rw [maxTag_eq, ← List.mem_map, ← List.forall_mem_map (P := fun u : Tag => u.toInt ≤ t.toInt)]
  cases l.entries.map Entry.tag with
  | nil => simp
  | cons s ts =>
    obtain ⟨u, found, met, largest⟩ := Tag.foldl_better_some ts s
    rw [List.foldl_cons, Tag.better_none, found, Option.some.injEq]
    constructor
    · rintro rfl
      exact ⟨met, largest⟩
    · rintro ⟨listed, bound⟩
      exact Tag.toInt_inj (Int.le_antisymm (bound u met) (largest t listed))

end Layout

/-- The entries that a layout makes of a list, told by the places in the list that have the tag. -/
theorem mem_mapIdx_entry {xs : List α} {tag : Nat → Tag} {name : α → String} {here : Nat → Prop}
    (place : ∀ i, here i ↔ i < xs.length ∧ tag i = t) :
    (⟨t, n⟩ : Entry) ∈ xs.mapIdx (fun i x => ⟨tag i, name x⟩) ↔
      ∃ i x, here i ∧ xs[i]? = some x ∧ name x = n := by
  simp only [List.mem_mapIdx, Entry.mk.injEq, place, List.getElem?_eq_some_iff]
  constructor
  · rintro ⟨i, inside, tagged, named⟩
    exact ⟨i, xs[i], ⟨inside, tagged⟩, ⟨inside, rfl⟩, named⟩
  · rintro ⟨i, _, ⟨inside, tagged⟩, ⟨_, rfl⟩, named⟩
    exact ⟨i, inside, tagged, named⟩

theorem tags_mapIdx (xs : List α) (tag : Nat → Tag) (name : α → String) :
    (xs.mapIdx fun i x => (⟨tag i, name x⟩ : Entry)).map Entry.tag =
      (List.range xs.length).map tag :=
  List.ext_getElem (by simp) (by simp)

namespace Registry

variable {r : Registry}

theorem assigns_explicit_iff :
    r.Assigns t (.explicit i) ↔ i < r.codecs.length ∧ explicitTag i = t := by
  have := r.fits_int
  refine and_congr_right fun inside => ⟨tagAt_of_toInt, ?_⟩
  rintro rfl
  exact toInt_tagAt (by omega)

theorem assigns_constant_iff :
    r.Assigns t (.constant i) ↔ i < r.constants.length ∧ r.constantTag i = t := by
  refine and_congr_right fun inside => ⟨fun tag => ?_, ?_⟩
  · exact Tag.toInt_inj ((toInt_constantTag inside).trans tag.symm)
  · rintro rfl
    exact toInt_constantTag inside

theorem assigns_fallback_iff (allowed : r.allowDefault = true) :
    r.Assigns t (.fallback i) ↔ i < r.names.toList.length ∧ r.fallbackTag i = t := by
  refine (and_iff_right allowed).trans (and_congr_right fun inside => ⟨fun tag => ?_, ?_⟩)
  · exact Tag.toInt_inj ((toInt_fallbackTag inside).trans tag.symm)
  · rintro rfl
    exact toInt_fallbackTag inside

theorem mem_explicit : ⟨t, n⟩ ∈ r.layout.explicit ↔
    ∃ i c, r.Assigns t (.explicit i) ∧ r.codecs[i]? = some c ∧ c.name = n :=
  mem_mapIdx_entry fun _ => assigns_explicit_iff

theorem mem_constants : ⟨t, n⟩ ∈ r.layout.constants ↔
    ∃ i v, r.Assigns t (.constant i) ∧ r.constants[i]? = some v ∧ v.className = n :=
  mem_mapIdx_entry fun _ => assigns_constant_iff

theorem layout_fallback (r : Registry) : r.layout.fallback =
    if r.allowDefault then r.names.toList.mapIdx fun i name => ⟨r.fallbackTag i, name⟩ else [] :=
  rfl

theorem mem_fallback : ⟨t, n⟩ ∈ r.layout.fallback ↔
    ∃ i, r.Assigns t (.fallback i) ∧ r.names.toList[i]? = some n := by
  rw [layout_fallback]
  split
  · rename_i allowed
    refine (mem_mapIdx_entry fun _ => assigns_fallback_iff allowed).trans ?_
    simp
  · rename_i disabled
    refine ⟨nofun, ?_⟩
    rintro ⟨i, assigned, _⟩
    exact absurd assigned.1 disabled

/-- How many entries a layout lists. -/
def listed (r : Registry) : Nat :=
  r.codecs.length + r.constants.length + if r.allowDefault then r.names.size else 0

/-- The entries have the first tags, one each. -/
theorem entries_tags (r : Registry) :
    r.layout.entries.map Entry.tag = (List.range r.listed).map tagAt := by
  have fallback : r.layout.fallback.map Entry.tag =
      (List.range (if r.allowDefault then r.names.size else 0)).map r.fallbackTag := by
    rw [layout_fallback]
    split
    · exact tags_mapIdx _ _ id
    · rfl
  rw [Layout.entries, List.map_append, List.map_append, fallback, listed, List.range_add,
    List.range_add, List.map_append, List.map_append, List.map_map, List.map_map]
  have explicit : r.layout.explicit.map Entry.tag = (List.range r.codecs.length).map tagAt :=
    tags_mapIdx _ _ _
  have constants : r.layout.constants.map Entry.tag =
      (List.range r.constants.length).map r.constantTag :=
    tags_mapIdx _ _ _
  rw [explicit, constants]
  rfl

theorem listed_le (r : Registry) : r.listed ≤ 0x7FFFFFFE := by
  have := r.fits_int
  unfold listed
  split <;> omega

theorem entries_length (r : Registry) : r.layout.entries.length = r.listed := by
  have tags := congrArg List.length r.entries_tags
  simpa using tags

theorem exists_entry_iff : (∃ e ∈ r.layout.entries, e.tag = t) ↔
    ∃ i, r.Assigns t (.explicit i) ∨ r.Assigns t (.constant i) ∨ r.Assigns t (.fallback i) := by
  have among : (∃ e ∈ r.layout.entries, e.tag = t) ↔ ∃ n, ⟨t, n⟩ ∈ r.layout.entries := by
    constructor
    · rintro ⟨⟨_, n⟩, he, rfl⟩
      exact ⟨n, he⟩
    · rintro ⟨n, he⟩
      exact ⟨_, he, rfl⟩
  rw [among]
  simp only [Layout.entries, List.mem_append, mem_explicit, mem_constants, mem_fallback]
  constructor
  · rintro ⟨n, (⟨i, _, assigned, _⟩ | ⟨i, _, assigned, _⟩) | ⟨i, assigned, _⟩⟩
    · exact ⟨i, .inl assigned⟩
    · exact ⟨i, .inr (.inl assigned)⟩
    · exact ⟨i, .inr (.inr assigned)⟩
  · rintro ⟨i, assigned | assigned | assigned⟩
    · exact ⟨_, .inl (.inl ⟨i, _, assigned, List.getElem?_eq_getElem assigned.1, rfl⟩)⟩
    · exact ⟨_, .inl (.inr ⟨i, _, assigned, List.getElem?_eq_getElem assigned.1, rfl⟩)⟩
    · exact ⟨_, .inr ⟨i, assigned, List.getElem?_eq_getElem assigned.2.1⟩⟩

theorem fallbackFor_of_get (h : r.names.toList[i]? = some name) :
    r.fallbackFor name = r.fallbackAt name i := by
  simp only [fallbackFor, Names.index_of_get h]

theorem tag_of_fallbackFor (h : r.fallbackFor name m = .ok b n) :
    ∃ i, r.names.toList[i]? = some name ∧ b.tag = r.fallbackTag i := by
  cases found : r.names.index? name with
  | some i =>
    have listed := Names.get_of_index found
    rw [fallbackFor_of_get listed] at h
    exact ⟨i, listed, (fallbackAt_eq_ok h).1⟩
  | none =>
    simp only [fallbackFor, found] at h
    cases h

/-- All that a lookup by tag can come to. -/
theorem resolveTag_cases (r : Registry) (t : Tag) (m : Memo) :
    (∃ i c, r.Assigns t (.explicit i) ∧ r.codecs[i]? = some c ∧
      r.resolveTag t m = .ok ⟨t, c.format, some c.id⟩ m) ∨
    (∃ i name, r.Assigns t (.fallback i) ∧ r.names.toList[i]? = some name ∧
      r.resolveTag t = r.fallbackFor name ∧
      ((∃ f n, r.resolveTag t m = .ok ⟨t, f, none⟩ n ∧ n.cell? name = some (some f)) ∨
       (∃ n, r.resolveTag t m = .error (.constructionFailed name) n ∧
          n.cell? name = some none))) ∨
    ((∀ i, ¬ r.Assigns t (.explicit i)) ∧ (∀ i, ¬ r.Assigns t (.fallback i)) ∧
      r.resolveTag t m = .error (.unknownTag t) m) := by
  cases hp : r.place t with
  | explicit i =>
    have assigned : r.Assigns t (.explicit i) := hp ▸ r.assigns_place t
    obtain ⟨c, hc, answer⟩ := resolveTag_of_explicit assigned m
    exact .inl ⟨i, c, assigned, hc, answer⟩
  | fallback i =>
    have assigned : r.Assigns t (.fallback i) := hp ▸ r.assigns_place t
    obtain ⟨name, hn, same, tag⟩ := resolveTag_of_fallback assigned
    refine .inr (.inl ⟨i, name, assigned, hn, same.trans (fallbackFor_of_get hn).symm, ?_⟩)
    rw [same, ← tag]
    exact r.fallbackAt_cases name i m
  | _ =>
    have explicit : ∀ i, r.place t ≠ .explicit i := by simp [hp]
    have fallback : ∀ i, r.place t ≠ .fallback i := by simp [hp]
    exact .inr (.inr ⟨fun i assigned => explicit i (place_eq assigned),
      fun i assigned => fallback i (place_eq assigned), resolveTag_other explicit fallback m⟩)

/-- The lookup of a tag ends with the codec that was built for the name, or says that none could
be built for it. -/
def AnswersFor (r : Registry) (name : String) (t : Tag) (m : Memo) : Prop :=
  match r.resolveTag t m with
  | .ok b n => b.codecId? = none ∧ r.fallbackFor name m = .ok b n ∧
      n.cell? name = some (some b.format)
  | .error e _ => e = .constructionFailed name

/-- One of the two lookups by tag knows the tag. -/
def Knows (r : Registry) (t : Tag) (m : Memo) : Prop :=
  (∀ u, result (r.resolveTag t) m ≠ .error (.unknownTag u)) ∨ (r.constantAt? t).isSome

theorem knows_iff : r.Knows t m ↔ ∃ e ∈ r.layout.entries, e.tag = t := by
  rw [exists_entry_iff]
  constructor
  · rintro (resolved | constant)
    · rcases r.resolveTag_cases t m with ⟨i, _, assigned, _⟩ | ⟨i, _, assigned, _⟩ | ⟨_, _, unknown⟩
      · exact ⟨i, .inl assigned⟩
      · exact ⟨i, .inr (.inr assigned)⟩
      · exact absurd (by rw [result, unknown]) (resolved t)
    · obtain ⟨v, found⟩ := Option.isSome_iff_exists.mp constant
      obtain ⟨i, assigned, _⟩ := (r.constantAt_eq_some t v).mp found
      exact ⟨i, .inr (.inl assigned)⟩
  · rintro ⟨i, assigned | assigned | assigned⟩
    · obtain ⟨c, _, answer⟩ := resolveTag_of_explicit assigned m
      refine .inl fun u unknown => ?_
      rw [result, answer] at unknown
      cases unknown
    · have found := (r.constantAt_eq_some t _).mpr
        ⟨i, assigned, List.getElem?_eq_getElem assigned.1⟩
      exact .inr (Option.isSome_iff_exists.mpr ⟨_, found⟩)
    · obtain ⟨name, hn, same, _⟩ := resolveTag_of_fallback assigned
      refine .inl fun u unknown => ?_
      rw [result, same] at unknown
      rcases r.fallbackAt_cases name i m with ⟨f, n, answer, _⟩ | ⟨n, answer, _⟩
      all_goals
        rw [answer] at unknown
        cases unknown

/-- Only a registered codec is answered with an id. -/
theorem explicit_of_resolveTag (h : r.resolveTag t m = .ok ⟨t, f, some k⟩ n) :
    ∃ i c, r.Assigns t (.explicit i) ∧ r.codecs[i]? = some c ∧ c.format = f := by
  rcases r.resolveTag_cases t m with ⟨i, c, assigned, hc, answer⟩ |
    ⟨i, _, _, _, _, ⟨g, _, answer, _⟩ | ⟨_, answer, _⟩⟩ | ⟨_, _, answer⟩
  · rw [answer] at h
    injection h with same
    exact ⟨i, c, assigned, hc, congrArg Binding.format same⟩
  all_goals
    rw [answer] at h
    cases h

theorem mem_explicit_iff (r : Registry) (t : Tag) (n : String) (m : Memo) :
    ⟨t, n⟩ ∈ r.layout.explicit ↔
      ∃ c ∈ r.codecs, c.name = n ∧ r.resolveTag t m = .ok ⟨t, c.format, some c.id⟩ m := by
  rw [mem_explicit]
  constructor
  · rintro ⟨i, c, assigned, hc, name⟩
    obtain ⟨e, he, answer⟩ := resolveTag_of_explicit assigned m
    cases hc.symm.trans he
    exact ⟨c, List.mem_of_getElem? hc, name, answer⟩
  · rintro ⟨c, _, name, answer⟩
    obtain ⟨i, e, assigned, he, format⟩ := explicit_of_resolveTag answer
    exact ⟨i, e, assigned, he, by rw [Codec.name, format]; exact name⟩

theorem mem_constants_iff (r : Registry) (t : Tag) (n : String) :
    ⟨t, n⟩ ∈ r.layout.constants ↔
      ∃ v c, r.constantAt? t = some v ∧ v.cls? = some c ∧ c.name = n := by
  rw [mem_constants]
  constructor
  · rintro ⟨i, v, assigned, hv, name⟩
    cases hc : v.cls? with
    | none =>
      -- a registered value is an object
      have null : v = .null := by cases v <;> simp [Value.cls?] at hc; rfl
      exact absurd (null ▸ List.mem_of_getElem? hv) r.constants_not_null
    | some c =>
      rw [Value.className, hc] at name
      exact ⟨v, c, (r.constantAt_eq_some t v).mpr ⟨i, assigned, hv⟩, hc, name⟩
  · rintro ⟨v, c, found, hc, name⟩
    obtain ⟨i, assigned, hv⟩ := (r.constantAt_eq_some t v).mp found
    exact ⟨i, v, assigned, hv, by rw [Value.className, hc]; exact name⟩

/-- A tag has one place, so that the name of which it is the tag is the only one it answers for. -/
theorem mem_fallback_iff (r : Registry) (t : Tag) (name : String) (m : Memo) :
    ⟨t, name⟩ ∈ r.layout.fallback ↔ r.AnswersFor name t m := by
  rw [mem_fallback]
  unfold AnswersFor
  constructor
  · rintro ⟨i, assigned, listed⟩
    obtain ⟨other, place, same, tag⟩ := resolveTag_of_fallback assigned
    cases listed.symm.trans place
    rw [fallbackFor_of_get listed, ← same]
    rcases same ▸ r.fallbackAt_cases name i m with ⟨f, n, answer, cell⟩ | ⟨n, answer, _⟩
    · rw [answer]
      exact ⟨rfl, rfl, cell⟩
    · rw [answer]
  · rcases r.resolveTag_cases t m with ⟨_, c, _, _, answer⟩ |
      ⟨i, other, assigned, place, same, ⟨f, n, answer, _⟩ | ⟨n, answer, _⟩⟩ | ⟨_, _, answer⟩
    · rw [answer]
      rintro ⟨⟨⟩, _⟩
    · rw [answer]
      rintro ⟨_, built, _⟩
      obtain ⟨j, listed, tag⟩ := tag_of_fallbackFor built
      have inside := (List.getElem?_eq_some_iff.mp listed).1
      exact ⟨j, (assigns_fallback_iff assigned.1).mpr ⟨inside, tag.symm⟩, listed⟩
    · rw [answer]
      rintro ⟨⟩
      exact ⟨i, assigned, place⟩
    · rw [answer]
      nofun

theorem explicit_increasing (r : Registry) :
    (r.layout.explicit.map Entry.name).Pairwise (· < ·) := by
  have names : r.layout.explicit.map Entry.name = r.codecs.map Codec.name :=
    List.ext_getElem (by simp [layout]) (by simp [layout])
  rw [names]
  exact Codec.names_increasing r.codecs_sorted r.claims_distinct

theorem fallback_increasing (r : Registry) :
    (r.layout.fallback.map Entry.name).Pairwise (· < ·) := by
  rw [layout_fallback]
  split
  · have names : (r.names.toList.mapIdx fun i n => (⟨r.fallbackTag i, n⟩ : Entry)).map Entry.name =
        r.names.toList :=
      List.ext_getElem (by simp) (by simp)
    rw [names]
    exact r.names.sorted
  · exact .nil

theorem fallback_eq_nil (r : Registry) :
    r.layout.fallback = [] ↔ r.allowDefault = false ∨ r.names.toList = [] := by
  rw [layout_fallback]
  cases r.allowDefault <;> simp

/-- What a layout says is what the lookups find: its entries have the first tags, one each, the
names of codecs and those behind the constants increase, and an entry has its place by what the
lookups of its tag come to. -/
structure Truthful (r : Registry) (l : Layout) (m : Memo) : Prop where
  allowed : l.allowDefault = r.allowDefault
  tags : l.entries.map (fun e => e.tag.toInt) =
    (List.range l.entries.length).map fun i : Nat => (i + 1 : Int)
  explicitIncreasing : (l.explicit.map Entry.name).Pairwise (· < ·)
  fallbackIncreasing : (l.fallback.map Entry.name).Pairwise (· < ·)
  explicit : ∀ t n, ⟨t, n⟩ ∈ l.explicit ↔
    ∃ c ∈ r.codecs, c.name = n ∧ r.resolveTag t m = .ok ⟨t, c.format, some c.id⟩ m
  constants : ∀ t n, ⟨t, n⟩ ∈ l.constants ↔
    ∃ v c, r.constantAt? t = some v ∧ v.cls? = some c ∧ c.name = n
  fallback : ∀ t n, ⟨t, n⟩ ∈ l.fallback ↔ r.AnswersFor n t m
  noFallback : l.fallback = [] ↔ r.allowDefault = false ∨ r.names.toList = []
  noTag : l.maxTag? = none ↔ r.codecs = [] ∧ r.constants = [] ∧
    (r.allowDefault = false ∨ r.names.toList = [])
  /-- The largest tag is the last one that a lookup knows. -/
  maxTag : ∀ t, l.maxTag? = some t ↔ r.Knows t m ∧ ∀ u, r.Knows u m → u.toInt ≤ t.toInt

/-- The layout of a registry is in keeping with its lookups, whatever codecs were built before. To
take it changes nothing, and as it does not depend on the resolver and the factory, neither is
called. -/
theorem layout_truthful (r : Registry) (m : Memo) :
    r.Truthful r.layout m ∧ r.perform .layout m = (.layout r.layout, m) ∧
    ∀ b, (r.under b).layout = r.layout := by
  refine ⟨?_, rfl, fun b => rfl⟩
  constructor
  case allowed => rfl
  case tags =>
    have := r.listed_le
    rw [r.entries_length, ← Function.comp_def, ← List.map_map, r.entries_tags, List.map_map]
    refine List.map_congr_left fun i hi => toInt_tagAt ?_
    have := List.mem_range.mp hi
    omega
  case explicitIncreasing => exact r.explicit_increasing
  case fallbackIncreasing => exact r.fallback_increasing
  case explicit => exact fun t n => r.mem_explicit_iff t n m
  case constants => exact r.mem_constants_iff
  case fallback => exact fun t n => r.mem_fallback_iff t n m
  case noFallback => exact r.fallback_eq_nil
  case noTag =>
    rw [Layout.maxTag_eq_none, Layout.entries, List.append_eq_nil_iff, List.append_eq_nil_iff,
      and_assoc, r.fallback_eq_nil]
    simp [layout]
  case maxTag =>
    intro t
    rw [Layout.maxTag_eq_some, knows_iff]
    refine and_congr_right fun _ => ?_
    constructor
    · intro largest u known
      obtain ⟨e, he, rfl⟩ := knows_iff.mp known
      exact largest e he
    · intro largest e he
      exact largest e.tag (knows_iff.mpr ⟨e, he, rfl⟩)

/-- A name has no tag while the fallback is disabled, and is the last one once it is allowed. -/
example : ∃ r s, (((Draft.empty.addCodec ⟨7, .pair⟩).addName "demo.Color").allow false).build =
      .ok r ∧ ((Draft.empty.addCodec ⟨7, .pair⟩).addName "demo.Color").build = .ok s ∧
    r.layout.maxTag? = some ⟨1⟩ ∧ s.layout.maxTag? = some ⟨2⟩ :=
  ⟨_, _, rfl, rfl, by decide, by decide⟩

end Registry

end TagCodec
