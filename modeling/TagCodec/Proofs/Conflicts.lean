import TagCodec.Proofs.Allocation
import TagCodec.Proofs.RegistrationOrder

namespace TagCodec

theorem firstRepeat?_eq_some {seen xs : List String} :
    firstRepeat? seen xs = some s ↔ ∃ before after, xs = before ++ s :: after ∧ before.Nodup ∧
      (∀ x ∈ before, x ∉ seen) ∧ (s ∈ seen ∨ s ∈ before) := by
  induction xs generalizing seen with
  | nil => simp [firstRepeat?]
  | cons x xs ih =>
    by_cases known : x ∈ seen
    · simp only [firstRepeat?, known, if_true, Option.some.injEq]
      constructor
      · rintro rfl
        exact ⟨[], xs, rfl, .nil, fun _ here => absurd here List.not_mem_nil, .inl known⟩
      · rintro ⟨before, after, split, _, new, _⟩
        cases before with
        | nil => exact (List.cons.inj split).1
        | cons y before =>
          rw [(List.cons.inj split).1] at known
          exact absurd known (new y List.mem_cons_self)
    · simp only [firstRepeat?, known, if_false, ih]
      constructor
      · rintro ⟨before, after, rfl, distinct, new, met⟩
        have other : x ∉ before := fun hx => new x hx List.mem_cons_self
        refine ⟨x :: before, after, rfl, List.nodup_cons.mpr ⟨other, distinct⟩, ?_, ?_⟩
        · intro y hy
          rcases List.mem_cons.mp hy with rfl | hy
          · exact known
          · exact fun h => new y hy (List.mem_cons_of_mem x h)
        · simpa [or_comm, or_left_comm, or_assoc] using met
      · rintro ⟨before, after, split, distinct, new, met⟩
        cases before with
        | nil =>
          have same := (List.cons.inj split).1
          exact absurd (met.resolve_right List.not_mem_nil) (same ▸ known)
        | cons y before =>
          obtain ⟨rfl, rest⟩ := List.cons.inj split
          obtain ⟨other, distinct⟩ := List.nodup_cons.mp distinct
          refine ⟨before, after, rest, distinct, ?_, ?_⟩
          · intro z hz member
            rcases List.mem_cons.mp member with rfl | old
            · exact other hz
            · exact new z (List.mem_cons_of_mem _ hz) old
          · simpa [or_comm, or_left_comm, or_assoc] using met

/-- A place among the parts of some things is a place among the parts of one of them. -/
theorem exists_part {f : α → List β} {xs : List α} (h : xs.flatMap f = front ++ s :: back) :
    ∃ before a after passed left, xs = before ++ a :: after ∧ f a = passed ++ s :: left ∧
      front = before.flatMap f ++ passed := by
  induction xs generalizing front with
  | nil => simp at h
  | cons x xs ih =>
    rw [List.flatMap_cons] at h
    rcases List.append_eq_append_iff.mp h with ⟨more, rfl, rest⟩ | ⟨more, parts, rest⟩
    · obtain ⟨before, a, after, passed, left, rfl, part, rfl⟩ := ih rest
      exact ⟨x :: before, a, after, passed, left, rfl, part, by simp⟩
    · cases more with
      | nil =>
        have here : xs.flatMap f = [] ++ s :: back := rest.symm
        obtain ⟨before, a, after, passed, left, rfl, part, nothing⟩ := ih here
        refine ⟨x :: before, a, after, passed, left, rfl, part, ?_⟩
        rw [List.flatMap_cons, List.append_assoc, ← nothing, parts]
        simp
      | cons y more =>
        obtain ⟨rfl, _⟩ := List.cons.inj rest
        exact ⟨[], x, xs, front, more, rfl, parts, rfl⟩

/-- The codec claims the class more than once. -/
def Codec.Doubles (c : Codec) (cls : String) : Prop := 2 ≤ c.claims.count cls

namespace Draft

/-- Two codecs of the draft claim the class. -/
def Contested (d : Draft) (cls : String) : Prop :=
  ∃ c ∈ d.codecs, ∃ e ∈ d.codecs, c.id ≠ e.id ∧ cls ∈ c.claims ∧ cls ∈ e.claims

/-- Going over the codecs in the order of their class names, each with its claims as they stand, the
first class that was met before is this one, among the claims of this codec. -/
def StopsAt (d : Draft) (c : Codec) (cls : String) : Prop :=
  ∃ before after passed left, Codec.sortByName d.codecs = before ++ c :: after ∧
    c.claims = passed ++ cls :: left ∧ (before.flatMap Codec.claims ++ passed).Nodup ∧
    cls ∈ before.flatMap Codec.claims ++ passed

theorem id_unique {d : Draft} (hc : c ∈ d.codecs) (he : e ∈ d.codecs) (same : c.id = e.id) :
    c = e := by
  obtain ⟨i, hi⟩ := List.mem_iff_getElem?.mp hc
  obtain ⟨j, hj⟩ := List.mem_iff_getElem?.mp he
  have left : (d.codecs.map Codec.id)[i]? = some e.id := by
    rw [List.getElem?_map, hi, ← same]
    rfl
  have right : (d.codecs.map Codec.id)[j]? = some e.id := by
    rw [List.getElem?_map, hj]
    rfl
  have inside := (List.getElem?_eq_some_iff.mp left).1
  have place := (List.getElem?_inj inside d.codecs_distinct).mp (left.trans right.symm)
  subst place
  exact Option.some.inj (hi.symm.trans hj)

theorem firstRepeat_claims (d : Draft) (cls : String) :
    firstRepeat? [] ((Codec.sortByName d.codecs).flatMap Codec.claims) = some cls ↔
      ∃ c, d.StopsAt c cls := by
  rw [firstRepeat?_eq_some]
  constructor
  · rintro ⟨front, back, split, distinct, _, met⟩
    obtain ⟨before, c, after, passed, left, codecs, claims, rfl⟩ := exists_part split
    exact ⟨c, before, after, passed, left, codecs, claims, distinct,
      met.resolve_left List.not_mem_nil⟩
  · rintro ⟨c, before, after, passed, left, codecs, claims, distinct, met⟩
    refine ⟨_, left ++ after.flatMap Codec.claims, ?_, distinct, fun _ _ => List.not_mem_nil,
      .inr met⟩
    rw [codecs, List.flatMap_append, List.flatMap_cons, claims]
    simp

/-- Construction reports the class where it stops. -/
theorem build_conflict_iff (d : Draft) (cls : String) :
    d.build = .error (.conflictingClaims cls) ↔ d.size ≤ capacity ∧ ∃ c, d.StopsAt c cls := by
  rw [← firstRepeat_claims]
  constructor
  · intro failed
    rcases build_eq_error failed with ⟨other, _⟩ | ⟨reported, same, fits, stopped⟩
    · cases other
    · cases same
      refine ⟨fits, ?_⟩
      rw [ClassIndex.allocate_eq] at stopped
      split at stopped
      · cases stopped
        assumption
      · cases stopped
  · rintro ⟨fits, repeated⟩
    exact build_of_repeat fits repeated

variable {d : Draft}

/-- The codec where the walk stops has claimed the class before, or another one has. -/
theorem StopsAt.cases (h : d.StopsAt c cls) :
    c ∈ d.codecs ∧ cls ∈ c.claims ∧
      (c.Doubles cls ∨ ∃ e ∈ d.codecs, e.id ≠ c.id ∧ cls ∈ e.claims) := by
  obtain ⟨before, after, passed, left, codecs, claims, _, met⟩ := h
  have perm := codecs ▸ Codec.sortByName_perm d.codecs
  refine ⟨perm.mem_iff.mp (by simp), by simp [claims], ?_⟩
  rcases List.mem_append.mp met with earlier | own
  · obtain ⟨e, he, theirs⟩ := List.mem_flatMap.mp earlier
    have distinct := (perm.map Codec.id).nodup_iff.mpr d.codecs_distinct
    rw [List.map_append] at distinct
    have apart := (List.nodup_append.mp distinct).2.2
    refine .inr ⟨e, perm.mem_iff.mp (List.mem_append_left _ he), ?_, theirs⟩
    exact apart _ (List.mem_map_of_mem he) _ (by simp)
  · left
    have once := List.count_pos_iff.mpr own
    rw [Codec.Doubles, claims, List.count_append, List.count_cons_self]
    omega

/-- A class that was met twice is claimed by two codecs, or twice by the only codec that claims
it. -/
theorem StopsAt.uncontested_iff (h : d.StopsAt c cls) :
    ¬ d.Contested cls ↔
      ∃ e ∈ d.codecs, e.Doubles cls ∧ ∀ k ∈ d.codecs, cls ∈ k.claims → k = e := by
  obtain ⟨mine, claims, reason⟩ := h.cases
  constructor
  · intro free
    have alone : ∀ k ∈ d.codecs, cls ∈ k.claims → k.id = c.id := by
      intro k hk theirs
      by_cases same : k.id = c.id
      · exact same
      · exact absurd ⟨k, hk, c, mine, same, theirs, claims⟩ free
    rcases reason with doubled | ⟨e, he, other, theirs⟩
    · exact ⟨c, mine, doubled, fun k hk theirs => id_unique hk mine (alone k hk theirs)⟩
    · exact absurd (alone e he theirs) other
  · rintro ⟨e, _, _, only⟩ ⟨a, ha, b, hb, differ, first, second⟩
    rw [only a ha first, only b hb second] at differ
    exact differ rfl

/-- Whatever is claimed twice keeps a draft from construction. -/
theorem claims_nodup_iff (d : Draft) : (d.codecs.flatMap Codec.claims).Nodup ↔
    ∀ cls, ¬ d.Contested cls ∧ ∀ c ∈ d.codecs, ¬ c.Doubles cls := by
  constructor
  · intro distinct cls
    constructor
    · rintro ⟨c, hc, e, he, differ, mine, theirs⟩
      exact differ (congrArg Codec.id (Codec.owner_unique distinct hc he mine theirs))
    · intro c hc doubled
      have own := List.nodup_iff_count.mp ((List.pairwise_flatMap.mp distinct).1 c hc) cls
      rw [Codec.Doubles] at doubled
      omega
  · intro free
    have order := (Codec.sortByName_perm d.codecs).flatMap_right Codec.claims
    rw [← order.nodup_iff]
    cases found : firstRepeat? [] ((Codec.sortByName d.codecs).flatMap Codec.claims) with
    | none => exact (firstRepeat?_eq_none.mp found).1
    | some cls =>
      obtain ⟨c, stops⟩ := (d.firstRepeat_claims cls).mp found
      obtain ⟨mine, claims, doubled | ⟨e, he, other, theirs⟩⟩ := stops.cases
      · exact absurd doubled ((free cls).2 c mine)
      · exact absurd ⟨e, he, c, mine, other, theirs, claims⟩ (free cls).1

/-- If nothing else is wrong, what is claimed twice is the reason why construction fails. -/
theorem exists_conflict_iff (fits : d.size ≤ capacity) :
    (∃ cls, d.build = .error (.conflictingClaims cls)) ↔
      ∃ cls, d.Contested cls ∨ ∃ c ∈ d.codecs, c.Doubles cls := by
  constructor
  · rintro ⟨cls, failed⟩
    obtain ⟨_, c, stops⟩ := (d.build_conflict_iff cls).mp failed
    obtain ⟨mine, claims, doubled | ⟨e, he, other, theirs⟩⟩ := stops.cases
    · exact ⟨cls, .inr ⟨c, mine, doubled⟩⟩
    · exact ⟨cls, .inl ⟨e, he, c, mine, other, theirs, claims⟩⟩
  · rintro ⟨cls, wrong⟩
    have bad : ¬ (d.codecs.flatMap Codec.claims).Nodup := by
      intro distinct
      have free := d.claims_nodup_iff.mp distinct cls
      rcases wrong with contested | ⟨c, hc, doubled⟩
      · exact free.1 contested
      · exact free.2 c hc doubled
    cases built : d.build with
    | ok r => exact absurd ((d.build_ok_iff.mp ⟨r, built⟩).2) bad
    | error x =>
      rcases build_eq_error built with ⟨_, large⟩ | ⟨reported, rfl, _⟩
      · omega
      · exact ⟨reported, rfl⟩

end Draft

namespace Registry

/-- Construction reports a conflict where it stops on its way over the codecs, for want of nothing
else. A reported class is claimed by two codecs, unless the only codec that claims it claims it
twice. So as long as no codec repeats itself, two of those that were registered claim it. -/
theorem conflict_reported {ss : List Draft.Step} {d : Draft} (run : Draft.empty.follow ss = .ok d)
    (cls : String) :
    (d.build = .error (.conflictingClaims cls) ↔ d.size ≤ capacity ∧ ∃ c, d.StopsAt c cls) ∧
    (d.build = .error (.conflictingClaims cls) →
      (¬ d.Contested cls ↔
        ∃ c ∈ d.codecs, c.Doubles cls ∧ ∀ e ∈ d.codecs, cls ∈ e.claims → e = c)) ∧
    ((∀ c ∈ (Draft.entries ss).codecs, c.claims.Nodup) →
      d.build = .error (.conflictingClaims cls) →
      ∃ c ∈ (Draft.entries ss).codecs, ∃ e ∈ (Draft.entries ss).codecs,
        c.id ≠ e.id ∧ cls ∈ c.claims ∧ cls ∈ e.claims) ∧
    (∀ c, (∀ e ∈ (Draft.entries ss).codecs, e = c) → d.build = .error (.conflictingClaims cls) →
      c.Doubles cls) ∧
    (d.size ≤ capacity → ((∃ x, d.build = .error (.conflictingClaims x)) ↔
      ∃ x, d.Contested x ∨ ∃ c ∈ d.codecs, c.Doubles x)) := by
  have holds : d.Holds (Draft.entries ss) := Draft.holds_empty.follow run
  have stops := d.build_conflict_iff cls
  refine ⟨stops, ?_, ?_, ?_, Draft.exists_conflict_iff⟩
  · intro failed
    obtain ⟨_, c, there⟩ := stops.mp failed
    exact there.uncontested_iff
  · intro distinct failed
    obtain ⟨_, c, there⟩ := stops.mp failed
    obtain ⟨mine, claims, doubled | ⟨e, he, other, theirs⟩⟩ := there.cases
    · have own := List.nodup_iff_count.mp (distinct c (holds.registered c mine)) cls
      rw [Codec.Doubles] at doubled
      omega
    · exact ⟨e, holds.registered e he, c, holds.registered c mine, other, theirs, claims⟩
  · intro c only failed
    obtain ⟨_, k, there⟩ := stops.mp failed
    obtain ⟨mine, claims, doubled | ⟨e, he, other, theirs⟩⟩ := there.cases
    · exact only k (holds.registered k mine) ▸ doubled
    · rw [only e (holds.registered e he), only k (holds.registered k mine)] at other
      exact absurd rfl other

/-- A codec for triangles beside the one for shapes, which is registered twice. -/
def twoForTriangles : List Draft.Step :=
  [.codec ⟨1, .shape⟩, .codec ⟨2, .token Catalog.triangle [Catalog.pair] []⟩, .codec ⟨1, .shape⟩]

theorem triangles_contested :
    ∃ d, Draft.empty.follow twoForTriangles = .ok d ∧
      d.build = .error (.conflictingClaims "demo.shapes.Triangle") ∧
      ∃ c ∈ (Draft.entries twoForTriangles).codecs, ∃ e ∈ (Draft.entries twoForTriangles).codecs,
        c.id ≠ e.id ∧ "demo.shapes.Triangle" ∈ c.claims ∧ "demo.shapes.Triangle" ∈ e.claims := by
  obtain ⟨d, run⟩ : ∃ d, Draft.empty.follow twoForTriangles = .ok d := ⟨_, rfl⟩
  have failed : d.build = .error (.conflictingClaims "demo.shapes.Triangle") := by
    cases run
    rfl
  have distinct : ∀ c ∈ (Draft.entries twoForTriangles).codecs, c.claims.Nodup := by
    decide
  exact ⟨d, run, failed, (conflict_reported run _).2.2.1 distinct failed⟩

/-- A codec that names the class of pairs twice among its further classes is in nobody's way. -/
theorem conflict_with_itself :
    ∃ d, Draft.empty.follow [.codec ⟨1, .token Catalog.color [Catalog.pair, Catalog.pair] []⟩] =
        .ok d ∧ d.build = .error (.conflictingClaims "demo.Pair") ∧ ¬ d.Contested "demo.Pair" := by
  refine ⟨_, rfl, rfl, ?_⟩
  rintro ⟨c, hc, e, he, differ, _⟩
  cases List.mem_singleton.mp hc
  cases List.mem_singleton.mp he
  exact differ rfl

end Registry

end TagCodec
