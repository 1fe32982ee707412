import TagCodec.Proofs.Indexing
import TagCodec.Proofs.Peers

namespace TagCodec

namespace Codec

theorem names_increasing {cs : List Codec} (sorted : cs.Pairwise fun a b => a.name ≤ b.name)
    (distinct : (cs.flatMap claims).Nodup) : (cs.map name).Pairwise (· < ·) := by
  have apart := (List.pairwise_flatMap.mp distinct).2
  refine List.pairwise_map.mpr ((sorted.and apart).imp ?_)
  intro c e ⟨le, other⟩
  exact Std.lt_of_le_of_ne le (other _ List.mem_cons_self _ List.mem_cons_self)

end Codec

namespace Draft

/-- How many codecs of the draft have a smaller class name. -/
def rank (d : Draft) (c : Codec) : Nat := d.codecs.countP fun e => e.name < c.name

/-- What a codec of the draft is to be found as. -/
def bindingOf (d : Draft) (c : Codec) : Binding :=
  ⟨Registry.explicitTag (d.rank c), c.format, some c.id⟩

/-- No codec of the draft is for a class of this name. -/
def Unclaimed (d : Draft) (name : String) : Prop := ∀ c ∈ d.codecs, name ∉ c.claims

instance (d : Draft) (name : String) : Decidable (d.Unclaimed name) :=
  inferInstanceAs (Decidable (∀ c ∈ d.codecs, name ∉ c.claims))

/-- The place of a codec is its rank, since the names in front of it are the smaller ones. -/
theorem rank_of_get {d : Draft} {cs : List Codec} (perm : cs.Perm d.codecs)
    (increasing : (cs.map Codec.name).Pairwise (· < ·)) (h : cs[i]? = some c) : d.rank c = i := by
  have name : (cs.map Codec.name)[i]? = some c.name := by
    rw [List.getElem?_map, h]
    rfl
  have place := Names.countP_lt_of_sorted increasing name
  rw [List.countP_map] at place
  exact (perm.countP_eq _).symm.trans place

theorem toInt_bindingOf {d : Draft} (fits : d.codecs.length ≤ capacity) (c : Codec) :
    (d.bindingOf c).tag.toInt = 1 + d.rank c := by
  have rank : d.rank c ≤ d.codecs.length := List.countP_le_length
  rw [capacity] at fits
  rw [bindingOf, Registry.explicitTag, Registry.toInt_tagAt (by omega)]
  omega

/-- Construction fails for lack of tags, or where the walk over the codecs stops. -/
theorem build_eq_error {d : Draft} (failed : d.build = .error e) :
    (e = .tooLarge d.size ∧ capacity < d.size) ∨
    ∃ cls, e = .conflictingClaims cls ∧ d.size ≤ capacity ∧
      ClassIndex.allocate d.codecs = .error cls := by
  rcases Nat.lt_or_ge capacity d.size with large | fits
  · rw [build_of_large large] at failed
    cases failed
    exact .inl ⟨rfl, large⟩
  · right
    rw [ClassIndex.allocate_eq]
    cases found : firstRepeat? [] ((Codec.sortByName d.codecs).flatMap Codec.claims) with
    | none =>
      obtain ⟨r, built⟩ := build_of_distinct fits found
      rw [built] at failed
      cases failed
    | some cls =>
      rw [build_of_repeat fits found] at failed
      cases failed
      exact ⟨cls, rfl, fits, rfl⟩

end Draft

namespace ClassIndex

/-- The codecs of a draft stand in the order of their class names, which gives them the tags from 1
on as far as there are tags, and every class that one of them claims leads to it. -/
structure Allocates (x : ClassIndex) (d : Draft) : Prop where
  place : ∀ c ∈ d.codecs, x.table[d.rank c]? = some (d.bindingOf c)
  tag : d.codecs.length ≤ capacity → ∀ c ∈ d.codecs,
    (d.bindingOf c).tag.toInt = 1 + d.codecs.countP fun e => e.name < c.name
  tags : d.codecs.length ≤ capacity →
    x.table.map (fun b => b.tag.toInt) =
      (List.range d.codecs.length).map fun i : Nat => (i + 1 : Int)
  increasing : (x.table.map fun b => b.format.primary.name).Pairwise (· < ·)
  claims : ∀ name b, x.find? name = some b ↔
    ∃ c ∈ d.codecs, name ∈ c.claims ∧ b = d.bindingOf c

section

variable {x : ClassIndex} {d : Draft} {cs : List Codec} (holds : x.Holds cs)
  (perm : cs.Perm d.codecs) (increasing : (cs.map Codec.name).Pairwise (· < ·))

include holds perm increasing

theorem Holds.get_table {i : Nat} (h : cs[i]? = some c) : x.table[i]? = some (d.bindingOf c) := by
  rw [holds.table, List.getElem?_mapIdx, h, Draft.bindingOf,
    Draft.rank_of_get perm increasing h]
  rfl

theorem Holds.find_eq_some (distinct : (cs.flatMap Codec.claims).Nodup) :
    x.find? name = some b ↔ ∃ c ∈ d.codecs, name ∈ c.claims ∧ b = d.bindingOf c := by
  cases found : x.places.lookup name with
  | none =>
    simp only [find?, found]
    constructor
    · nofun
    · rintro ⟨c, hc, claims, _⟩
      exact absurd claims (holds.unclaimed name found c (perm.mem_iff.mpr hc))
  | some i =>
    obtain ⟨e, place, theirs⟩ := holds.claimed name i found
    have entry := holds.get_table perm increasing place
    have inside := List.mem_of_getElem? place
    simp only [find?, found, Option.bind_eq_bind, Option.bind_some, entry, Option.some.injEq]
    constructor
    · rintro rfl
      exact ⟨e, perm.mem_iff.mp inside, theirs, rfl⟩
    · rintro ⟨c, hc, mine, rfl⟩
      have same := Codec.owner_unique distinct (perm.mem_iff.mpr hc) inside mine theirs
      rw [same]

theorem Holds.allocates (distinct : (cs.flatMap Codec.claims).Nodup) : x.Allocates d := by
  refine ⟨?_, ?_, ?_, ?_, fun name b => holds.find_eq_some perm increasing distinct⟩
  · intro c hc
    obtain ⟨i, hi⟩ := List.mem_iff_getElem?.mp (perm.mem_iff.mpr hc)
    rw [Draft.rank_of_get perm increasing hi]
    exact holds.get_table perm increasing hi
  · intro fits c _
    exact Draft.toInt_bindingOf fits c
  · intro fits
    refine List.ext_getElem (by simp [holds.table, perm.length_eq]) ?_
    intro i hi _
    have short : i < cs.length := by simpa [holds.table] using hi
    rw [← perm.length_eq, capacity] at fits
    simp only [holds.table, List.getElem_map, List.getElem_mapIdx, List.getElem_range]
    exact Registry.toInt_tagAt (by omega)
  · have names : (x.table.map fun b => b.format.primary.name) = cs.map Codec.name :=
      List.ext_getElem (by simp [holds.table]) (by simp [holds.table, Codec.name])
    rw [names]
    exact increasing

end

theorem allocates_of_allocate {d : Draft} (allocated : allocate d.codecs = .ok x) :
    x.Allocates d := by
  have perm := Codec.sortByName_perm d.codecs
  have distinct := (allocate_ok_iff d.codecs).mp ⟨x, allocated⟩
  have distinct := (perm.flatMap_right Codec.claims).nodup_iff.mpr distinct
  have increasing := Codec.names_increasing (Codec.sortByName_sorted d.codecs) distinct
  exact (holds_of_allocate allocated).allocates perm increasing distinct

end ClassIndex

namespace Registry

/-- What the registry has for its codecs is what the walk over them has found. -/
structure IndexedBy (r : Registry) (x : ClassIndex) : Prop where
  explicitAt : ∀ i, r.explicitAt? i = x.table[i]?
  claimant : ∀ name, r.claimant? name = x.find? name
  resolveTag : ∀ b ∈ x.table, ∀ m, r.resolveTag b.tag m = .ok b m
  layout : r.layout.explicit = x.table.map fun b => ⟨b.tag, b.format.primary.name⟩

section Built

variable {d : Draft} {r : Registry} (built : d.build = .ok r)

include built

theorem codecs_perm : r.codecs.Perm d.codecs := by
  rw [(Draft.build_entries built).2.1]
  exact Codec.sortByName_perm d.codecs

theorem rank_of_codec (h : r.codecs[i]? = some c) : d.rank c = i :=
  Draft.rank_of_get (codecs_perm built) (Codec.names_increasing r.codecs_sorted r.claims_distinct) h

theorem claimant_of_mem (hc : c ∈ d.codecs) (claimed : name ∈ c.claims) :
    r.claimant? name = some (d.bindingOf c) := by
  have mine := (codecs_perm built).mem_iff.mpr hc
  cases found : r.codecs.findIdx? fun e => e.claims.contains name with
  | none =>
    have unclaimed := List.findIdx?_eq_none_iff.mp found c mine
    simp [claimed] at unclaimed
  | some i =>
    obtain ⟨hi, theirs, _⟩ := List.findIdx?_eq_some_iff_getElem.mp found
    have same := claimant_unique mine (List.getElem_mem hi) claimed (by simpa using theirs)
    have place := same ▸ List.getElem?_eq_getElem hi
    simp only [claimant?, found, Draft.bindingOf, rank_of_codec built place]
    exact explicitAt_eq place

theorem claimant_eq_none (unclaimed : d.Unclaimed name) : r.claimant? name = none := by
  have missing : (r.codecs.findIdx? fun e => e.claims.contains name) = none := by
    refine List.findIdx?_eq_none_iff.mpr ?_
    intro c hc
    simpa using unclaimed c ((codecs_perm built).mem_iff.mp hc)
  simp only [claimant?, missing]
  rfl

theorem claimant_eq_some_iff :
    r.claimant? name = some b ↔ ∃ c ∈ d.codecs, name ∈ c.claims ∧ b = d.bindingOf c := by
  constructor
  · intro found
    by_cases claimed : ∃ c ∈ d.codecs, name ∈ c.claims
    · obtain ⟨c, hc, mine⟩ := claimed
      rw [claimant_of_mem built hc mine] at found
      exact ⟨c, hc, mine, (Option.some.inj found).symm⟩
    · rw [claimant_eq_none built fun c hc mine => claimed ⟨c, hc, mine⟩] at found
      cases found
  · rintro ⟨c, hc, claimed, rfl⟩
    exact claimant_of_mem built hc claimed

/-- Where construction succeeds the walk comes to its end. -/
theorem exists_index : ∃ x, ClassIndex.allocate d.codecs = .ok x ∧ r.IndexedBy x := by
  have codecs := (Draft.build_entries built).2.1
  obtain ⟨x, allocated⟩ :=
    (ClassIndex.allocate_ok_iff d.codecs).mpr ((Draft.build_ok_iff d).mp ⟨r, built⟩).2
  have holds := ClassIndex.holds_of_allocate allocated
  rw [← codecs] at holds
  refine ⟨x, allocated, ?_, ?_, ?_, ?_⟩
  · intro i
    rw [holds.table, List.getElem?_mapIdx]
    rfl
  · intro name
    have found := (ClassIndex.allocates_of_allocate allocated).claims name
    exact Option.ext fun b => (claimant_eq_some_iff built).trans (found b).symm
  · intro b hb m
    rw [holds.table] at hb
    obtain ⟨i, hi, rfl⟩ := List.mem_mapIdx.mp hb
    exact resolveTag_explicit (place_explicitTag hi) (List.getElem?_eq_getElem hi) m
  · refine List.ext_getElem (by simp [layout, holds.table]) ?_
    simp [layout, holds.table, Codec.name]

end Built

/-- The walk over codecs comes to its end if no class is claimed twice, in whatever order they were
registered, and otherwise stops at a class that is claimed more than once. The tags are the numbers
from 1 on, one more than the codec has smaller names in front of it, and claimed names lead to the
codecs that claim them. If there are tags enough for all entries, construction succeeds or fails
with the walk, and the registry answers by what the walk has found. -/
theorem tags_allocated (d : Draft) :
    ((∃ x, ClassIndex.allocate d.codecs = .ok x) ↔ (d.codecs.flatMap Codec.claims).Nodup) ∧
    (∀ x, ClassIndex.allocate d.codecs = .ok x → x.Allocates d) ∧
    (∀ cls, ClassIndex.allocate d.codecs = .error cls →
      2 ≤ (d.codecs.flatMap Codec.claims).count cls) ∧
    (∀ cs, cs.Perm d.codecs →
      ((∃ x, ClassIndex.allocate cs = .ok x) ↔ ∃ x, ClassIndex.allocate d.codecs = .ok x)) ∧
    (∀ r, d.build = .ok r → ∃ x, ClassIndex.allocate d.codecs = .ok x ∧ r.IndexedBy x) ∧
    (∀ e, d.build = .error e →
      (e = .tooLarge d.size ∧ capacity < d.size) ∨
      ∃ cls, e = .conflictingClaims cls ∧ d.size ≤ capacity ∧
        ClassIndex.allocate d.codecs = .error cls) := by
  refine ⟨ClassIndex.allocate_ok_iff d.codecs, fun x => ClassIndex.allocates_of_allocate,
    fun cls => ClassIndex.two_le_count_of_allocate, ?_, fun r built => exists_index built,
    fun e failed => Draft.build_eq_error failed⟩
  intro cs perm
  rw [ClassIndex.allocate_ok_iff, ClassIndex.allocate_ok_iff,
    (perm.flatMap_right Codec.claims).nodup_iff]

/-- The codec that was registered first comes last in the order of names. -/
example : ((ClassIndex.allocate [⟨1, .shape⟩, ⟨2, .point⟩, ⟨3, .pair⟩]).toOption.map fun x =>
    x.table.map Binding.codecId?) = some [some 3, some 2, some 1] := by
  decide

/-- The codec for shapes claims triangles too. -/
example : ClassIndex.allocate [⟨1, .shape⟩, ⟨2, .token Catalog.triangle [] []⟩] =
    .error "demo.shapes.Triangle" := by
  rfl

end Registry

end TagCodec
