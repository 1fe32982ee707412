import TagCodec.CommandLine
import TagCodec.Proofs.Assembly
import TagCodec.Proofs.Listing
import TagCodec.Proofs.Reencoding

namespace TagCodec.CommandLine

open Registry

/-- What the registry of a configuration consists of. -/
structure Configures (c : Config) (r : Registry) : Prop where
  allowed : r.allowDefault = c.allowDefault
  codecs : r.codecs = [⟨0, .point⟩]
  constants : r.constants = [origin]
  names : r.names = .ofList c.fallbackClasses
  fallback : r.fallback = ⟨.ofClassPath (.ofList [Catalog.circle, Catalog.swatch]), .standard⟩

/-- Nothing that a registry is made from fails, and the configuration adds to a fixed draft. -/
theorem registry_eq (c : Config) : ∃ d : Draft, registry c = d.build ∧
    d.allowDefault = c.allowDefault ∧ d.codecs = [⟨0, .point⟩] ∧ d.constants = [origin] ∧
    d.names = .ofList c.fallbackClasses ∧
    d.fallback = ⟨.ofClassPath (.ofList [Catalog.circle, Catalog.swatch]), .standard⟩ := by
  obtain ⟨d, drafted, codecs, constants, names, fallback⟩ : ∃ d : Draft,
      registry c = (d.withConfig c).build ∧ d.codecs = [⟨0, .point⟩] ∧ d.constants = [origin] ∧
      d.names = .empty ∧
      d.fallback = ⟨.ofClassPath (.ofList [Catalog.circle, Catalog.swatch]), .standard⟩ :=
    ⟨_, rfl, rfl, rfl, rfl, rfl⟩
  refine ⟨d.withConfig c, drafted, rfl, ?_⟩
  rw [Draft.withConfig, Draft.foldl_addName, names]
  exact ⟨codecs, constants, rfl, fallback⟩

theorem registry_ok_iff (c : Config) :
    (∃ r, registry c = .ok r) ↔ (Names.ofList c.fallbackClasses).size + 2 ≤ capacity := by
  obtain ⟨d, drafted, _, codecs, constants, names, _⟩ := registry_eq c
  have claims : (d.codecs.flatMap Codec.claims).Nodup := by
    rw [codecs]
    decide
  rw [drafted, Draft.build_ok_iff, and_iff_left claims, Draft.size, codecs, constants, names,
    List.length_singleton, List.length_singleton, Nat.add_comm]

theorem configures_of_ok (built : registry c = .ok r) : Configures c r := by
  obtain ⟨d, drafted, allowed, codecs, constants, names, fallback⟩ := registry_eq c
  obtain ⟨allowed', codecs', constants', names', fallback'⟩ :=
    Draft.build_entries (drafted.symm.trans built)
  constructor
  · rw [allowed', allowed]
  · rw [codecs', codecs]
    rfl
  · rw [constants', constants]
  · rw [names', names]
  · rw [fallback', fallback]

/-- Points come first, then the origin, then the names in order, if they count at all. -/
def sampleLayout (allowed : Bool) (names : List String) : Layout where
  allowDefault := allowed
  explicit := [⟨⟨1⟩, Catalog.point.name⟩]
  constants := [⟨⟨2⟩, Catalog.point.name⟩]
  fallback := if allowed then names.mapIdx fun i name => ⟨.ofInt (i + 3), name⟩ else []

namespace Configures

variable {c : Config} {r : Registry} (h : Configures c r)

include h

theorem fallbackTag_eq (i : Nat) : r.fallbackTag i = .ofInt (i + 3) := by
  have first : Tag.first.toInt = 1 := rfl
  rw [fallbackTag, tagAt, Tag.offset, h.codecs, h.constants, first]
  congr 1
  simp only [List.length_singleton]
  omega

theorem constantTag_zero : r.constantTag 0 = ⟨2⟩ := by
  rw [Registry.constantTag, h.codecs]
  rfl

theorem layout_eq : r.layout = sampleLayout c.allowDefault r.names.toList := by
  simp only [Registry.layout, sampleLayout, h.allowed, h.codecs, h.constants, h.fallbackTag_eq,
    List.mapIdx_cons, List.mapIdx_nil, h.constantTag_zero]
  rfl

theorem constantTag_origin : r.constantTag? origin = some ⟨2⟩ := by
  have listed : r.constants[0]? = some origin := by
    rw [h.constants]
    rfl
  rw [constantTag_of_listed listed, h.constantTag_zero]

theorem constantTag_other {v : Value} (other : v.identity? ≠ origin.identity?) :
    r.constantTag? v = none := by
  simp only [constantTag?, h.constants, Option.map_eq_none_iff, List.findIdx?_eq_none_iff,
    List.mem_singleton, forall_eq]
  exact beq_false_of_ne other.symm

/-- The one codec is for points, and no other class is claimed. -/
theorem explicitFor_point : r.explicitFor? Catalog.point = some ⟨⟨1⟩, .point, some 0⟩ := by
  have codec : r.codecs[0]? = some ⟨0, .point⟩ := by
    rw [h.codecs]
    rfl
  have first : r.codecs.findIdx? (fun c => c.claims.contains Catalog.point.name) = some 0 := by
    rw [h.codecs]
    rfl
  have claimed : r.claimant? Catalog.point.name = some ⟨⟨1⟩, .point, some 0⟩ := by
    rw [claimant?, first]
    exact explicitAt_eq codec
  have alone : Catalog.point.ancestry = [Catalog.point] := rfl
  rw [explicitFor?, alone, List.findSome?_cons, claimed]

theorem explicitFor_other {cls : Class}
    (other : ∀ a ∈ cls.ancestry, a.name ≠ Catalog.point.name) : r.explicitFor? cls = none := by
  apply List.findSome?_eq_none_iff.mpr
  intro a ha
  have free : r.codecs.findIdx? (fun c => c.claims.contains a.name) = none := by
    rw [h.codecs, List.findIdx?_eq_none_iff]
    intro k hk
    cases List.mem_singleton.mp hk
    simpa [Codec.claims, Format.claims, Format.primary, Format.additional] using other a ha
  rw [claimant?, free]
  rfl

/-- Both sample classes are found, and a format is made for each. -/
theorem made_circle :
    r.fallback.made Catalog.circle.name = some (.fields Catalog.circle .circle) := by
  rw [h.fallback]
  rfl

theorem made_swatch :
    r.fallback.made Catalog.swatch.name = some (.ordinal Catalog.swatch .swatch) := by
  rw [h.fallback]
  rfl

/-- What such a registry has written it can be expected to read. -/
theorem peers : r.Peers r := by
  have known : ∀ f ∈ r.codecs.map Codec.format, f.isToken = false := by
    rw [h.codecs]
    decide
  have standard : r.fallback.factory = .standard := by rw [h.fallback]
  exact ⟨rfl, known, rfl, rfl, rfl, standard, rfl⟩

end Configures

end TagCodec.CommandLine
