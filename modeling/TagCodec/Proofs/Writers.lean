import TagCodec.Proofs.Objects
import TagCodec.Proofs.Writing

namespace TagCodec

open Steps

/-- The formats that belong to classes of the catalog. -/
def Format.ordinary : List Format := [.point, .label, .shape, .pair]

/-- Ordinary codecs, and the usual ones on demand. Constants and listed names are free. -/
structure Draft.Ordinary (d : Draft) : Prop where
  formats : ∀ c ∈ d.codecs, c.format ∈ Format.ordinary
  fallback : d.fallback = ⟨.ofClassPath Catalog.classPath, .standard⟩

theorem Draft.Ordinary.build {d : Draft} (h : d.Ordinary) {r : Registry} (built : d.build = .ok r) :
    r.Ordinary := by
  rw [Draft.build_eq_ok built]
  exact ⟨fun c hc => h.formats c ((Codec.sortByName_perm d.codecs).mem_iff.mp hc), h.fallback⟩

/-- Contents whose class is one of the catalog and cannot be chosen for them. -/
def Leaf.InCatalog : Leaf → Prop
  | .token _ _ => False
  | .member .swatch _ => False
  | _ => True

namespace Catalog

/-- The formats made on demand, by the names that they are made for. -/
inductive Builds : String → Format → Prop
  | record (t : RecordType) (known : t ≠ .triangle) : Builds (record t).name (.fields (record t) t)
  | enumeration (e : Enumeration) (known : e ≠ .swatch) :
      Builds (enumeration e).name (.ordinal (enumeration e) e)

theorem builds_of_construct
    (h : (Fallback.mk (.ofClassPath classPath) .standard).construct name = .ok f) :
    Builds name f := by
  have classes : classPath.classes = [status, color, shape, square, circle] := by decide
  unfold Fallback.construct Fallback.attempt Resolver.ofClassPath ClassPath.resolve ClassPath.get?
    at h
  rw [classes] at h
  cases found : [status, color, shape, square, circle].find? (fun c => c.name == name) with
  | none =>
    simp only [found] at h
    cases h
  | some c =>
    simp only [found] at h
    have same : c.name = name := by simpa using List.find?_some found
    have listed := List.mem_of_find?_eq_some found
    subst same
    simp only [List.mem_cons, List.not_mem_nil, or_false] at listed
    rcases listed with rfl | rfl | rfl | rfl | rfl
    · cases h
      exact .enumeration .status (by decide)
    · cases h
      exact .enumeration .color (by decide)
    · cases h
    · cases h
      exact .record .square (by decide)
    · cases h
      exact .record .circle (by decide)

theorem Builds.declaring (h : Builds name f) (given : f.Gives x) :
    x.cls.declaring.name = name := by
  cases h with
  | record t known =>
    cases given
    cases ‹Record› <;> rfl
  | enumeration e known =>
    cases given with
    | ordinal cls e i =>
      cases e with
      | swatch => exact absurd rfl known
      | _ =>
        revert i
        decide

theorem Builds.inCatalog (h : Builds name f) (given : f.Gives x) : x.InCatalog := by
  cases h with
  | record t known =>
    cases given
    trivial
  | enumeration e known =>
    cases given
    cases e with
    | swatch => exact absurd rfl known
    | _ => trivial

theorem declaring_member (e : Enumeration) (i : Fin e.cases.length) :
    (Leaf.member e i).cls.declaring.name = (enumeration e).name := by
  cases e <;> revert i <;> decide

theorem record_ne_enumeration (t : RecordType) (e : Enumeration) :
    (record t).declaring.name ≠ (enumeration e).name := by
  cases t <;> cases e <;> decide

theorem ne_record (t : RecordType) :
    ∀ c ∈ [point, holder, label], c.declaring.name ≠ (record t).name := by
  cases t <;> decide

theorem ne_enumeration (e : Enumeration) :
    ∀ c ∈ [point, holder, label], c.declaring.name ≠ (enumeration e).name := by
  cases e <;> decide

theorem Builds.fits (h : Builds name f) (known : x.InCatalog)
    (named : x.cls.declaring.name = name) : ∃ items, f.Fits x items := by
  cases h with
  | record t _ =>
    cases x with
    | record r =>
      have same : r.type = t := by
        revert named
        change (Catalog.record r.type).declaring.name = (Catalog.record t).name → _
        cases r.type <;> cases t <;> decide
      exact same ▸ ⟨_, .fields _ r⟩
    | member e i =>
      rw [declaring_member] at named
      cases e <;> cases t <;> exact absurd named (by decide)
    | token cls id => cases known
    | point _ => exact absurd named (ne_record t _ (.head _))
    | holder _ => exact absurd named (ne_record t _ (.tail _ (.head _)))
    | label _ => exact absurd named (ne_record t _ (.tail _ (.tail _ (.head _))))
  | enumeration e _ =>
    cases x with
    | record r => exact absurd named (record_ne_enumeration r.type e)
    | member e' i =>
      rw [declaring_member] at named
      have same : e = e' := by
        cases e' with
        | swatch => cases known
        | _ => cases e <;> first | rfl | contradiction
      subst same
      exact ⟨_, .ordinal _ _ i⟩
    | token cls id => cases known
    | point _ => exact absurd named (ne_enumeration e _ (.head _))
    | holder _ => exact absurd named (ne_enumeration e _ (.tail _ (.head _)))
    | label _ => exact absurd named (ne_enumeration e _ (.tail _ (.tail _ (.head _))))

theorem Builds.not_pair (h : Builds name f) : name ≠ pair.name := by
  cases h with
  | record t _ => cases t <;> decide
  | enumeration e _ => cases e <;> decide

end Catalog

namespace Format

/-- The format is responsible for the class or for one above it. -/
def claimsAbove (f : Format) (c : Class) : Bool :=
  c.ancestry.any fun a => f.claims.contains a.name

theorem pair_of_claim : ∀ f ∈ ordinary, f.claimsAbove Catalog.pair = true → f = .pair := by
  decide

theorem shape_of_claim (t : RecordType) :
    ∀ f ∈ ordinary, f.claimsAbove (Catalog.record t) = true → f = .shape := by
  cases t <;> decide

theorem member_unclaimed (e : Enumeration) (i : Fin e.cases.length) :
    ∀ f ∈ ordinary, f.claimsAbove (Leaf.member e i).cls = false := by
  cases e <;> revert i <;> decide

theorem claims_of_gives {f : Format} (hf : f ∈ ordinary) (given : f.Gives x) :
    f.claimsAbove x.cls = true := by
  cases given with
  | @shape bs r parsed =>
    change shape.claimsAbove (Catalog.record r.type) = true
    cases r.type <;> decide
  | point p =>
    change point.claimsAbove Catalog.point = true
    decide
  | @label s short =>
    change label.claimsAbove Catalog.label = true
    decide
  | _ => simp [ordinary] at hf

theorem inCatalog_of_gives {f : Format} (hf : f ∈ ordinary) (given : f.Gives x) :
    x.InCatalog := by
  cases given with
  | ordinal cls e i => simp [ordinary] at hf
  | token cls extra known id => simp [ordinary] at hf
  | _ => trivial

/-- A class of the catalog that an ordinary format claims has no other contents than that format
can write. -/
theorem fits_of_claim {g : Format} (known : x.InCatalog) (hg : g ∈ ordinary)
    (claims : g.claimsAbove x.cls = true) : ∃ items, g.Fits x items := by
  cases x with
  | point p =>
    have same : ∀ f ∈ ordinary, f.claimsAbove Catalog.point = true → f = .point := by decide
    exact same g hg claims ▸ ⟨_, .point p⟩
  | holder p =>
    have unclaimed : ∀ f ∈ ordinary, f.claimsAbove Catalog.holder = false := by decide
    exact absurd ((unclaimed g hg).symm.trans claims) Bool.false_ne_true
  | label s =>
    have same : ∀ f ∈ ordinary, f.claimsAbove Catalog.label = true → f = .label := by decide
    exact same g hg claims ▸ ⟨_, .label s⟩
  | record r => exact shape_of_claim r.type g hg claims ▸ ⟨_, .shape r⟩
  | member e i =>
    rw [member_unclaimed e i g hg] at claims
    cases claims
  | token cls id => cases known

end Format

namespace Registry

variable {r : Registry}

theorem explicitFor_of_claim {c : Codec} {cls : Class} (hc : c ∈ r.codecs)
    (claims : c.format.claimsAbove cls = true) : ∃ b, r.explicitFor? cls = some b := by
  obtain ⟨a, ha, mine⟩ := List.any_eq_true.mp claims
  apply Option.isSome_iff_exists.mp
  apply List.findSome?_isSome_iff.mpr
  refine ⟨a, ha, ?_⟩
  cases found : r.codecs.findIdx? (fun c => c.claims.contains a.name) with
  | none =>
    have other := List.findIdx?_eq_none_iff.mp found c hc
    exact absurd mine (by rw [← Codec.claims, other]; exact Bool.false_ne_true)
  | some i =>
    obtain ⟨inside, _⟩ := List.findIdx?_eq_some_iff_getElem.mp found
    rw [claimant?, found]
    simp [explicitAt?, List.getElem?_eq_getElem inside]

theorem claim_of_explicitFor {cls : Class} (h : r.explicitFor? cls = some b) :
    ∃ c ∈ r.codecs, b.format = c.format ∧ c.format.claimsAbove cls = true := by
  obtain ⟨a, ha, found⟩ := List.exists_of_findSome?_eq_some h
  obtain ⟨i, hi, bound⟩ := Option.bind_eq_some_iff.mp found
  obtain ⟨c, hc, same⟩ := Option.map_eq_some_iff.mp bound
  obtain ⟨inside, claims, _⟩ := List.findIdx?_eq_some_iff_getElem.mp hi
  obtain ⟨_, rfl⟩ := List.getElem?_eq_some_iff.mp hc
  exact ⟨_, List.getElem_mem inside, same ▸ rfl, List.any_eq_true.mpr ⟨a, ha, claims⟩⟩

theorem answer_of_explicit {cls : Class} (h : r.explicitFor? cls = some b)
    (made : String → Option Format) : r.answer made (.byClass cls) = .ok b := by
  simp only [answer, target, h]

theorem offers_of_registered (h : r.target q = .registered b) : r.Offers b.tag b.format := by
  cases q with
  | byClass c =>
    cases found : r.explicitFor? c with
    | some e =>
      simp only [target, found] at h
      cases h
      obtain ⟨i, codec, hc, rfl⟩ := explicitFor_eq_some found
      exact .explicit hc
    | none =>
      simp only [target, found] at h
      repeat' split at h
      all_goals cases h
  | byTag t =>
    cases place : r.place t with
    | explicit i =>
      simp only [target, place, explicitAt?] at h
      cases codec : r.codecs[i]? <;> rw [codec] at h <;> cases h
      exact .explicit codec
    | fallback i =>
      simp only [target, place] at h
      cases listed : r.names.get? i <;> rw [listed] at h <;> cases h
    | _ =>
      simp only [target, place] at h
      cases h

theorem offers_of_answer (h : r.answer r.fallback.made q = .ok b) : r.Offers b.tag b.format := by
  cases aims : r.target q with
  | registered e =>
    simp only [answer, aims] at h
    cases h
    exact offers_of_registered aims
  | listed name i =>
    obtain ⟨allowed, listed, _⟩ := listed_of_target aims
    simp only [answer, aims, Fallback.made] at h
    cases made : r.fallback.construct name <;> rw [made] at h <;> cases h
    exact .fallback allowed listed made
  | refused e =>
    simp only [answer, aims] at h
    cases h

section

variable (ordinary : r.Ordinary)

include ordinary

/-- On demand codecs are made for the listed classes of the catalog only. -/
theorem offers_cases (offers : r.Offers t f) :
    (∃ c ∈ r.codecs, c.format = f) ∨
      ∃ (i : Nat) (name : String), r.allowDefault = true ∧ r.names.toList[i]? = some name ∧
        r.fallback.construct name = .ok f ∧ Catalog.Builds name f := by
  cases offers with
  | explicit codec => exact .inl ⟨_, List.mem_of_getElem? codec, rfl⟩
  | fallback allowed listed made =>
    have builds := made
    rw [ordinary.fallback] at builds
    exact .inr ⟨_, _, allowed, listed, made, Catalog.builds_of_construct builds⟩

/-- A class is given an ordinary format that claims it, or one that was made for its name. -/
theorem format_of_answer (answered : r.answer r.fallback.made (.byClass cls) = .ok b) :
    (b.format ∈ Format.ordinary ∧ b.format.claimsAbove cls = true) ∨
      Catalog.Builds cls.declaring.name b.format := by
  cases aims : r.target (.byClass cls) with
  | registered e =>
    left
    simp only [answer, aims] at answered
    cases answered
    cases explicit : r.explicitFor? cls with
    | some e' =>
      simp only [target, explicit] at aims
      cases aims
      obtain ⟨c, hc, same, claims⟩ := claim_of_explicitFor explicit
      rw [same]
      exact ⟨ordinary.formats c hc, claims⟩
    | none =>
      simp only [target, explicit] at aims
      repeat' split at aims
      all_goals cases aims
  | listed name i =>
    right
    obtain ⟨_, _, _, rfl⟩ := listed_of_target aims
    simp only [answer, aims, Fallback.made] at answered
    cases made : r.fallback.construct cls.declaring.name with
    | error e =>
      rw [made] at answered
      cases answered
    | ok f =>
      rw [made] at answered
      cases answered
      rw [ordinary.fallback] at made
      exact Catalog.builds_of_construct made
  | refused e =>
    simp only [answer, aims] at answered
    cases answered

theorem fits_of_answer (known : x.InCatalog)
    (answered : r.answer r.fallback.made (.byClass x.cls) = .ok b) :
    ∃ items, b.format.Fits x items := by
  rcases format_of_answer ordinary answered with ⟨member, claims⟩ | builds
  · exact Format.fits_of_claim known member claims
  · exact builds.fits known rfl

theorem writer_of_content (offers : r.Offers t f) (given : f.Gives x) :
    ∃ b items, r.answer r.fallback.made (.byClass x.cls) = .ok b ∧ b.format.Fits x items := by
  obtain ⟨known, b, answered⟩ : x.InCatalog ∧
      ∃ b, r.answer r.fallback.made (.byClass x.cls) = .ok b := by
    rcases offers_cases ordinary offers with
      ⟨c, hc, rfl⟩ | ⟨i, name, allowed, listed, made, builds⟩
    · have claims := Format.claims_of_gives (ordinary.formats c hc) given
      obtain ⟨b, found⟩ := explicitFor_of_claim hc claims
      exact ⟨Format.inCatalog_of_gives (ordinary.formats c hc) given, b,
        answer_of_explicit found _⟩
    · refine ⟨builds.inCatalog given, ?_⟩
      cases explicit : r.explicitFor? x.cls with
      | some b => exact ⟨b, answer_of_explicit explicit _⟩
      | none =>
        have aims := target_of_wants allowed listed (q := .byClass x.cls)
          ⟨explicit, builds.declaring given⟩
        refine ⟨⟨r.fallbackTag i, f, none⟩, ?_⟩
        simp only [answer, aims, Fallback.made, made]
        rfl
  obtain ⟨items, fits⟩ := fits_of_answer ordinary known answered
  exact ⟨b, items, answered, fits⟩

theorem pair_of_answer (answered : r.answer r.fallback.made (.byClass Catalog.pair) = .ok b) :
    b.format = .pair := by
  rcases format_of_answer ordinary answered with ⟨member, claims⟩ | builds
  · exact Format.pair_of_claim _ member claims
  · exact absurd rfl builds.not_pair

theorem writer_of_pair (offers : r.Offers t .pair) :
    ∃ b, r.answer r.fallback.made (.byClass Catalog.pair) = .ok b ∧ b.format = .pair := by
  rcases offers_cases ordinary offers with ⟨c, hc, pair⟩ | ⟨_, _, _, _, _, builds⟩
  · have claims : c.format.claimsAbove Catalog.pair = true := by
      rw [pair]
      decide
    obtain ⟨b, found⟩ := explicitFor_of_claim hc claims
    obtain ⟨d, hd, same, claims⟩ := claim_of_explicitFor found
    have format := Format.pair_of_claim _ (ordinary.formats d hd) claims
    exact ⟨b, answer_of_explicit found _, same.trans format⟩
  · cases builds

end

end Registry

end TagCodec
