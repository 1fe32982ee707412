import TagCodec.Proofs.Allocation
import TagCodec.Proofs.Lockstep

namespace TagCodec

open Steps

/-- The name under which a class may be listed. A case of an enumeration goes by the name of the
class that declares it, all others go by their own. -/
inductive Class.GoesBy : Class → String → Prop
  | enumCase : GoesBy (.sub own .enumCase s) s.name
  | own (other : c.kind ≠ .enumCase ∨ c.superclass? = none) : GoesBy c c.name

theorem Class.goesBy_iff {c : Class} : c.GoesBy n ↔ n = c.declaring.name := by
  constructor
  · intro goes
    cases goes with
    | enumCase => rfl
    | own other =>
      cases c with
      | root name kind => rfl
      | sub name kind s =>
        cases kind with
        | enumCase => simp [Class.kind, superclass?] at other
        | _ => rfl
  · rintro rfl
    cases c with
    | root name kind => exact .own (.inr rfl)
    | sub name kind s =>
      cases kind with
      | enumCase => exact .enumCase
      | _ => exact .own (.inl nofun)

namespace Draft

/-- No codec of the draft is for the class, nor for any above it. -/
def Free (d : Draft) (c : Class) : Prop := ∀ a ∈ c.ancestry, d.Unclaimed a.name

instance (d : Draft) (c : Class) : Decidable (d.Free c) :=
  inferInstanceAs (Decidable (∀ a ∈ c.ancestry, d.Unclaimed a.name))

/-- What a class is given. As long as a codec is for it or for a class above it, neither the switch
nor the listed names matter. -/
inductive Chooses (d : Draft) (c : Class) : Except LookupError Binding → Prop
  | claimed (chain : c.ancestry = below ++ a :: above) (free : ∀ b ∈ below, d.Unclaimed b.name)
      (codec : e ∈ d.codecs) (claims : a.name ∈ e.claims) : Chooses d c (.ok (d.bindingOf e))
  | disabled (free : d.Free c) (off : d.allowDefault = false) :
      Chooses d c (.error (.fallbackDisabled c.name))
  | notListed (free : d.Free c) (on : d.allowDefault = true) (goes : c.GoesBy n)
      (missing : n ∉ d.names.toList) : Chooses d c (.error (.notListed n))
  | made {t : Tag} (free : d.Free c) (on : d.allowDefault = true) (goes : c.GoesBy n)
      (listed : n ∈ d.names.toList) (format : d.fallback.construct n = .ok f)
      (tag : t.toInt =
        d.codecs.length + d.constants.length + 1 + d.names.toList.countP (· < n)) :
      Chooses d c (.ok ⟨t, f, none⟩)
  | failed (free : d.Free c) (on : d.allowDefault = true) (goes : c.GoesBy n)
      (listed : n ∈ d.names.toList) (reason : d.fallback.construct n = .error x) :
      Chooses d c (.error (.constructionFailed n))

end Draft

namespace Registry

section Built

variable {d : Draft} {r : Registry} (built : d.build = .ok r)

include built

theorem explicitFor_of_claimed {c : Class} (chain : c.ancestry = below ++ a :: above)
    (free : ∀ b ∈ below, d.Unclaimed b.name) (codec : e ∈ d.codecs) (claims : a.name ∈ e.claims) :
    r.explicitFor? c = some (d.bindingOf e) := by
  refine List.findSome?_eq_some_iff.mpr ⟨below, a, above, chain, ?_, ?_⟩
  · exact claimant_of_mem built codec claims
  · intro b hb
    exact claimant_eq_none built (free b hb)

theorem explicitFor_of_free {c : Class} (free : d.Free c) : r.explicitFor? c = none := by
  refine List.findSome?_eq_none_iff.mpr ?_
  intro a ha
  exact claimant_eq_none built (free a ha)

/-- The answer to a class that no codec is for is settled by the name that it goes by. -/
theorem answer_of_free {c : Class} (free : d.Free c) (on : d.allowDefault = true)
    (goes : c.GoesBy n) : r.answer r.fallback.made (.byClass c) =
      match r.names.index? n with
      | some i => r.bindingFor n i (r.fallback.made n)
      | none => .error (.notListed n) := by
  have name := Class.goesBy_iff.mp goes
  subst name
  have allowed := (Draft.build_entries built).1.trans on
  simp only [answer, target, explicitFor_of_free built free, allowed, if_true]
  cases r.names.index? c.declaring.name <;> rfl

/-- Behind the codecs and the constants the listed names have their tags in alphabetical order. -/
theorem fallbackTag_of_toInt {t : Tag} (tag : t.toInt =
      d.codecs.length + d.constants.length + 1 + d.names.toList.countP (· < n)) :
    r.fallbackTag (d.names.toList.countP (· < n)) = t := by
  have codecs := (codecs_perm built).length_eq
  have constants := (Draft.build_entries built).2.2.1
  apply tagAt_of_toInt
  rw [codecs, constants, tag]
  omega

theorem answer_of_chooses {c : Class} (chosen : d.Chooses c x) :
    r.answer r.fallback.made (.byClass c) = x := by
  obtain ⟨allowed, _, _, names, fallback⟩ := Draft.build_entries built
  cases chosen with
  | claimed chain free codec claims =>
    simp only [answer, target, explicitFor_of_claimed built chain free codec claims]
  | disabled free off =>
    simp [answer, target, explicitFor_of_free built free, allowed, off]
  | notListed free on goes missing =>
    have unlisted := List.idxOf?_eq_none_iff.mpr missing
    rw [answer_of_free built free on goes, names, Names.index?, unlisted]
  | made free on goes listed format tag =>
    rw [answer_of_free built free on goes, names,
      Names.index_of_get (Names.getElem?_countP _ listed)]
    simp only [Fallback.made, fallback, format, Except.toOption, bindingFor,
      fallbackTag_of_toInt built tag]
  | failed free on goes listed reason =>
    rw [answer_of_free built free on goes, names,
      Names.index_of_get (Names.getElem?_countP _ listed)]
    simp only [Fallback.made, fallback, reason, Except.toOption, bindingFor]

/-- Whatever a class is, something is chosen for it. -/
theorem exists_choice (c : Class) : ∃ x, d.Chooses c x := by
  obtain ⟨_, _, constants, names, _⟩ := Draft.build_entries built
  have unclaimed {a : Class} (h : r.claimant? a.name = none) : d.Unclaimed a.name := by
    intro e codec claims
    rw [claimant_of_mem built codec claims] at h
    cases h
  cases found : r.explicitFor? c with
  | some b =>
    obtain ⟨below, a, above, chain, claimed, before⟩ := List.findSome?_eq_some_iff.mp found
    obtain ⟨e, codec, claims, _⟩ := (claimant_eq_some_iff built).mp claimed
    exact ⟨_, .claimed chain (fun b hb => unclaimed (before b hb)) codec claims⟩
  | none =>
    have free : d.Free c := fun a ha => unclaimed (List.findSome?_eq_none_iff.mp found a ha)
    cases on : d.allowDefault with
    | false => exact ⟨_, .disabled free on⟩
    | true =>
      obtain ⟨n, goes⟩ : ∃ n, c.GoesBy n := ⟨_, Class.goesBy_iff.mpr rfl⟩
      by_cases listed : n ∈ d.names.toList
      · cases construct : d.fallback.construct n with
        | error reason => exact ⟨_, .failed free on goes listed construct⟩
        | ok f =>
          have place := Names.getElem?_countP d.names listed
          have inside : d.names.toList.countP (· < n) < r.names.size :=
            names ▸ (List.getElem?_eq_some_iff.mp place).1
          have tag := toInt_fallbackTag inside
          rw [(codecs_perm built).length_eq, constants] at tag
          exact ⟨_, .made free on goes listed construct (by rw [tag]; omega)⟩
      · exact ⟨_, .notListed free on goes listed⟩

/-- A class is given what the draft chooses for it, whatever was looked up before. -/
theorem result_resolve_iff (reached : r.Leads r.start m) (c : Class) :
    result (r.resolve c) m = x ↔ d.Chooses c x := by
  rw [reached.result_resolve]
  constructor
  · intro answered
    obtain ⟨y, chosen⟩ := exists_choice built c
    have same := answer_of_chooses built chosen
    rw [← answered, same]
    exact chosen
  · intro chosen
    exact answer_of_chooses built chosen

/-- Classes that no codec is for are told apart by the name that they go by, and by nothing else. -/
theorem result_resolve_of_goesBy {c e : Class} (reached : r.Leads r.start m)
    (on : d.allowDefault = true) (free : d.Free c) (free' : d.Free e)
    (goes : c.GoesBy n) (goes' : e.GoesBy n) :
    result (r.resolve c) m = result (r.resolve e) m := by
  rw [reached.result_resolve, reached.result_resolve, answer_of_free built free on goes,
    answer_of_free built free' on goes']

/-- What a class extends does not matter, if the class is not a single case and no codec is for
what it extends. -/
theorem result_resolve_sub (reached : r.Leads r.start m) (other : kind ≠ .enumCase) {s : Class}
    (free : d.Free (.sub own kind s)) :
    result (r.resolve (.sub own kind s)) m = result (r.resolve (.root own kind)) m := by
  have free' : d.Free (.root own kind) := by
    intro a ha
    rw [List.mem_singleton.mp ha]
    exact free (.sub own kind s) List.mem_cons_self
  cases on : d.allowDefault with
  | true =>
    have goes := Class.GoesBy.own (c := .sub own kind s) (.inl other)
    exact result_resolve_of_goesBy built reached on free free' goes (.own (.inl other))
  | false =>
    refine (result_resolve_iff built reached _).mpr ?_
    have refused := (result_resolve_iff built reached (.root own kind)).mpr (.disabled free' on)
    rw [refused]
    exact .disabled free on

end Built

/-- The nearest class of the chain that a codec claims decides, whatever the switch and the listed
names say. If there is none, the fallback decides by the name that the class goes by. So a case of
an enumeration is given what the class that declares it is given, and nothing else that a class
extends gets a codec for it. -/
theorem nearest_claim_decides {d : Draft} {r : Registry} (built : d.build = .ok r) {m : Memo}
    (reached : r.Leads r.start m) :
    (∀ c x, result (r.resolve c) m = x ↔ d.Chooses c x) ∧
    (∀ c e n, d.allowDefault = true → d.Free c → d.Free e → c.GoesBy n → e.GoesBy n →
      result (r.resolve c) m = result (r.resolve e) m) ∧
    (∀ own s e, s.kind = .enumeration e → d.allowDefault = true → d.Free (.enumCase own s) →
      result (r.resolve (.enumCase own s)) m = result (r.resolve s) m) ∧
    (∀ own kind s, kind ≠ .enumCase → d.Free (.sub own kind s) →
      result (r.resolve (.sub own kind s)) m = result (r.resolve (.root own kind)) m) := by
  refine ⟨fun c x => result_resolve_iff built reached c, ?_, ?_, ?_⟩
  · intro c e n on free free' goes goes'
    exact result_resolve_of_goesBy built reached on free free' goes goes'
  · intro own s e kind on free
    have above : d.Free s := fun a ha => free a (List.mem_cons_of_mem _ ha)
    have declares : s.kind ≠ .enumCase := by simp [kind]
    exact result_resolve_of_goesBy built reached on free above .enumCase (.own (.inl declares))
  · intro own kind s other free
    exact result_resolve_sub built reached other free

/-- One codec, for shapes, and one listed name. -/
def shapesAndStatus : Draft :=
  ((Draft.empty.addCodec ⟨1, .shape⟩).addName "demo.Status").withResolver
    (.ofClassPath Catalog.classPath)

/-- Two steps below the class that the codec is made for. -/
def oval : Class := (Class.plain "demo.shapes.Oval").extending Catalog.circle

/-- Below a listed class, but no case of it. -/
def mood : Class := (Class.plain "demo.Mood").extending Catalog.status

theorem choices_below_shape_and_status :
    ∃ r, shapesAndStatus.build = .ok r ∧
      result (r.resolve oval) r.start = .ok ⟨⟨1⟩, .shape, some 1⟩ ∧
      result (r.resolve Catalog.special) r.start =
        .ok ⟨⟨2⟩, .ordinal Catalog.status .status, none⟩ ∧
      result (r.resolve Catalog.status) r.start = result (r.resolve Catalog.special) r.start ∧
      result (r.resolve mood) r.start = .error (.notListed "demo.Mood") := by
  obtain ⟨r, built⟩ : ∃ r, shapesAndStatus.build = .ok r := ⟨_, rfl⟩
  obtain ⟨chosen, _, ofCase, _⟩ := nearest_claim_decides built .start
  refine ⟨r, built, (chosen oval _).mpr ?_, (chosen Catalog.special _).mpr ?_, ?_,
    (chosen mood _).mpr ?_⟩
  · have chain : oval.ancestry = [oval, Catalog.circle] ++ Catalog.shape :: [] := rfl
    exact .claimed chain (by decide) (e := ⟨1, .shape⟩) (by decide) (by decide)
  · exact .made (by decide) rfl .enumCase (by decide) rfl (by decide)
  · exact (ofCase _ _ _ rfl rfl (by decide)).symm
  · exact .notListed (by decide) rfl (.own (.inl nofun)) (by decide)

end Registry

end TagCodec
