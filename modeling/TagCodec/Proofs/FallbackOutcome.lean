import TagCodec.Proofs.Lockstep
import TagCodec.Proofs.SingleConstruction

namespace TagCodec

open Steps

namespace ClassPath

/-- The last class of this name. -/
def LastNamed (cs : List Class) (name : String) (c : Class) : Prop :=
  ∃ before after, cs = before ++ c :: after ∧ c.name = name ∧ ∀ a ∈ after, a.name ≠ name

/-- A class stands in for the one that had its name, and leaves all others where they are. -/
theorem get_insert (p : ClassPath) (c : Class) (name : String) :
    (p.insert c).get? name = if c.name = name then some c else p.get? name := by
  by_cases mine : c.name = name
  · rw [if_pos mine]
    exact List.find?_cons_of_pos (beq_iff_eq.mpr mine)
  · rw [if_neg mine]
    refine (List.find?_cons_of_neg (by simpa using mine)).trans ?_
    rw [List.find?_filter, get?]
    congr 1
    funext d
    by_cases theirs : d.name = name
    · have other : d.sameName c = false := by
        rw [Class.sameName, beq_eq_false_iff_ne, theirs]
        exact Ne.symm mine
      simp [theirs, other]
    · simp [theirs]

theorem get_foldl_insert (p : ClassPath) (cs : List Class) (name : String) :
    (cs.foldl insert p).get? name =
      (cs.reverse.find? fun c => c.name == name).or (p.get? name) := by
  induction cs generalizing p with
  | nil => rfl
  | cons c cs ih =>
    rw [List.foldl_cons, ih, get_insert, List.reverse_cons, List.find?_append, Option.or_assoc]
    congr 1
    by_cases mine : c.name = name <;> simp [mine]

theorem get_ofList (cs : List Class) (name : String) :
    (ofList cs).get? name = cs.reverse.find? fun c => c.name == name :=
  (get_foldl_insert empty cs name).trans (Option.or_none)

theorem get_eq_some_iff {cs : List Class} :
    (ofList cs).get? name = some c ↔ LastNamed cs name c := by
  rw [get_ofList, List.find?_eq_some_iff_append, LastNamed]
  constructor
  · rintro ⟨mine, after, before, split, others⟩
    refine ⟨before.reverse, after.reverse, ?_, eq_of_beq mine, fun a ha => ?_⟩
    · rw [← List.reverse_reverse cs, split]
      simp
    · simpa using others a (List.mem_reverse.mp ha)
  · rintro ⟨before, after, rfl, mine, others⟩
    refine ⟨beq_iff_eq.mpr mine, after.reverse, before.reverse, by simp, fun a ha => ?_⟩
    simpa using others a (List.mem_reverse.mp ha)

theorem get_eq_none_iff {cs : List Class} :
    (ofList cs).get? name = none ↔ ∀ c ∈ cs, c.name ≠ name := by
  rw [get_ofList, List.find?_eq_none]
  simp

theorem LastNamed.unique {cs : List Class} (h : LastNamed cs name c) (g : LastNamed cs name c') :
    c = c' :=
  Option.some.inj ((get_eq_some_iff.mpr h).symm.trans (get_eq_some_iff.mpr g))

theorem LastNamed.name_eq {cs : List Class} (h : LastNamed cs name c) : c.name = name := by
  obtain ⟨_, _, _, named, _⟩ := h
  exact named

theorem LastNamed.mem {cs : List Class} (h : LastNamed cs name c) : c ∈ cs := by
  obtain ⟨_, _, rfl, _⟩ := h
  simp

end ClassPath

namespace Fallback

open ClassPath

/-- Classes from a class path, formats from the standard factory. -/
def ofClasses (cs : List Class) : Fallback := ⟨.ofClassPath (.ofList cs), .standard⟩

/-- What the classes registered make of a name. -/
inductive Yields (cs : List Class) (name : String) : Except ConstructionError Format → Prop
  | enumeration (last : LastNamed cs name c) (kind : c.kind = .enumeration e) :
      Yields cs name (.ok (.ordinal c e))
  | record (last : LastNamed cs name c) (kind : c.kind = .plain (some t)) :
      Yields cs name (.ok (.fields c t))
  | noRecord (last : LastNamed cs name c) (kind : c.kind = .plain .none) :
      Yields cs name (.error (.noFields name))
  | enumCase (last : LastNamed cs name c) (kind : c.kind = .enumCase) :
      Yields cs name (.error (.noFields name))
  | missing (absent : ∀ c ∈ cs, c.name ≠ name) : Yields cs name (.error (.classNotFound name))

theorem yields_construct (cs : List Class) (name : String) :
    Yields cs name ((ofClasses cs).construct name) := by
  cases found : (ClassPath.ofList cs).get? name with
  | none =>
    have missing : (ofClasses cs).construct name = .error (.classNotFound name) :=
      construct_of_missing (by simp only [ofClasses, Resolver.ofClassPath, resolve, found])
    rw [missing]
    exact .missing (get_eq_none_iff.mp found)
  | some c =>
    have last := get_eq_some_iff.mp found
    have named := last.name_eq
    have made : (ofClasses cs).construct name = Factory.standard.make c :=
      construct_of_found (by simp only [ofClasses, Resolver.ofClassPath, resolve, found])
    rw [made, Factory.make_eq]
    cases kind : c.kind with
    | enumeration e =>
      simp only [Class.enumeration?, kind, Factory.standard, Format.ordinalOf]
      exact .enumeration last kind
    | plain t? =>
      simp only [Class.enumeration?, kind, Factory.standard, Format.fieldsOf, Class.record?]
      cases t? with
      | some t => exact .record last kind
      | none => exact named ▸ .noRecord (named ▸ last) kind
    | enumCase =>
      simp only [Class.enumeration?, kind, Factory.standard, Format.fieldsOf, Class.record?]
      exact named ▸ .enumCase (named ▸ last) kind

theorem Yields.unique {cs : List Class} (h : Yields cs name x) (g : Yields cs name y) : x = y := by
  cases h with
  | missing absent =>
    cases g with
    | missing _ => rfl
    | _ last => exact absurd last.name_eq (absent _ last.mem)
  | _ last kind =>
    cases g with
    | missing absent => exact absurd last.name_eq (absent _ last.mem)
    | _ last' kind' =>
      cases last.unique last'
      cases kind.symm.trans kind' <;> rfl

/-- A format is made for the last class of the name itself, as an enumeration if it declares one. -/
theorem Yields.of_ok {cs : List Class} (h : Yields cs name (.ok f)) : ∃ c, LastNamed cs name c ∧
    f.primary = c ∧ ((∃ e, c.kind = .enumeration e) ∨ ∃ t, c.kind = .plain (some t)) ∧
    ((∃ e, f = .ordinal c e) ↔ ∃ e, c.kind = .enumeration e) := by
  cases h with
  | @enumeration c e last kind =>
    exact ⟨c, last, rfl, .inl ⟨e, kind⟩, fun _ => ⟨e, kind⟩, fun _ => ⟨e, rfl⟩⟩
  | @record c t last kind =>
    refine ⟨c, last, rfl, .inr ⟨t, kind⟩, nofun, fun ⟨e, other⟩ => ?_⟩
    rw [kind] at other
    cases other

theorem failed_mem_eventsOf {b : Fallback} (h : b.construct name = .error e) (t : Tag) :
    .failed name t e ∈ b.eventsOf name t := by
  change _ ∈ (b.attempt name).2 ++ [.outcome name t (b.construct name)]
  rw [h]
  exact List.mem_append_right _ (List.mem_singleton_self _)

end Fallback

namespace Registry

open ClassPath

variable {r : Registry} {m : Memo}

/-- No attempt was made for a listed name so far, or one under its tag. -/
theorem untouched_or_tried (listed : r.names.toList[i]? = some name) (reached : r.Leads r.start m) :
    m.Untouched name ∨ m.Tried r.fallback name (r.fallbackTag i) := by
  have step {n : Memo} (q : Query)
      (before : n.Untouched name ∨ n.Tried r.fallback name (r.fallbackTag i)) :
      (after (r.ask q) n).Untouched name ∨
        (after (r.ask q) n).Tried r.fallback name (r.fallbackTag i) := by
    by_cases aims : ∃ j, r.target q = .listed name j
    · obtain ⟨j, aims⟩ := aims
      cases r.names.index_unique (listed_of_target aims).2.1 listed
      rcases before with untouched | tried
      · exact .inr (ask_first untouched aims)
      · exact .inr ((r.ask_unmoved (.inl tried.filled)).tried tried)
    · have still := r.ask_unmoved (m := n) (.inr fun j hj => aims ⟨j, hj⟩)
      exact before.imp still.untouched still.tried
  induction reached with
  | start => exact .inl (r.untouched_start name)
  | resolve before c ih => exact step (.byClass c) ih
  | resolveTag before t ih => exact step (.byTag t) ih

/-- A lookup that aims at a name leaves behind one attempt, its own or an earlier one. -/
theorem tried_of_ask (reached : r.Leads r.start m) (aims : r.target q = .listed name i) :
    (after (r.ask q) m).Tried r.fallback name (r.fallbackTag i) := by
  rcases untouched_or_tried (listed_of_target aims).2.1 reached with untouched | tried
  · exact ask_first untouched aims
  · exact (r.ask_unmoved (.inl tried.filled)).tried tried

theorem result_of_aims (reached : r.Leads r.start m) (aims : r.target q = .listed name i) :
    result (r.ask q) m = r.bindingFor name i (r.fallback.made name) := by
  rw [result_of_leaving (r.ask_eq q m), answer, aims, reached.settled]

/-- The lookup fails for this reason, which is all that the log has on the name. -/
structure Fails (r : Registry) (name : String) (t : Tag) (q : Query) (m : Memo)
    (reason : ConstructionError) : Prop where
  answer : result (r.ask q) m = .error (.constructionFailed name)
  event : .failed name t reason ∈ (after (r.ask q) m).events name
  logged : Event.logLines ((after (r.ask q) m).events name) =
    [⟨.warning, "could not create fallback codec",
      [("class", name), ("tag", t.text), ("error", reason.message)]⟩]

/-- The lookup finds a codec in this format, which is all that the log has on the name. -/
structure Builds (r : Registry) (name : String) (t : Tag) (q : Query) (m : Memo) (f : Format) :
    Prop where
  answer : result (r.ask q) m = .ok ⟨t, f, none⟩
  logged : Event.logLines ((after (r.ask q) m).events name) =
    [⟨.debug, "constructed fallback codec", [("class", name), ("tag", t.text)]⟩]

theorem fails_of_construct (reached : r.Leads r.start m) (aims : r.target q = .listed name i)
    (failed : r.fallback.construct name = .error e) : r.Fails name (r.fallbackTag i) q m e := by
  have tried := tried_of_ask reached aims
  have logged := (r.fallback.attempt_eventsOf name (r.fallbackTag i)).logged
  rw [failed] at logged
  refine ⟨?_, tried.events ▸ Fallback.failed_mem_eventsOf failed _, tried.events ▸ logged⟩
  rw [result_of_aims reached aims, Fallback.made, failed]
  rfl

theorem builds_of_construct (reached : r.Leads r.start m) (aims : r.target q = .listed name i)
    (made : r.fallback.construct name = .ok f) : r.Builds name (r.fallbackTag i) q m f := by
  have tried := tried_of_ask reached aims
  have logged := (r.fallback.attempt_eventsOf name (r.fallbackTag i)).logged
  rw [made] at logged
  refine ⟨?_, tried.events ▸ logged⟩
  rw [result_of_aims reached aims, Fallback.made, made]
  rfl

theorem codec_of_yields {cs : List Class} (reached : r.Leads r.start m)
    (aims : r.target q = .listed name i)
    (yields : Fallback.Yields cs name (r.fallback.construct name))
    (found : result (r.ask q) m = .ok b) : ∃ c, LastNamed cs name c ∧ b.format.primary = c ∧
      ((∃ e, c.kind = .enumeration e) ∨ ∃ x, c.kind = .plain (some x)) ∧
      ((∃ e, b.format = .ordinal c e) ↔ ∃ e, c.kind = .enumeration e) ∧
      r.Builds name (r.fallbackTag i) q m b.format := by
  cases made : r.fallback.construct name with
  | error e =>
    rw [(fails_of_construct reached aims made).answer] at found
    cases found
  | ok f =>
    have built := builds_of_construct reached aims made
    rw [built.answer] at found
    cases found
    obtain ⟨c, last, primary, kind, ordinal⟩ := (made ▸ yields).of_ok
    exact ⟨c, last, primary, kind, ordinal, built⟩

/-- What a lookup for a name comes to when these classes were registered. -/
structure ComesTo (r : Registry) (cs : List Class) (name : String) (t : Tag) (q : Query)
    (m : Memo) : Prop where
  succeeds : (∃ b, result (r.ask q) m = .ok b) ↔ ∃ c, LastNamed cs name c ∧
    ((∃ e, c.kind = .enumeration e) ∨ ∃ x, c.kind = .plain (some x))
  codec : ∀ b, result (r.ask q) m = .ok b → ∃ c, LastNamed cs name c ∧ b.format.primary = c ∧
    c.name = name ∧ ((∃ e, b.format = .ordinal c e) ↔ ∃ e, c.kind = .enumeration e) ∧
    r.Builds name t q m b.format
  absent : (∀ c ∈ cs, c.name ≠ name) → r.Fails name t q m (.classNotFound name)
  noRecord : ∀ c, LastNamed cs name c → c.kind = .plain none → r.Fails name t q m (.noFields name)
  enumCase : ∀ c, LastNamed cs name c → c.kind = .enumCase → r.Fails name t q m (.noFields name)

/-- A listed name gets a codec if the class that was registered last under this name declares an
enumeration or is an ordinary one with known fields, and the codec is for this very class. In all
other cases the lookup fails, and the log says whether there is no class or only no codec for it. It
makes no difference whether a class or a tag is looked up, and what was looked up before. -/
theorem fallback_outcome {r : Registry} (allowed : r.allowDefault = true) {cs : List Class}
    (source : r.fallback = .ofClasses cs) (listed : name ∈ r.names.toList)
    (reached : r.Leads r.start m) (wants : r.Wants name q) :
    ∃ i, r.names.toList[i]? = some name ∧ r.ComesTo cs name (r.fallbackTag i) q m := by
  obtain ⟨i, place⟩ := List.mem_iff_getElem?.mp listed
  have aims := target_of_wants allowed place wants
  have yields : Fallback.Yields cs name (r.fallback.construct name) :=
    source ▸ Fallback.yields_construct cs name
  have builds {f : Format} (h : Fallback.Yields cs name (.ok f)) :
      r.Builds name (r.fallbackTag i) q m f :=
    builds_of_construct reached aims (yields.unique h)
  have fails {e : ConstructionError} (h : Fallback.Yields cs name (.error e)) :
      r.Fails name (r.fallbackTag i) q m e :=
    fails_of_construct reached aims (yields.unique h)
  refine ⟨i, place, ?_⟩
  constructor
  case succeeds =>
    constructor
    · rintro ⟨b, found⟩
      obtain ⟨c, last, _, kind, _⟩ := codec_of_yields reached aims yields found
      exact ⟨c, last, kind⟩
    · rintro ⟨c, last, ⟨e, kind⟩ | ⟨x, kind⟩⟩
      · exact ⟨_, (builds (.enumeration last kind)).answer⟩
      · exact ⟨_, (builds (.record last kind)).answer⟩
  case codec =>
    intro b found
    obtain ⟨c, last, primary, _, ordinal, built⟩ := codec_of_yields reached aims yields found
    exact ⟨c, last, primary, last.name_eq, ordinal, built⟩
  case absent => exact fun absent => fails (.missing absent)
  case noRecord => exact fun c last kind => fails (.noRecord last kind)
  case enumCase => exact fun c last kind => fails (.enumCase last kind)

/-- An enumeration whose name an ordinary class has taken gets no codec. -/
theorem renamed_enumeration_fails :
    ∃ r, ((Draft.empty.addName "demo.Color").withResolver (.ofClassPath
        (.ofList [.enumeration "demo.Color" .color, .plain "demo.Color"]))).build = .ok r ∧
      r.Wants "demo.Color" (.byTag ⟨1⟩) ∧
      r.Fails "demo.Color" ⟨1⟩ (.byTag ⟨1⟩) r.start (.noFields "demo.Color") := by
  obtain ⟨r, built⟩ : ∃ r, ((Draft.empty.addName "demo.Color").withResolver (.ofClassPath
      (.ofList [.enumeration "demo.Color" .color, .plain "demo.Color"]))).build = .ok r := ⟨_, rfl⟩
  obtain ⟨allowed, names, fallback, tag⟩ : r.allowDefault = true ∧
      r.names.toList = ["demo.Color"] ∧
      r.fallback = .ofClasses [.enumeration "demo.Color" .color, .plain "demo.Color"] ∧
      r.fallbackTag 0 = ⟨1⟩ := by
    cases built
    exact ⟨rfl, rfl, rfl, by decide⟩
  have wants : r.Wants "demo.Color" (.byTag ⟨1⟩) := ⟨0, by rw [names]; rfl, tag.symm⟩
  obtain ⟨i, place, comes⟩ := fallback_outcome allowed fallback (by simp [names]) .start wants
  have first : i = 0 := r.names.index_unique place (by rw [names]; rfl)
  rw [first, tag] at comes
  exact ⟨r, built, wants, comes.noRecord (.plain "demo.Color")
    ⟨[.enumeration "demo.Color" .color], [], rfl, rfl, by simp⟩ rfl⟩

end Registry

end TagCodec
