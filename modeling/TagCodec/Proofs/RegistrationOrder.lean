import TagCodec.Proofs.Assembly
import TagCodec.Proofs.Peers
import TagCodec.Proofs.Runs

namespace TagCodec

open Steps

namespace Draft

/-- What steps register, with all repetitions. -/
structure Entries where
  codecs : List Codec
  constants : List Value
  names : List String
  /-- As the last step that says so has it. -/
  allowDefault : Bool
  /-- The last resolver and the last factory. -/
  fallback : Fallback

namespace Entries

def none : Entries := ⟨[], [], [], true, .none⟩

def add (x : Entries) : Step → Entries
  | .codec c => { x with codecs := x.codecs ++ [c] }
  | .constant v _ => { x with constants := x.constants ++ [v] }
  | .name s => { x with names := x.names ++ [s] }
  | .allow allowed => { x with allowDefault := allowed }
  | .config c => { x with
      names := x.names ++ c.fallbackClasses
      allowDefault := c.allowDefault }
  | .resolver r => { x with fallback := { x.fallback with resolver := r } }
  | .factory f => { x with fallback := { x.fallback with factory := f } }

/-- The same codecs, the same constants in the same order, the same names, the same switch in the
end, and in the end a resolver and a factory that give the same answers. -/
structure Same (x y : Entries) : Prop where
  codecs : ∀ c, c ∈ x.codecs ↔ c ∈ y.codecs
  constants : x.constants = y.constants
  names : ∀ name, name ∈ x.names ↔ name ∈ y.names
  allowDefault : x.allowDefault = y.allowDefault
  find : ∀ name, x.fallback.resolver.find name = y.fallback.resolver.find name
  make : ∀ c, x.fallback.factory.make c = y.fallback.factory.make c

/-- An id belongs to one codec. -/
def Identified (x : Entries) : Prop := ∀ c ∈ x.codecs, ∀ e ∈ x.codecs, c.id = e.id → c = e

end Entries

def entries (ss : List Step) : Entries := ss.foldl Entries.add .none

/-- The draft contains what was registered. -/
structure Holds (d : Draft) (x : Entries) : Prop where
  registered : ∀ c ∈ d.codecs, c ∈ x.codecs
  complete : ∀ c ∈ x.codecs, c.id ∈ d.codecs.map Codec.id
  constants : d.constants = x.constants
  names : ∀ name, name ∈ d.names.toList ↔ name ∈ x.names
  allowDefault : d.allowDefault = x.allowDefault
  fallback : d.fallback = x.fallback

theorem holds_empty : empty.Holds .none :=
  ⟨fun _ h => h, fun _ h => absurd h List.not_mem_nil, rfl, fun _ => .rfl, rfl, rfl⟩

theorem Holds.addCodec {d : Draft} (h : d.Holds x) (c : Codec) :
    (d.addCodec c).Holds (x.add (.codec c)) := by
  by_cases known : c.id ∈ d.codecs.map Codec.id
  · rw [addCodec_of_known known]
    refine { h with registered := fun e he => ?_, complete := fun e he => ?_ }
    · exact List.mem_append_left _ (h.registered e he)
    · rcases List.mem_append.mp he with old | new
      · exact h.complete e old
      · exact List.mem_singleton.mp new ▸ known
  · rw [addCodec_of_new known]
    refine { h with registered := fun e he => ?_, complete := fun e he => ?_ }
    · rcases List.mem_append.mp he with old | new
      · exact List.mem_append_left _ (h.registered e old)
      · exact List.mem_append_right _ new
    · rw [List.map_append]
      rcases List.mem_append.mp he with old | new
      · exact List.mem_append_left _ (h.complete e old)
      · exact List.mem_append_right _ (List.mem_map_of_mem new)

theorem Holds.addNames {d : Draft} (h : d.Holds x) (ns : List String) :
    (ns.foldl addName d).Holds { x with names := x.names ++ ns } := by
  rw [foldl_addName]
  refine { h with names := fun name => ?_ }
  rw [Names.mem_foldl_insert, h.names, List.mem_append]

theorem Holds.take {d e : Draft} (h : d.Holds x) (taken : d.take s = .ok e) :
    e.Holds (x.add s) := by
  cases s with
  | codec c =>
    cases taken
    exact h.addCodec c
  | constant v object =>
    simp only [Draft.take, addConstant] at taken
    split at taken
    · cases taken
    · cases taken
      exact { h with constants := congrArg (· ++ [v]) h.constants }
  | name s =>
    cases taken
    exact h.addNames [s]
  | allow allowed =>
    cases taken
    exact { h with allowDefault := rfl }
  | config c =>
    cases taken
    exact { h.addNames c.fallbackClasses with allowDefault := rfl }
  | resolver r =>
    cases taken
    exact { h with fallback := congrArg (fun b => { b with resolver := r }) h.fallback }
  | factory f =>
    cases taken
    exact { h with fallback := congrArg (fun b => { b with factory := f }) h.fallback }

/-- A draft contains what was registered in it, however long the run of steps was. -/
theorem Holds.follow {d e : Draft} (h : d.Holds x) (run : d.follow ss = .ok e) :
    e.Holds (ss.foldl Entries.add x) := by
  induction ss generalizing d x with
  | nil =>
    cases run
    exact h
  | cons s ss ih =>
    obtain ⟨m, taken, rest⟩ := follow_cons_eq_ok run
    exact ih (h.take taken) rest

/-- As long as ids are told apart, repetitions are all that is missing. -/
theorem Holds.mem_codecs {d : Draft} (h : d.Holds x) (identified : x.Identified) (c : Codec) :
    c ∈ d.codecs ↔ c ∈ x.codecs := by
  refine ⟨h.registered c, fun hc => ?_⟩
  obtain ⟨e, he, same⟩ := List.mem_map.mp (h.complete c hc)
  exact identified e (h.registered e he) c hc same ▸ he

theorem codecs_nodup (d : Draft) : d.codecs.Nodup :=
  List.Pairwise.of_map Codec.id (fun _ _ differ same => differ (congrArg Codec.id same))
    d.codecs_distinct

theorem codecs_perm {d e : Draft} (hd : d.Holds x) (he : e.Holds y) (same : x.Same y)
    (identified : x.Identified) : d.codecs.Perm e.codecs := by
  have identified' : y.Identified := fun c hc c' hc' =>
    identified c ((same.codecs c).mpr hc) c' ((same.codecs c').mpr hc')
  refine (List.perm_ext_iff_of_nodup d.codecs_nodup e.codecs_nodup).mpr fun c => ?_
  rw [hd.mem_codecs identified, he.mem_codecs identified']
  exact same.codecs c

theorem names_eq {d e : Draft} (hd : d.Holds x) (he : e.Holds y) (same : x.Same y) :
    d.names = e.names :=
  Names.ext fun name => (hd.names name).trans ((same.names name).trans (he.names name).symm)

theorem constants_eq {d e : Draft} (hd : d.Holds x) (he : e.Holds y) (same : x.Same y) :
    d.constants = e.constants :=
  hd.constants.trans (same.constants.trans he.constants.symm)

end Draft

theorem Fallback.made_eq {b c : Fallback}
    (find : ∀ name, b.resolver.find name = c.resolver.find name)
    (make : ∀ cls, b.factory.make cls = c.factory.make cls) : b.made = c.made := by
  funext name
  unfold made
  cases found : c.resolver.find name with
  | error e => rw [construct_of_missing found, construct_of_missing ((find name).trans found)]
  | ok cls => rw [construct_of_found found, construct_of_found ((find name).trans found), make cls]

namespace Registry

theorem codecs_eq_of_perm {a b : Registry} (perm : a.codecs.Perm b.codecs) :
    a.codecs = b.codecs := by
  refine perm.eq_of_pairwise (fun c e hc he le ge => ?_) a.codecs_sorted b.codecs_sorted
  exact codec_unique hc (perm.mem_iff.mpr he) (String.le_antisymm le ge)

/-- Registries that agree in every answer, whatever was done with either of them before. -/
structure Twins (a b : Registry) : Prop where
  layout : a.layout = b.layout
  names : a.names = b.names
  explicit : ∀ i, a.explicitAt? i = b.explicitAt? i
  constantTag : ∀ v, a.constantTag? v = b.constantTag? v
  nameTag : ∀ i, a.fallbackTag i = b.fallbackTag i
  perform : ∀ before before' op, op ≠ .draft →
    (a.perform op (a.run (a.steadily before) a.start).2).1 =
      (b.perform op (b.run (b.steadily before') b.start).2).1

/-- All answers but drafts come from the entries and from what comes of each name. -/
theorem twins_of_entries {a b : Registry} (same : a = b.under a.fallback)
    (made : a.fallback.made = b.fallback.made) : a.Twins b := by
  constructor
  · rw [same]
    rfl
  · rw [same]
    rfl
  · rw [same]
    exact fun _ => rfl
  · rw [same]
    exact fun _ => rfl
  · rw [same]
    exact fun _ => rfl
  · intro before before' op other
    rw [perform_eq, perform_eq, settled_run, settled_run, made]
    dsimp only
    rw [same, b.plainly_under _ _ other]

theorem twins_of_build {d e : Draft} (hd : d.Holds x) (he : e.Holds y) (same : x.Same y)
    (identified : x.Identified) (ha : d.build = .ok a) (hb : e.build = .ok b) : a.Twins b := by
  obtain ⟨allowed, codecs, constants, names, fallback⟩ := Draft.build_entries ha
  obtain ⟨allowed', codecs', constants', names', fallback'⟩ := Draft.build_entries hb
  have perm : a.codecs.Perm b.codecs := by
    rw [codecs, codecs']
    exact (Codec.sortByName_perm _).trans
      ((Draft.codecs_perm hd he same identified).trans (Codec.sortByName_perm _).symm)
  apply twins_of_entries
  · refine ext_draft (Draft.ext_entries ?_ (codecs_eq_of_perm perm) ?_ ?_ rfl)
    · exact allowed.trans (hd.allowDefault.trans
        (same.allowDefault.trans (he.allowDefault.symm.trans allowed'.symm)))
    · exact constants.trans ((Draft.constants_eq hd he same).trans constants'.symm)
    · exact names.trans ((Draft.names_eq hd he same).trans names'.symm)
  · rw [fallback, fallback', hd.fallback, he.fallback]
    exact Fallback.made_eq same.find same.make

/-- Two runs of steps that register the same, constants in one order and all else in any order and
as often as they like, both lead to a registry or neither does. The two registries give every entry
the same tag, and agree in every answer. -/
theorem order_irrelevant {ss ts : List Draft.Step} {d e : Draft}
    (first : Draft.empty.follow ss = .ok d) (second : Draft.empty.follow ts = .ok e)
    (same : (Draft.entries ss).Same (Draft.entries ts))
    (identified : (Draft.entries ss).Identified) :
    ((∃ a, d.build = .ok a) ↔ ∃ b, e.build = .ok b) ∧
    ∀ a b, d.build = .ok a → e.build = .ok b → a.Twins b := by
  have hd : d.Holds (Draft.entries ss) := Draft.holds_empty.follow first
  have he : e.Holds (Draft.entries ts) := Draft.holds_empty.follow second
  refine ⟨?_, fun a b ha hb => twins_of_build hd he same identified ha hb⟩
  exact Draft.build_ok_perm (Draft.codecs_perm hd he same identified)
    (Draft.constants_eq hd he same) (Draft.names_eq hd he same)

/-- Two codecs, a constant and two names. -/
def onceEach : List Draft.Step :=
  [.codec ⟨1, .shape⟩, .name "demo.Color", .codec ⟨2, .point⟩,
    .constant (.leaf 5 (.label "on")) nofun, .config ⟨false, ["demo.Status"]⟩, .allow true,
    .resolver (.ofClassPath Catalog.classPath)]

/-- The same entries the other way round, with repetitions. -/
def overAndOver : List Draft.Step :=
  [.resolver (.ofClassPath .empty), .resolver (.ofClassPath Catalog.classPath),
    .config ⟨true, ["demo.Status", "demo.Color"]⟩, .codec ⟨2, .point⟩,
    .constant (.leaf 5 (.label "on")) nofun, .codec ⟨2, .point⟩, .codec ⟨1, .shape⟩,
    .name "demo.Status"]

theorem twins_of_two_orders :
    ∃ d e a b, Draft.empty.follow onceEach = .ok d ∧ Draft.empty.follow overAndOver = .ok e ∧
      d.build = .ok a ∧ e.build = .ok b ∧ a.Twins b := by
  obtain ⟨d, first⟩ : ∃ d, Draft.empty.follow onceEach = .ok d := ⟨_, rfl⟩
  obtain ⟨e, second⟩ : ∃ e, Draft.empty.follow overAndOver = .ok e := ⟨_, rfl⟩
  have same : (Draft.entries onceEach).Same (Draft.entries overAndOver) := by
    refine ⟨fun c => ?_, rfl, fun name => ?_, rfl, fun _ => rfl, fun _ => rfl⟩
    · change c ∈ [_, _] ↔ c ∈ [_, _, _]
      grind
    · change name ∈ [_, _] ↔ name ∈ [_, _, _]
      grind
  have identified : (Draft.entries onceEach).Identified := by
    unfold Draft.Entries.Identified
    decide
  have ordered := order_irrelevant first second same identified
  obtain ⟨a, ha⟩ : ∃ a, d.build = .ok a := by
    cases first
    exact ⟨_, rfl⟩
  obtain ⟨b, hb⟩ := ordered.1.mp ⟨a, ha⟩
  exact ⟨d, e, a, b, first, second, ha, hb, ordered.2 a b ha hb⟩

end Registry

end TagCodec
