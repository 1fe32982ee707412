import TagCodec.Proofs.Lockstep
import TagCodec.Proofs.RegistrationOrder

namespace TagCodec

open Steps

/-- The value with its addresses forgotten. -/
def Value.content : Value → Value
  | null => null
  | leaf _ x => leaf 0 x
  | pair _ left right => pair 0 left.content right.content

/-- The same tree on two sides. Where a constant was read on the one, the constant of the same
number was read on the other. -/
inductive Registry.Parallel (a b : Registry) (alike : Value → Value → Prop) : Value → Value → Prop
  | null : a.Parallel b alike .null .null
  | constant {i : Nat} (mine : a.constants[i]? = some v) (theirs : b.constants[i]? = some w)
      (same : alike v w) : a.Parallel b alike v w
  | leaf (addr addr' : Nat) (x : Leaf) : a.Parallel b alike (.leaf addr x) (.leaf addr' x)
  | pair (addr addr' : Nat) (first : a.Parallel b alike left left')
      (second : a.Parallel b alike right right') :
      a.Parallel b alike (.pair addr left right) (.pair addr' left' right')

namespace Registry

namespace Parallel

variable {a b : Registry} {alike : Value → Value → Prop}

theorem content (h : a.Parallel b alike v w) :
    w.content = v.content ↔ a.Parallel b (fun v w => w.content = v.content) v w := by
  constructor
  · intro equal
    induction h with
    | null => exact .null
    | constant mine theirs same => exact .constant mine theirs equal
    | leaf addr addr' x => exact .leaf addr addr' x
    | pair addr addr' first second ihl ihr =>
      obtain ⟨_, left, right⟩ := Value.pair.inj equal
      exact .pair addr addr' (ihl left) (ihr right)
  · intro kept
    clear h
    induction kept with
    | null => rfl
    | constant mine theirs same => exact same
    | leaf addr addr' x => rfl
    | pair addr addr' first second ihl ihr => rw [Value.content, ihl, ihr, Value.content]

end Parallel

/-- What an equal layout says of registries with the same codecs. -/
structure Coincides (a b : Registry) : Prop where
  codecs : a.codecs = b.codecs
  constants : a.constants.map Value.className = b.constants.map Value.className
  allowed : a.allowDefault = b.allowDefault
  /-- While the fallback is disabled, nothing is said of the names. -/
  names : a.allowDefault = true → a.names = b.names
  fallback : a.fallback = b.fallback

theorem names_of_entries (tag : Nat → Tag) (name : α → String) (xs : List α) :
    (xs.mapIdx fun i x => (⟨tag i, name x⟩ : Entry)).map Entry.name = xs.map name := by
  apply List.ext_getElem?
  intro i
  simp only [List.getElem?_map, List.getElem?_mapIdx]
  cases xs[i]? <;> rfl

theorem coincides_of_layout {a b : Registry} (codecs : a.codecs = b.codecs)
    (fallback : a.fallback = b.fallback) (same : a.layout = b.layout) : a.Coincides b := by
  have listed (f : Layout → List Entry) :
      (f a.layout).map Entry.name = (f b.layout).map Entry.name := by rw [same]
  refine ⟨codecs, ?_, congrArg Layout.allowDefault same, fun allowed => ?_, fallback⟩
  · have constants := listed Layout.constants
    simpa only [layout, names_of_entries] using constants
  · have allowed' : b.allowDefault = true := (congrArg Layout.allowDefault same).symm.trans allowed
    have names := listed Layout.fallback
    simp only [layout, allowed, allowed', if_true] at names
    have mine := names_of_entries a.fallbackTag id a.names.toList
    have theirs := names_of_entries b.fallbackTag id b.names.toList
    have same : a.names.toList = b.names.toList := by
      simpa only [List.map_id] using mine.symm.trans (names.trans theirs)
    exact Names.ext fun s => same ▸ Iff.rfl

namespace Coincides

variable {a b : Registry}

theorem constants_length (h : a.Coincides b) : a.constants.length = b.constants.length := by
  have := congrArg List.length h.constants
  simpa using this

theorem place (h : a.Coincides b) (t : Tag) : b.place t = a.place t := by
  have assigned := a.assigns_place t
  generalize a.place t = p at assigned
  apply place_eq
  have codecs := h.codecs
  have constants := h.constants_length
  have allowed := h.allowed
  cases p with
  | fallback i =>
    obtain ⟨allow, inside, tag⟩ := assigned
    exact ⟨allowed ▸ allow, h.names allow ▸ inside, codecs ▸ constants ▸ tag⟩
  | unassigned =>
    obtain ⟨beyond, rest⟩ := assigned
    refine ⟨codecs ▸ constants ▸ beyond, fun allow => ?_⟩
    rw [← h.names (allowed.trans allow), ← codecs, ← constants]
    exact rest (allowed.trans allow)
  | _ => simpa only [Draft.Assigns, codecs, constants] using assigned

theorem constantAt (h : a.Coincides b) (found : a.constantAt? t = some v) :
    ∃ (i : Nat) (w : Value), a.constants[i]? = some v ∧ b.constants[i]? = some w ∧
      v.className = w.className ∧ b.constantAt? t = some w := by
  obtain ⟨i, assigned, mine⟩ := (a.constantAt_eq_some t v).mp found
  have classes := congrArg (·[i]?) h.constants
  simp only [List.getElem?_map, mine, Option.map_some] at classes
  obtain ⟨w, theirs, same⟩ := Option.map_eq_some_iff.mp classes.symm
  refine ⟨i, w, mine, theirs, same.symm, ?_⟩
  rw [Registry.constantAt_eq (h.place t ▸ Registry.place_eq assigned), theirs]

theorem target (h : a.Coincides b) (t : Tag) : b.target (.byTag t) = a.target (.byTag t) := by
  have assigned := a.assigns_place t
  simp only [Registry.target, h.place t, explicitAt?, h.codecs]
  cases hp : a.place t with
  | fallback i =>
    rw [hp] at assigned
    rw [h.names assigned.1]
  | _ => rfl

theorem answer (h : a.Coincides b) (made : String → Option Format) (t : Tag) :
    b.answer made (.byTag t) = a.answer made (.byTag t) := by
  have tags : b.fallbackTag = a.fallbackTag := by
    funext i
    rw [Registry.fallbackTag, Registry.fallbackTag, h.codecs, h.constants_length]
  have found : b.bindingFor = a.bindingFor := by
    funext name i f
    cases f <;> simp only [bindingFor, tags]
  simp only [Registry.answer, h.target t, found]

end Coincides

/-- Constants of one number have the same class on both sides. -/
theorem Coincides.crossing {a b : Registry} (h : a.Coincides b) (made : String → Option Format) :
    a.Crossing b made made (fun _ => True) (fun _ _ => True)
      (a.Parallel b fun v w => v.className = w.className) where
  constant found := by
    obtain ⟨i, w, mine, theirs, same, other⟩ := h.constantAt found
    exact ⟨w, other, .constant mine theirs same⟩
  codec _ found := by
    have other := (h.answer made _).trans found
    exact ⟨constantAt_of_answer other, _, other, rfl⟩
  next := fun _ => trivial
  null := .null
  leaf x _ := .leaf _ _ x
  pair _ first second := .pair _ _ first second

theorem coincides_of_build {d e : Draft} (instances : ∀ c, c ∈ d.codecs ↔ c ∈ e.codecs)
    (fallback : d.fallback = e.fallback) (ha : d.build = .ok a) (hb : e.build = .ok b)
    (same : a.layout = b.layout) : a.Coincides b := by
  obtain ⟨_, mine, _, _, made⟩ := Draft.build_entries ha
  obtain ⟨_, theirs, _, _, made'⟩ := Draft.build_entries hb
  have perm : d.codecs.Perm e.codecs :=
    (List.perm_ext_iff_of_nodup d.codecs_nodup e.codecs_nodup).mpr instances
  have sorted : a.codecs.Perm b.codecs := by
    rw [mine, theirs]
    exact (Codec.sortByName_perm _).trans (perm.trans (Codec.sortByName_perm _).symm)
  exact coincides_of_layout (codecs_eq_of_perm sorted) (made.trans (fallback.trans made'.symm)) same

/-- Of two registries with the same codecs, resolver and factory, and of one layout, the one reads
every input that the other reads, and the same tree, with its own constants, of the same classes, in
the places of the other's. So the content is the same exactly when that of the constants is, which a
layout does not tell. -/
theorem equal_layouts_read {d e : Draft} (instances : ∀ c, c ∈ d.codecs ↔ c ∈ e.codecs)
    (fallback : d.fallback = e.fallback) {a b : Registry} (ha : d.build = .ok a)
    (hb : e.build = .ok b) (same : a.layout = b.layout) {m m' n : Memo}
    (mine : a.Leads a.start m) (theirs : b.Leads b.start n) {bs : List UInt8} {fresh : Nat}
    {v : Value} (read : a.decode bs fresh m = .ok v m') (fresh' : Nat) :
    ∃ w n', b.decode bs fresh' n = .ok w n' ∧
      a.Parallel b (fun k k' => k.className = k'.className) v w ∧
      (w.content = v.content ↔ a.Parallel b (fun k k' => k'.content = k.content) v w) := by
  have coincides := coincides_of_build instances fallback ha hb same
  have crossing : a.Crossing b (a.fallback.settled m) (b.fallback.settled n) (fun _ => True)
      (fun _ _ => True) (a.Parallel b fun k k' => k.className = k'.className) := by
    rw [mine.settled, theirs.settled, coincides.fallback]
    exact coincides.crossing _
  unfold decode at read ⊢
  cases run : a.read ⟨.ofList bs, 0, fresh, m⟩ with
  | error e s =>
    rw [run] at read
    cases read
  | ok u s =>
    rw [run] at read
    cases read
    have placed : (fun _ _ : Nat => True) fresh fresh' := trivial
    obtain ⟨w, s', other, parallel, _⟩ := crossing.read run (fun _ _ => trivial) placed
    rw [other]
    exact ⟨w, _, rfl, parallel, parallel.content⟩

/-- A pair of a constant and a label, read by two registries whose constants are two objects of one
content. -/
theorem pair_under_equal_layouts :
    ∃ d e a b v w m n,
      ((Draft.empty.addCodec ⟨7, .pair⟩).addCodec ⟨8, .label⟩).addConstant
        (.leaf 5 (.label "on")) (by simp) = .ok d ∧
      ((Draft.empty.addCodec ⟨8, .label⟩).addCodec ⟨7, .pair⟩).addConstant
        (.leaf 9 (.label "on")) (by simp) = .ok e ∧
      (∀ c, c ∈ d.codecs ↔ c ∈ e.codecs) ∧ d.fallback = e.fallback ∧ d.build = .ok a ∧
      e.build = .ok b ∧ a.layout = b.layout ∧
      v = .pair 21 (.leaf 5 (.label "on")) (.leaf 20 (.label "A")) ∧
      a.decode [2, 6, 4, 1, 65] 20 a.start = .ok v m ∧
      b.decode [2, 6, 4, 1, 65] 30 b.start = .ok w n ∧
      a.Parallel b (fun k k' => k'.content = k.content) v w := by
  obtain ⟨d, hd⟩ : ∃ d, ((Draft.empty.addCodec ⟨7, .pair⟩).addCodec ⟨8, .label⟩).addConstant
      (.leaf 5 (.label "on")) (by simp) = .ok d := ⟨_, rfl⟩
  obtain ⟨e, he⟩ : ∃ e, ((Draft.empty.addCodec ⟨8, .label⟩).addCodec ⟨7, .pair⟩).addConstant
      (.leaf 9 (.label "on")) (by simp) = .ok e := ⟨_, rfl⟩
  have instances : ∀ c, c ∈ d.codecs ↔ c ∈ e.codecs := by
    cases hd
    cases he
    intro c
    constructor <;> simp [Draft.addCodec, Draft.empty, or_comm]
  have fallback : d.fallback = e.fallback := by
    cases hd
    cases he
    rfl
  obtain ⟨a, ha⟩ : ∃ a, d.build = .ok a := by
    cases hd
    exact ⟨_, rfl⟩
  obtain ⟨b, hb⟩ : ∃ b, e.build = .ok b := by
    cases he
    exact ⟨_, rfl⟩
  have same : a.layout = b.layout := by
    cases hd
    cases he
    cases ha
    cases hb
    decide +kernel
  have read : a.decode [2, 6, 4, 1, 65] 20 a.start =
      .ok (.pair 21 (.leaf 5 (.label "on")) (.leaf 20 (.label "A"))) a.start := by
    cases hd
    cases ha
    decide +kernel
  have read' : b.decode [2, 6, 4, 1, 65] 30 b.start =
      .ok (.pair 31 (.leaf 9 (.label "on")) (.leaf 30 (.label "A"))) b.start := by
    cases he
    cases hb
    decide +kernel
  obtain ⟨w, n, other, _, content⟩ :=
    equal_layouts_read instances fallback ha hb same .start .start read 30
  cases read'.symm.trans other
  exact ⟨d, e, a, b, _, _, _, _, hd, he, instances, fallback, ha, hb, same, rfl, read, other,
    content.mp rfl⟩

/-- Two labels registered in the two possible orders. The layouts are the same, and each of the two
reads the other's first label for its own. -/
theorem labels_swapped :
    ∃ d d' e e' a b v w m n,
      Draft.empty.addConstant (.leaf 5 (.label "a")) (by simp) = .ok d ∧
      d.addConstant (.leaf 6 (.label "b")) (by simp) = .ok d' ∧
      Draft.empty.addConstant (.leaf 6 (.label "b")) (by simp) = .ok e ∧
      e.addConstant (.leaf 5 (.label "a")) (by simp) = .ok e' ∧
      d'.codecs = e'.codecs ∧ d'.fallback = e'.fallback ∧ d'.build = .ok a ∧ e'.build = .ok b ∧
      a.layout = b.layout ∧ v = .leaf 5 (.label "a") ∧ a.encode v a.start = .ok [2] m ∧
      a.decode [2] 7 m = .ok v m ∧ b.decode [2] 7 b.start = .ok w n ∧ w.content ≠ v.content := by
  obtain ⟨d, hd⟩ : ∃ d, Draft.empty.addConstant (.leaf 5 (.label "a")) (by simp) = .ok d :=
    ⟨_, rfl⟩
  obtain ⟨e, he⟩ : ∃ e, Draft.empty.addConstant (.leaf 6 (.label "b")) (by simp) = .ok e :=
    ⟨_, rfl⟩
  obtain ⟨d', hd'⟩ : ∃ d', d.addConstant (.leaf 6 (.label "b")) (by simp) = .ok d' := by
    cases hd
    exact ⟨_, rfl⟩
  obtain ⟨e', he'⟩ : ∃ e', e.addConstant (.leaf 5 (.label "a")) (by simp) = .ok e' := by
    cases he
    exact ⟨_, rfl⟩
  obtain ⟨a, ha⟩ : ∃ a, d'.build = .ok a := by
    cases hd
    cases hd'
    exact ⟨_, rfl⟩
  obtain ⟨b, hb⟩ : ∃ b, e'.build = .ok b := by
    cases he
    cases he'
    exact ⟨_, rfl⟩
  refine ⟨d, d', e, e', a, b, .leaf 5 (.label "a"), .leaf 6 (.label "b"), a.start, b.start, hd, hd',
    he, he', ?_⟩
  cases hd
  cases hd'
  cases he
  cases he'
  refine ⟨rfl, rfl, ha, hb, ?_, rfl, ?_, ?_, ?_, by decide⟩
  · cases ha
    cases hb
    decide +kernel
  · cases ha
    decide +kernel
  · cases ha
    decide +kernel
  · cases hb
    decide +kernel

end Registry

end TagCodec
