import TagCodec.Proofs.Lockstep
import TagCodec.Proofs.Reopening

namespace TagCodec

open Steps

namespace Names

/-- The names among these that are new and smaller than a name, each counted once. -/
def newBefore (ns : Names) (added : List String) (n : String) : Nat :=
  (ofList added).toList.countP fun s => s ∉ ns.toList ∧ s < n

/-- A name moves behind the new names that are smaller. -/
theorem place_extended {ns ms : Names} {added : List String}
    (both : ∀ s, s ∈ ms.toList ↔ s ∈ ns.toList ∨ s ∈ added) (h : ns.toList[i]? = some n) :
    ms.toList[i + ns.newBefore added n]? = some n := by
  have perm : ms.toList.Perm (ns.toList ++ (ofList added).toList.filter (· ∉ ns.toList)) := by
    refine (List.perm_ext_iff_of_nodup ms.distinct ?_).mpr fun s => ?_
    · refine List.nodup_append.mpr ⟨ns.distinct, (ofList added).distinct.filter _, ?_⟩
      intro s hs t ht same
      subst same
      simp [hs] at ht
    · rw [both, List.mem_append, List.mem_filter, mem_ofList]
      by_cases old : s ∈ ns.toList <;> simp [old]
  have count : ms.toList.countP (· < n) = i + ns.newBefore added n := by
    rw [perm.countP_eq, List.countP_append, countP_lt_of_sorted ns.sorted h, List.countP_filter]
    unfold newBefore
    congr 1
    apply List.countP_congr
    intro s _
    simp [and_comm]
  rw [← count]
  exact ms.getElem?_countP ((both n).mpr (.inl (List.mem_of_getElem? h)))

end Names

namespace Draft

namespace Step

/-- The constant that the step adds, if it is such a step. -/
def constant? : Step → Option Value
  | .constant v _ => some v
  | _ => none

/-- The name that the step adds, if it is such a step. -/
def name? : Step → Option String
  | .name s => some s
  | _ => none

/-- The step adds a constant or a name. -/
def Adds (s : Step) : Prop := s.constant?.isSome ∨ s.name?.isSome

instance : DecidablePred Adds := fun _ => inferInstanceAs (Decidable (_ ∨ _))

end Step

/-- Such steps change the constants, behind the old ones, and the names. -/
theorem follow_of_adds {d e : Draft} {ss : List Step} (adds : ∀ s ∈ ss, s.Adds)
    (run : d.follow ss = .ok e) :
    e.codecs = d.codecs ∧ e.constants = d.constants ++ ss.filterMap Step.constant? ∧
      (∀ s, s ∈ e.names.toList ↔ s ∈ d.names.toList ∨ s ∈ ss.filterMap Step.name?) ∧
      e.allowDefault = d.allowDefault ∧ e.fallback = d.fallback := by
  induction ss generalizing d with
  | nil =>
    cases run
    exact ⟨rfl, (List.append_nil _).symm, fun s => by simp, rfl, rfl⟩
  | cons s ss ih =>
    obtain ⟨m, taken, rest⟩ := follow_cons_eq_ok run
    obtain ⟨codecs, constants, names, allowed, fallback⟩ :=
      ih (fun t ht => adds t (List.mem_cons_of_mem s ht)) rest
    cases s with
    | constant v object =>
      simp only [take, addConstant] at taken
      split at taken <;> cases taken
      exact ⟨codecs, constants.trans (List.append_assoc _ _ _), names, allowed, fallback⟩
    | name n =>
      cases taken
      refine ⟨codecs, constants, fun s => ?_, allowed, fallback⟩
      simp only [names, addName, Names.mem_insert, List.filterMap_cons, Step.name?, List.mem_cons]
      rw [or_assoc, or_left_comm]
    | _ =>
      have step := adds _ List.mem_cons_self
      simp [Step.Adds, Step.constant?, Step.name?] at step

end Draft

namespace Registry

/-- The second registry has all that the first one has, with further constants and names. -/
structure Extends (r s : Registry) (added : List Value) (names : List String) : Prop where
  codecs : s.codecs = r.codecs
  constants : s.constants = r.constants ++ added
  names : ∀ n, n ∈ s.names.toList ↔ n ∈ r.names.toList ∨ n ∈ names
  allowed : s.allowDefault = r.allowDefault
  fallback : s.fallback = r.fallback

theorem extends_of_complete {r s : Registry} {ss : List Draft.Step} (adds : ∀ x ∈ ss, x.Adds)
    (h : r.reopen.complete ss = .ok s) :
    r.Extends s (ss.filterMap Draft.Step.constant?) (ss.filterMap Draft.Step.name?) := by
  rw [r.reopen_eq] at h
  unfold Draft.complete at h
  cases run : r.toDraft.follow ss with
  | error x =>
    rw [run] at h
    cases h
  | ok e =>
    rw [run] at h
    cases built : e.build with
    | error x =>
      simp only [built] at h
      cases h
    | ok s' =>
      simp only [built] at h
      cases h
      obtain ⟨codecs, constants, names, allowed, fallback⟩ := Draft.follow_of_adds adds run
      obtain ⟨allowed', codecs', constants', names', fallback'⟩ := Draft.build_entries built
      refine ⟨?_, constants'.trans constants, names' ▸ names, allowed'.trans allowed,
        fallback'.trans fallback⟩
      rw [codecs', codecs]
      exact Codec.sortByName_of_sorted r.codecs_sorted

namespace Extends

variable {r s : Registry} {added : List Value} {names : List String}

theorem explicitAt (h : r.Extends s added names) (i : Nat) : s.explicitAt? i = r.explicitAt? i := by
  rw [explicitAt?, explicitAt?, h.codecs]

theorem constantTag (h : r.Extends s added names) (i : Nat) :
    s.constantTag i = r.constantTag i := by
  rw [Registry.constantTag, Registry.constantTag, h.codecs]

theorem constantTag_of_old (h : r.Extends s added names) {v : Value}
    (old : r.constantTag? v = some t) : s.constantTag? v = some t := by
  obtain ⟨i, found, rfl⟩ := Option.map_eq_some_iff.mp old
  unfold constantTag?
  rw [h.constants, List.findIdx?_append, found]
  exact congrArg some (h.constantTag i)

theorem constantAt_of_old (h : r.Extends s added names) (old : r.constantAt? t = some v) :
    s.constantAt? t = some v := by
  obtain ⟨i, ⟨inside, tag⟩, found⟩ := (r.constantAt_eq_some t v).mp old
  refine (s.constantAt_eq_some t v).mpr ⟨i, ⟨?_, h.codecs ▸ tag⟩, ?_⟩
  · rw [h.constants, List.length_append]
    omega
  · rw [h.constants, List.getElem?_append_left inside, found]

/-- The tag of a name moves by the new constants and by the smaller new names. -/
theorem toInt_fallbackTag (h : r.Extends s added names) (listed : r.names.toList[i]? = some n) :
    ∃ j, s.names.toList[j]? = some n ∧ (s.fallbackTag j).toInt =
      (r.fallbackTag i).toInt + added.length + r.names.newBefore names n := by
  have place := Names.place_extended h.names listed
  refine ⟨_, place, ?_⟩
  have inside := (List.getElem?_eq_some_iff.mp listed).1
  have inside' := (List.getElem?_eq_some_iff.mp place).1
  rw [Registry.toInt_fallbackTag inside, Registry.toInt_fallbackTag inside', h.codecs, h.constants,
    List.length_append]
  omega

theorem target_of_registered (h : r.Extends s added names)
    (old : r.target (.byTag t) = .registered b) : s.target (.byTag t) = .registered b := by
  have assigned := r.assigns_place t
  simp only [target] at old ⊢
  cases place : r.place t with
  | explicit i =>
    rw [place] at old assigned
    have place' : s.place t = .explicit i := place_eq ⟨h.codecs ▸ assigned.1, assigned.2⟩
    rw [place']
    exact (congrArg (fun b? => Option.elim b? _ _) (h.explicitAt i)).trans old
  | fallback i =>
    rw [place] at old
    cases found : r.names.get? i <;> simp only [found, Option.elim] at old <;> cases old
  | _ =>
    rw [place] at old
    cases old

theorem fallbackTag_eq (h : r.Extends s [] names) (i : Nat) :
    s.fallbackTag i = r.fallbackTag i := by
  rw [fallbackTag, fallbackTag, h.codecs, h.constants, List.append_nil]

/-- Without new constants and without new names in front, a tag of a name leads to the same name. -/
theorem target_of_listed (h : r.Extends s [] names)
    (behind : ∀ n ∈ r.names.toList, r.names.newBefore names n = 0)
    (old : r.target (.byTag t) = .listed n i) : s.target (.byTag t) = .listed n i := by
  obtain ⟨allowed, listed, j, other, rfl⟩ := listed_of_target old
  cases r.names.index_unique listed other
  have place := Names.place_extended h.names listed
  rw [behind n (List.mem_of_getElem? listed)] at place
  exact target_of_wants (h.allowed.trans allowed) place ⟨i, place, (h.fallbackTag_eq i).symm⟩

/-- Both registries read the same, if they do so for the tags of names that are looked up. -/
theorem crossing (h : r.Extends s added names) {made made' : String → Option Format}
    {asked : Query → Prop} (listed : ∀ {t n i}, asked (.byTag t) →
      r.target (.byTag t) = .listed n i → s.answer made' (.byTag t) = r.answer made (.byTag t)) :
    r.Crossing s made made' asked Eq Eq where
  constant old := ⟨_, h.constantAt_of_old old, rfl⟩
  codec {t f} here found := by
    have answered : s.answer made' (.byTag t) = .ok f := by
      cases target : r.target (.byTag t) with
      | registered b =>
        simp only [answer, target] at found
        simp only [answer, h.target_of_registered target]
        exact found
      | listed n i => exact (listed here target).trans found
      | refused e =>
        simp only [answer, target] at found
        cases found
    exact ⟨constantAt_of_answer answered, f, answered, rfl⟩
  next same := congrArg (· + 1) same
  null := rfl
  leaf x same := same ▸ rfl
  pair same left right := same ▸ left ▸ right ▸ rfl

theorem answer_of_listed (h : r.Extends s [] names)
    (behind : ∀ n ∈ r.names.toList, r.names.newBefore names n = 0) (made : String → Option Format)
    (old : r.target (.byTag t) = .listed n i) :
    s.answer made (.byTag t) = r.answer made (.byTag t) := by
  simp only [answer, old, h.target_of_listed behind old]
  cases made n <;> simp only [bindingFor, h.fallbackTag_eq]

end Extends

/-- A registry that is extended by constants and names keeps the tags of its codecs and constants.
The tag of a name moves by the number of new constants and of new names in front of it. What was
read without the help of a name is read as before, to the same place. So is everything else, if
there are no new constants and all new names are behind the old ones. -/
theorem extension_reads (r : Registry) {ss : List Draft.Step} (adds : ∀ x ∈ ss, x.Adds)
    {s : Registry} (extended : r.reopen.complete ss = .ok s) :
    (∀ i b, r.explicitAt? i = some b → s.explicitAt? i = some b) ∧
    (∀ v t, r.constantTag? v = some t → s.constantTag? v = some t) ∧
    (∀ t v, r.constantAt? t = some v → s.constantAt? t = some v) ∧
    (∀ i n, r.names.toList[i]? = some n → ∃ j, s.names.toList[j]? = some n ∧
      (s.fallbackTag j).toInt = (r.fallbackTag i).toInt +
        (ss.filterMap Draft.Step.constant?).length +
        r.names.newBefore (ss.filterMap Draft.Step.name?) n) ∧
    (∀ input depth fresh m v t, r.read ⟨input, depth, fresh, m⟩ = .ok v t →
      (∀ q ∈ r.calls (r.fallback.settled m) (.read input depth fresh),
        ∀ n i, r.target q ≠ .listed n i) →
      ∀ m', ∃ t', s.read ⟨input, depth, fresh, m'⟩ = .ok v t' ∧ t'.input = t.input ∧
        t'.fresh = t.fresh) ∧
    (ss.filterMap Draft.Step.constant? = [] →
      (∀ added ∈ ss.filterMap Draft.Step.name?, ∀ n ∈ r.names.toList, n < added) →
      ∀ input depth fresh m v t, r.Leads r.start m → r.read ⟨input, depth, fresh, m⟩ = .ok v t →
      ∀ m', s.Leads s.start m' → ∃ t', s.read ⟨input, depth, fresh, m'⟩ = .ok v t' ∧
        t'.input = t.input ∧ t'.fresh = t.fresh) := by
  have more := extends_of_complete adds extended
  refine ⟨fun i b old => (more.explicitAt i).trans old, fun v t => more.constantTag_of_old,
    fun t v => more.constantAt_of_old, fun i n => more.toInt_fallbackTag, ?_, ?_⟩
  · intro input depth fresh m v t run unlisted m'
    have crossing : r.Crossing s (r.fallback.settled m) (s.fallback.settled m')
        (fun q => ∀ n i, r.target q ≠ .listed n i) Eq Eq :=
      more.crossing fun here listed => absurd listed (here _ _)
    obtain ⟨w, t', other, rfl, place, next⟩ := crossing.read run unlisted rfl
    exact ⟨t', other, place, next.symm⟩
  · intro none late input depth fresh m v t mine run m' theirs
    rw [none] at more
    have behind : ∀ n ∈ r.names.toList,
        r.names.newBefore (ss.filterMap Draft.Step.name?) n = 0 := by
      intro n hn
      refine List.countP_eq_zero.mpr fun added hadded => ?_
      have after := late added ((Names.mem_ofList _ _).mp hadded) n hn
      simp [String.not_lt.mpr (Std.le_of_lt after)]
    have crossing : r.Crossing s (r.fallback.settled m) (s.fallback.settled m') (fun _ => True)
        Eq Eq := by
      rw [mine.settled, theirs.settled, more.fallback]
      exact more.crossing fun _ listed => more.answer_of_listed behind _ listed
    obtain ⟨w, t', other, rfl, place, next⟩ := crossing.read run (fun _ _ => trivial) rfl
    exact ⟨t', other, place, next.symm⟩

/-- A second constant and a smaller name move the tag of a name from 4 to 6, and the pair of the
first constant and a label is read as before. Behind a name that is larger, a color is read as
before too. -/
theorem extension_of_four_entries :
    ∃ d r s s' v t w u,
      ((Draft.empty.addCodec ⟨7, .pair⟩).addCodec ⟨8, .label⟩).addConstant
        (.leaf 5 (.label "on")) (by simp) = .ok d ∧
      ((d.addName "demo.Color").withResolver (.ofClassPath Catalog.classPath)).build = .ok r ∧
      r.reopen.complete [.constant (.leaf 6 (.label "off")) (by simp), .name "demo.A",
        .name "demo.Color"] = .ok s ∧
      r.reopen.complete [.name "demo.Status"] = .ok s' ∧
      (r.fallbackTag 0).toInt = 4 ∧
      (∃ j, s.names.toList[j]? = some "demo.Color" ∧ (s.fallbackTag j).toInt = 4 + 1 + 1) ∧
      v = .pair 21 (.leaf 5 (.label "on")) (.leaf 20 (.label "A")) ∧
      r.read ⟨.ofList [2, 6, 4, 1, 65], 0, 20, r.start⟩ = .ok v t ∧
      (∃ t', s.read ⟨.ofList [2, 6, 4, 1, 65], 0, 20, s.start⟩ = .ok v t' ∧ t'.input = t.input) ∧
      w = .leaf 20 (.member .color ⟨1, by decide⟩) ∧
      r.read ⟨.ofList [8, 1], 0, 20, r.start⟩ = .ok w u ∧
      ∃ u', s'.read ⟨.ofList [8, 1], 0, 20, s'.start⟩ = .ok w u' ∧ u'.input = u.input := by
  obtain ⟨d, added⟩ : ∃ d, ((Draft.empty.addCodec ⟨7, .pair⟩).addCodec ⟨8, .label⟩).addConstant
      (.leaf 5 (.label "on")) (by simp) = .ok d := ⟨_, rfl⟩
  obtain ⟨r, built⟩ : ∃ r, ((d.addName "demo.Color").withResolver
      (.ofClassPath Catalog.classPath)).build = .ok r := by
    cases added
    exact ⟨_, rfl⟩
  obtain ⟨s, first⟩ : ∃ s, r.reopen.complete [.constant (.leaf 6 (.label "off")) (by simp),
      .name "demo.A", .name "demo.Color"] = .ok s := by
    cases added
    cases built
    exact ⟨_, rfl⟩
  obtain ⟨s', second⟩ : ∃ s', r.reopen.complete [.name "demo.Status"] = .ok s' := by
    cases added
    cases built
    exact ⟨_, rfl⟩
  have adds : ∀ x ∈ [Draft.Step.constant (.leaf 6 (.label "off")) (by simp), .name "demo.A",
      .name "demo.Color"], x.Adds := by decide
  have addsName : ∀ x ∈ [Draft.Step.name "demo.Status"], x.Adds := by decide
  obtain ⟨_, _, _, moved, reads, _⟩ := extension_reads r adds first
  obtain ⟨_, _, _, _, _, behind⟩ := extension_reads r addsName second
  have tag : (r.fallbackTag 0).toInt = 4 := by
    cases added
    cases built
    decide
  have listed : r.names.toList = ["demo.Color"] := by
    cases added
    cases built
    rfl
  obtain ⟨j, place, shifted⟩ := moved 0 "demo.Color" (by rw [listed]; rfl)
  have new : r.names.newBefore ["demo.A", "demo.Color"] "demo.Color" = 1 := by
    rw [Names.newBefore, listed]
    decide +kernel
  have shifted : (s.fallbackTag j).toInt = (r.fallbackTag 0).toInt + (1 : Nat) +
      r.names.newBefore ["demo.A", "demo.Color"] "demo.Color" := shifted
  rw [tag, new] at shifted
  have read : r.read ⟨.ofList [2, 6, 4, 1, 65], 0, 20, r.start⟩ =
      .ok (.pair 21 (.leaf 5 (.label "on")) (.leaf 20 (.label "A")))
        ⟨.facing 5 [], 0, 22, r.start⟩ := by
    cases added
    cases built
    decide +kernel
  obtain ⟨u, color⟩ : ∃ u, r.read ⟨.ofList [8, 1], 0, 20, r.start⟩ =
      .ok (.leaf 20 (.member .color ⟨1, by decide⟩)) u := by
    cases added
    cases built
    exact ⟨_, rfl⟩
  have unlisted : ∀ q ∈ r.calls (r.fallback.settled r.start)
      (.read (.ofList [2, 6, 4, 1, 65]) 0 20), ∀ n i, r.target q ≠ .listed n i := by
    have asked : r.calls (r.fallback.settled r.start) (.read (.ofList [2, 6, 4, 1, 65]) 0 20) =
        [.byTag ⟨1⟩, .byTag ⟨2⟩] := by
      cases added
      cases built
      decide +kernel
    rw [asked]
    cases added
    cases built
    intro q hq n i
    simp only [List.mem_cons, List.not_mem_nil, or_false] at hq
    rcases hq with rfl | rfl <;> exact fun same => by cases same
  have larger : ∀ n ∈ ["demo.Status"], ∀ old ∈ r.names.toList, old < n := by
    rw [listed]
    decide +kernel
  obtain ⟨t', same, here, _⟩ := reads _ _ _ _ _ _ read unlisted s.start
  obtain ⟨u', same', here', _⟩ :=
    behind rfl larger _ _ _ _ _ _ .start color s'.start .start
  exact ⟨d, r, s, s', _, _, _, u, added, built, first, second, tag, ⟨j, place, shifted⟩, rfl, read,
    ⟨t', same, here⟩, rfl, color, u', same', here'⟩

end Registry

end TagCodec
