import TagCodec.Proofs.Assembly
import TagCodec.Proofs.Peers

namespace TagCodec

namespace Codec

/-- Puts a codec behind the last one whose class name is not greater. -/
def insertAfter (c : Codec) : List Codec → List Codec
  | [] => [c]
  | d :: ds => if c.name < d.name then c :: d :: ds else d :: insertAfter c ds

/-- The two ways to insert are not in each other's way. -/
theorem insertByName_insertAfter (a c : Codec) (cs : List Codec) :
    insertByName a (insertAfter c cs) = insertAfter c (insertByName a cs) := by
  induction cs with
  | nil =>
    by_cases h : a.name ≤ c.name
    · simp only [insertAfter, insertByName, if_pos h, if_neg (String.not_lt.mpr h)]
    · simp only [insertAfter, insertByName, if_neg h, if_pos (String.not_le.mp h)]
  | cons d ds ih =>
    by_cases before : c.name < d.name
    · -- `c` goes in front of `d`, so `a` meets `c` first
      by_cases h : a.name ≤ c.name
      · have first : a.name ≤ d.name := String.le_trans h (Std.le_of_lt before)
        simp only [insertAfter, insertByName, if_pos before, if_pos h, if_pos first,
          if_neg (String.not_lt.mpr h)]
      · have behind : c.name < a.name := String.not_le.mp h
        by_cases first : a.name ≤ d.name
        · simp only [insertAfter, insertByName, if_pos before, if_neg h, if_pos first,
            if_pos behind]
        · simp only [insertAfter, insertByName, if_pos before, if_neg h, if_neg first]
    · by_cases first : a.name ≤ d.name
      · have h : a.name ≤ c.name := String.le_trans first (String.not_lt.mp before)
        simp only [insertAfter, insertByName, if_neg before, if_pos first,
          if_neg (String.not_lt.mpr h)]
      · simp only [insertAfter, insertByName, if_neg before, if_neg first, ih]

/-- A codec that is registered last is sorted in last. -/
theorem sortByName_concat (cs : List Codec) (c : Codec) :
    sortByName (cs ++ [c]) = insertAfter c (sortByName cs) := by
  induction cs with
  | nil => rfl
  | cons d ds ih => exact (congrArg (insertByName d) ih).trans (insertByName_insertAfter d c _)

theorem sortByName_of_sorted {cs : List Codec} (h : cs.Pairwise fun a b => a.name ≤ b.name) :
    sortByName cs = cs := by
  induction cs with
  | nil => rfl
  | cons c cs ih =>
    obtain ⟨least, rest⟩ := List.pairwise_cons.mp h
    change insertByName c (sortByName cs) = c :: cs
    rw [ih rest]
    cases cs with
    | nil => rfl
    | cons d ds => exact if_pos (least d List.mem_cons_self)

end Codec

namespace Draft

/-- The same entries. Only codecs of different classes may stand in another order. -/
structure Resorted (d e : Draft) : Prop where
  allowDefault : d.allowDefault = e.allowDefault
  codecs : Codec.sortByName d.codecs = Codec.sortByName e.codecs
  constants : d.constants = e.constants
  names : d.names = e.names
  fallback : d.fallback = e.fallback

namespace Resorted

variable {d e : Draft}

theorem perm (h : d.Resorted e) : d.codecs.Perm e.codecs :=
  (Codec.sortByName_perm d.codecs).symm.trans (h.codecs ▸ Codec.sortByName_perm e.codecs)

theorem build_eq (h : d.Resorted e) : d.build = e.build := by
  have size : d.size = e.size := by
    rw [Draft.size, Draft.size, h.perm.length_eq, h.constants, h.names]
  by_cases fits : d.size ≤ capacity
  · cases found : firstRepeat? [] ((Codec.sortByName d.codecs).flatMap Codec.claims) with
    | some cls => rw [build_of_repeat fits found, build_of_repeat (size ▸ fits) (h.codecs ▸ found)]
    | none =>
      obtain ⟨a, ha⟩ := build_of_distinct fits found
      obtain ⟨b, hb⟩ := build_of_distinct (size ▸ fits) (h.codecs ▸ found)
      obtain ⟨allowed, codecs, constants, names, fallback⟩ := build_entries ha
      obtain ⟨allowed', codecs', constants', names', fallback'⟩ := build_entries hb
      rw [ha, hb]
      refine congrArg Except.ok (Registry.ext_draft (ext_entries ?_ ?_ ?_ ?_ ?_))
      · rw [allowed, allowed', h.allowDefault]
      · rw [codecs, codecs', h.codecs]
      · rw [constants, constants', h.constants]
      · rw [names, names', h.names]
      · rw [fallback, fallback', h.fallback]
  · rw [build_of_large (Nat.lt_of_not_le fits), build_of_large (size ▸ Nat.lt_of_not_le fits), size]

theorem addCodec (h : d.Resorted e) (c : Codec) : (d.addCodec c).Resorted (e.addCodec c) := by
  have ids : c.id ∈ d.codecs.map Codec.id ↔ c.id ∈ e.codecs.map Codec.id :=
    (h.perm.map Codec.id).mem_iff
  by_cases known : c.id ∈ d.codecs.map Codec.id
  · rw [addCodec_of_known known, addCodec_of_known (ids.mp known)]
    exact h
  · rw [addCodec_of_new known, addCodec_of_new (mt ids.mpr known)]
    refine { h with codecs := ?_ }
    simp only [Codec.sortByName_concat, h.codecs]

theorem take (h : d.Resorted e) (s : Step) :
    (∃ x, d.take s = .error x ∧ e.take s = .error x) ∨
    ∃ d' e', d.take s = .ok d' ∧ e.take s = .ok e' ∧ d'.Resorted e' := by
  cases s with
  | codec c => exact .inr ⟨_, _, rfl, rfl, h.addCodec c⟩
  | constant v object =>
    simp only [Draft.take, addConstant, h.constants]
    split
    · exact .inl ⟨_, rfl, rfl⟩
    · exact .inr ⟨_, _, rfl, rfl, { h with constants := rfl }⟩
  | name s => exact .inr ⟨_, _, rfl, rfl, { h with names := congrArg (·.insert s) h.names }⟩
  | allow allowed => exact .inr ⟨_, _, rfl, rfl, { h with allowDefault := rfl }⟩
  | config c =>
    refine .inr ⟨_, _, rfl, rfl, ?_⟩
    simp only [withConfig, foldl_addName]
    exact { h with
      allowDefault := rfl
      names := congrArg (c.fallbackClasses.foldl Names.insert ·) h.names }
  | resolver r =>
    exact .inr ⟨_, _, rfl, rfl,
      { h with fallback := congrArg (fun b => { b with resolver := r }) h.fallback }⟩
  | factory f =>
    exact .inr ⟨_, _, rfl, rfl,
      { h with fallback := congrArg (fun b => { b with factory := f }) h.fallback }⟩

theorem follow (h : d.Resorted e) (ss : List Step) :
    (∃ x, d.follow ss = .error x ∧ e.follow ss = .error x) ∨
    ∃ d' e', d.follow ss = .ok d' ∧ e.follow ss = .ok e' ∧ d'.Resorted e' := by
  induction ss generalizing d e with
  | nil => exact .inr ⟨d, e, rfl, rfl, h⟩
  | cons s ss ih =>
    rcases h.take s with ⟨x, hd, he⟩ | ⟨d', e', hd, he, still⟩
    · exact .inl ⟨_, follow_cons_error hd, follow_cons_error he⟩
    · rw [follow_cons_ok hd, follow_cons_ok he]
      rcases ih still with ⟨x, rd, re⟩ | ⟨d'', e'', rd, re, still⟩
      · rw [rd, re]
        exact .inl ⟨_, rfl, rfl⟩
      · rw [rd, re]
        exact .inr ⟨d'', e'', rfl, rfl, still⟩

theorem complete_eq (h : d.Resorted e) (ss : List Step) : d.complete ss = e.complete ss := by
  unfold complete
  rcases h.follow ss with ⟨x, hd, he⟩ | ⟨d', e', hd, he, still⟩
  · rw [hd, he]
  · rw [hd, he]
    dsimp only
    rw [still.build_eq]

end Resorted

/-- Takes the object unless it is a constant already. -/
def pushConstant (d : Draft) (v : { v : Value // v ≠ .null }) : Draft :=
  match d.addConstant v.1 v.2 with
  | .ok e => e
  | .error _ => d

theorem pushConstant_of_new {d : Draft} {v : { v : Value // v ≠ .null }}
    (new : v.1.identity? ∉ d.constants.map Value.identity?) :
    d.pushConstant v = { d with
      constants := d.constants ++ [v.1]
      constants_distinct := by simpa using nodup_concat d.constants_distinct new
      constants_not_null := by simp [d.constants_not_null, v.2.symm] } := by
  simp only [pushConstant, addConstant, dif_neg new]

theorem not_mem_of_nodup_map {f : α → β} {xs ys : List α}
    (h : ((xs ++ a :: ys).map f).Nodup) : f a ∉ xs.map f := by
  rw [List.map_append, List.map_cons] at h
  exact fun hx => (List.nodup_append.mp h).2.2 _ hx _ List.mem_cons_self rfl

theorem foldl_addCodec {d : Draft} (cs : List Codec)
    (new : ((d.codecs ++ cs).map Codec.id).Nodup) :
    cs.foldl addCodec d = { d with codecs := d.codecs ++ cs, codecs_distinct := new } := by
  induction cs generalizing d with
  | nil => exact ext_entries rfl (List.append_nil _).symm rfl rfl rfl
  | cons c cs ih =>
    rw [List.foldl_cons, addCodec_of_new (not_mem_of_nodup_map new)]
    have rest : (((d.codecs ++ [c]) ++ cs).map Codec.id).Nodup := by simpa using new
    exact (ih rest).trans (ext_entries rfl (List.append_assoc _ _ _) rfl rfl rfl)

theorem foldl_pushConstant {d : Draft} (vs : List { v : Value // v ≠ .null })
    (new : ((d.constants ++ vs.map Subtype.val).map Value.identity?).Nodup)
    (objects : .null ∉ d.constants ++ vs.map Subtype.val) :
    vs.foldl pushConstant d = { d with
      constants := d.constants ++ vs.map Subtype.val
      constants_distinct := new
      constants_not_null := objects } := by
  induction vs generalizing d with
  | nil => exact ext_entries rfl rfl (List.append_nil _).symm rfl rfl
  | cons v vs ih =>
    rw [List.foldl_cons, pushConstant_of_new (not_mem_of_nodup_map new)]
    have rest : (((d.constants ++ [v.1]) ++ vs.map Subtype.val).map Value.identity?).Nodup := by
      simpa using new
    have others : .null ∉ (d.constants ++ [v.1]) ++ vs.map Subtype.val := by
      simpa using objects
    exact (ih rest others).trans (ext_entries rfl rfl (List.append_assoc _ _ _) rfl rfl)

end Draft

namespace Registry

/-- The constants, as the objects that they are. -/
def objects (r : Registry) : List { v : Value // v ≠ .null } :=
  r.constants.pmap Subtype.mk fun _ h same => r.constants_not_null (same ▸ h)

theorem objects_val (r : Registry) : r.objects.map Subtype.val = r.constants := by
  simp only [objects, List.map_pmap, List.pmap_eq_map, List.map_id']

/-- A draft with the same switch, resolver and factory, and no entries. -/
def settings (r : Registry) : Draft :=
  ((Draft.empty.allow r.allowDefault).withResolver r.fallback.resolver).withFactory
    r.fallback.factory

/-- A draft with the same entries, registered anew one after the other. -/
def reopen (r : Registry) : Draft :=
  r.names.toList.foldl Draft.addName
    (r.objects.foldl Draft.pushConstant (r.codecs.foldl Draft.addCodec r.settings))

/-- No entry is lost on the way, and none is refused. -/
theorem reopen_eq (r : Registry) : r.reopen = r.toDraft := by
  have codecs : r.codecs.foldl Draft.addCodec r.settings =
      { r.settings with codecs := r.codecs, codecs_distinct := r.codecs_distinct } :=
    Draft.foldl_addCodec (d := r.settings) r.codecs r.codecs_distinct
  unfold reopen
  rw [Draft.foldl_addName, codecs, Draft.foldl_pushConstant]
  · refine Draft.ext_entries rfl rfl r.objects_val (Names.ext fun s => ?_) rfl
    rw [Names.mem_foldl_insert]
    exact ⟨fun h => h.resolve_left List.not_mem_nil, .inr⟩
  · exact r.objects_val ▸ r.constants_distinct
  · exact r.objects_val ▸ r.constants_not_null

theorem resorted_toDraft {d : Draft} (built : d.build = .ok r) : r.toDraft.Resorted d := by
  obtain ⟨allowed, codecs, constants, names, fallback⟩ := Draft.build_entries built
  refine ⟨allowed, ?_, constants, names, fallback⟩
  rw [codecs]
  exact Codec.sortByName_of_sorted (Codec.sortByName_sorted d.codecs)

/-- The draft of a registry is built into that registry, and whatever is done to it comes to the
same as if it were done to the draft that the registry was built from: the same registry in the
end, or the same error at the same step. The names, which have no tags while the fallback is
disabled, have tags again once it is allowed. -/
theorem reopening_keeps {d : Draft} {r : Registry} (built : d.build = .ok r) :
    r.reopen = r.toDraft ∧ r.reopen.build = .ok r ∧
    (∀ ss, r.reopen.complete ss = d.complete ss) ∧
    (d.allowDefault = false → r.layout.fallback = []) ∧
    ∃ s, (r.reopen.allow true).build = .ok s ∧
      s.layout.fallback = d.names.toList.mapIdx fun i name => ⟨s.fallbackTag i, name⟩ := by
  -- sorting once more changes nothing, so the two drafts differ in the order of codecs at most
  have same : r.reopen.Resorted d := r.reopen_eq ▸ resorted_toDraft built
  have again : r.reopen.build = .ok r := same.build_eq.trans built
  refine ⟨r.reopen_eq, again, same.complete_eq, fun hidden => ?_, ?_⟩
  · have allowed := (Draft.build_entries built).1
    simp only [layout, allowed, hidden, Bool.false_eq_true, if_false]
  · obtain ⟨s, hs⟩ := (Draft.build_ok_iff (r.reopen.allow true)).mpr
      ((Draft.build_ok_iff r.reopen).mp ⟨r, again⟩)
    obtain ⟨allowed, _, _, names, _⟩ := Draft.build_entries hs
    have names : s.names = d.names := names.trans same.names
    refine ⟨s, hs, ?_⟩
    simp only [layout, allowed, names, Draft.allow, if_true]

/-- A shape codec and a name that is hidden. A second shape codec is in the way of the first one
behind reopening as well, and a name that is there already is not. -/
theorem reopening_of_hidden_name :
    ∃ d r, d = ((Draft.empty.addCodec ⟨7, .shape⟩).addName "demo.Color").allow false ∧
      d.build = .ok r ∧ r.layout.fallback = [] ∧ r.reopen.build = .ok r ∧
      r.reopen.complete [.allow true, .codec ⟨9, .shape⟩] =
        .error (2, .conflictingClaims "demo.shapes.Shape") ∧
      ∃ s, (r.reopen.allow true).build = .ok s ∧
        s.layout.fallback = [⟨s.fallbackTag 0, "demo.Color"⟩] := by
  obtain ⟨d, drafted⟩ : ∃ d, d = ((Draft.empty.addCodec ⟨7, .shape⟩).addName
      "demo.Color").allow false := ⟨_, rfl⟩
  obtain ⟨r, built⟩ : ∃ r, d.build = .ok r := by
    cases drafted
    exact ⟨_, rfl⟩
  obtain ⟨_, again, later, hidden, s, hs, shown⟩ := reopening_keeps built
  refine ⟨d, r, drafted, built, hidden (drafted ▸ rfl), again, ?_, s, hs, ?_⟩
  · rw [later, drafted]
    rfl
  · rw [shown, drafted]
    rfl

end Registry

end TagCodec
