import TagCodec.Proofs.ConstantTable
import TagCodec.Proofs.Extension
import TagCodec.Proofs.Listing
import TagCodec.Proofs.Recovery

namespace TagCodec

open Steps

namespace Draft

/-- The objects that the steps are to register, the first one first. -/
def registered (ss : List Step) : List Value := ss.filterMap Step.constant?

theorem registered_cons (s : Step) (ss : List Step) :
    registered (s :: ss) = s.constant?.toList ++ registered ss := by
  cases s <;> rfl

variable {d e : Draft}

/-- Only an object that is a constant already is refused. -/
theorem addConstant_eq_error {object : v ≠ .null} : d.addConstant v object = .error x ↔
    x = .duplicateConstant v.debugText ∧ ∃ k ∈ d.constants, k.identity? = v.identity? := by
  by_cases known : v.identity? ∈ d.constants.map Value.identity?
  · have refused : d.addConstant v object = .error (.duplicateConstant v.debugText) := dif_pos known
    rw [refused, Except.error.injEq]
    exact ⟨fun same => ⟨same.symm, List.mem_map.mp known⟩, fun h => h.1.symm⟩
  · obtain ⟨e, added⟩ : ∃ e, d.addConstant v object = .ok e := ⟨_, dif_neg known⟩
    rw [added]
    exact ⟨nofun, fun h => absurd (List.mem_map.mpr h.2) known⟩

theorem constants_take (taken : d.take s = .ok e) :
    e.constants = d.constants ++ s.constant?.toList := by
  cases s with
  | constant v object =>
    simp only [Draft.take, addConstant] at taken
    split at taken <;> cases taken
    rfl
  | codec c =>
    cases taken
    rw [addCodec]
    split <;> exact (List.append_nil _).symm
  | config c =>
    cases taken
    simp only [withConfig, foldl_addName, allow]
    exact (List.append_nil _).symm
  | _ =>
    cases taken
    exact (List.append_nil _).symm

theorem constants_follow {ss : List Step} (followed : d.follow ss = .ok e) :
    e.constants = d.constants ++ registered ss := by
  induction ss generalizing d with
  | nil =>
    cases followed
    exact (List.append_nil _).symm
  | cons s ss ih =>
    obtain ⟨m, taken, rest⟩ := follow_cons_eq_ok followed
    rw [ih rest, constants_take taken, List.append_assoc, registered_cons]

/-- Steps come to an end if they register no object twice, and none that was there before. -/
theorem follow_ok_iff (d : Draft) (ss : List Step) : (∃ e, d.follow ss = .ok e) ↔
    ((d.constants ++ registered ss).map Value.identity?).Nodup := by
  constructor
  · rintro ⟨e, followed⟩
    rw [← constants_follow followed]
    exact e.constants_distinct
  · intro distinct
    induction ss generalizing d with
    | nil => exact ⟨d, rfl⟩
    | cons s ss ih =>
      have taken : ∃ m, d.take s = .ok m := by
        cases s with
        | constant v object => exact ⟨_, dif_neg (not_mem_of_nodup_map distinct)⟩
        | _ => exact ⟨_, rfl⟩
      obtain ⟨m, taken⟩ := taken
      have rest : ((m.constants ++ registered ss).map Value.identity?).Nodup := by
        rw [constants_take taken, List.append_assoc, ← registered_cons]
        exact distinct
      obtain ⟨e, followed⟩ := ih m rest
      rw [follow_cons_ok taken, followed]
      exact ⟨e, rfl⟩

end Draft

namespace Registry

variable {r : Registry}

theorem constantTag_iff {v : Value} : r.constantTag? v = some t ↔
    ∃ i k, r.constants[i]? = some k ∧ k.identity? = v.identity? ∧ t = r.constantTag i := by
  constructor
  · exact constantTag_eq_some
  · rintro ⟨i, k, mine, same, rfl⟩
    obtain ⟨t, registered⟩ := constantTag_of_same mine same
    obtain ⟨j, l, theirs, alike, rfl⟩ := constantTag_eq_some registered
    rw [constant_unique mine theirs (same.trans alike.symm)]
    exact registered

theorem constantTag_eq_none_iff {v : Value} : r.constantTag? v = none ↔
    ∀ k ∈ r.constants, k.identity? ≠ v.identity? := by
  constructor
  · intro other k hk
    obtain ⟨i, mine⟩ := List.mem_iff_getElem?.mp hk
    exact not_constant mine other
  · intro foreign
    cases registered : r.constantTag? v with
    | none => rfl
    | some t =>
      obtain ⟨i, k, mine, same, _⟩ := constantTag_eq_some registered
      exact absurd same (foreign k (List.mem_of_getElem? mine))

/-- The tags of constants lie behind those of the codecs. -/
theorem constantAt_isSome_iff : (∃ v, r.constantAt? t = some v) ↔
    r.codecs.length < t.toInt ∧ t.toInt ≤ r.codecs.length + r.constants.length := by
  simp only [constantAt_eq_some]
  constructor
  · rintro ⟨v, i, ⟨inside, tag⟩, _⟩
    omega
  · rintro ⟨lower, upper⟩
    have inside : (t.toInt - r.codecs.length - 1).toNat < r.constants.length := by omega
    exact ⟨_, _, ⟨inside, by omega⟩, List.getElem?_eq_getElem inside⟩

theorem constantTag_iff_constantAt {v : Value} : r.constantTag? v = some t ↔
    ∃ k, r.constantAt? t = some k ∧ k.identity? = v.identity? := by
  rw [constantTag_iff]
  constructor
  · rintro ⟨i, k, mine, same, rfl⟩
    exact ⟨k, constantAt_constantTag mine, same⟩
  · rintro ⟨k, found, same⟩
    obtain ⟨i, assigned, mine⟩ := (r.constantAt_eq_some t k).mp found
    exact ⟨i, k, mine, same, (assigns_constant_iff.mp assigned).2.symm⟩

/-- What is no constant is looked up by its class, and its payload comes behind the tag. -/
theorem write_other {v : Value} (object : v.cls? = some c) (other : r.constantTag? v = none) :
    r.write v = (do
      let b ← Encode.lookup (r.resolve c)
      Encode.emit (.tag b.tag)
      r.writePayload b.format v) := by
  have tag : r.writeTag v = (do
      let b ← Encode.lookup (r.resolve c)
      Encode.emit (.tag b.tag)
      return some b.format) := by
    simp only [writeTag, object, other]
  cases v with
  | null => cases object
  | leaf addr x =>
    simp only [write, tag, bind_assoc, pure_bind]
    rfl
  | pair addr left right =>
    simp only [write, tag, bind_assoc, pure_bind]
    rfl

/-- What a registry makes of its constants `cs`. Their tags come behind those of the codecs, in this
order, and lead to the same object again. Whatever has the identity of a constant is written as the
tag alone and read as that constant, and nothing else is: an object of another address or of another
type goes by its class. -/
structure Identifies (r : Registry) (cs : List Value) : Prop where
  numbered : ∀ (i : Nat) k, cs[i]? = some k → ∃ t : Tag, t.toInt = r.codecs.length + (i + 1) ∧
    r.constantTag? k = some t ∧ r.constantAt? t = some k
  range : ∀ t, (∃ k, r.constantAt? t = some k) ↔
    r.codecs.length < t.toInt ∧ t.toInt ≤ r.codecs.length + cs.length
  bijection : ∀ v t, r.constantTag? v = some t ↔
    (r.codecs.length < t.toInt ∧ t.toInt ≤ r.codecs.length + cs.length) ∧
      ∃ k, r.constantAt? t = some k ∧ k.identity? = v.identity?
  table : (∀ v, r.constantTable.tagFor? v = r.constantTag? v) ∧
    ∀ t, r.constantTable.valueFor? t = r.constantAt? t
  foreign : ∀ v c, v.cls? = some c → (∀ k ∈ cs, k.identity? ≠ v.identity?) →
    r.constantTag? v = none ∧ r.write v = (do
      let b ← Encode.lookup (r.resolve c)
      Encode.emit (.tag b.tag)
      r.writePayload b.format v)
  written : ∀ v, ∀ k ∈ cs, k.identity? = v.identity? → ∃ t, r.constantTag? v = some t ∧
    ∀ s, r.write v s = .ok () { s with out := s.out.put (.tag t) }
  read : ∀ k ∈ cs, ∀ t, r.constantTag? k = some t → ∀ room s pos rest,
    s.input = .facing pos ((Item.tag t).encode ++ rest) →
    r.readWithin room s = .ok k { s with
      input := .facing (pos + (Item.tag t).encode.length) rest }
  /-- A value is written as such bytes, in which constants are bare tags at any depth, unless the
  write fails, which it does only if there are none. -/
  nested : ∀ v out m, r.Leads r.start m →
    (∀ s, r.write v ⟨out, m⟩ = .ok () s →
      ∃ bs, r.Writes v bs ∧ s.out.toList = out.toList ++ bs) ∧
    ∀ bs, r.Writes v bs →
      ∃ s, r.write v ⟨out, m⟩ = .ok () s ∧ s.out.toList = out.toList ++ bs
  /-- Whatever is around these bytes, they are read exactly when there is room for the payloads in
  them and each content can be recovered, and then the constants are in their places again. -/
  restored : ∀ v bs, r.Writes v bs → ∀ m, r.Leads r.start m → ∀ room depth fresh pos rest,
    ((∃ w s, r.readWithin room ⟨.facing pos (bs ++ rest), depth, fresh, m⟩ = .ok w s) ↔
      r.AllCoded r.Recovers v ∧ r.payloadDepth v ≤ room) ∧
    ∀ w s, r.readWithin room ⟨.facing pos (bs ++ rest), depth, fresh, m⟩ = .ok w s →
      r.Restores v w ∧ s.input = .facing (pos + bs.length) rest

theorem identifies_constants (r : Registry) : r.Identifies r.constants where
  numbered i k mine := by
    have inside := (List.getElem?_eq_some_iff.mp mine).1
    exact ⟨r.constantTag i, by rw [toInt_constantTag inside]; omega,
      constantTag_iff.mpr ⟨i, k, mine, rfl, rfl⟩, constantAt_constantTag mine⟩
  range t := constantAt_isSome_iff
  bijection v t := by
    rw [constantTag_iff_constantAt]
    constructor
    · rintro ⟨k, found, same⟩
      exact ⟨constantAt_isSome_iff.mp ⟨k, found⟩, k, found, same⟩
    · exact fun h => h.2
  table := ⟨r.tagFor_eq, r.valueFor_eq⟩
  foreign v c object foreign := by
    have other := constantTag_eq_none_iff.mpr foreign
    exact ⟨other, write_other object other⟩
  written v k hk same := by
    obtain ⟨i, mine⟩ := List.mem_iff_getElem?.mp hk
    obtain ⟨t, registered⟩ := constantTag_of_same mine same
    have object : v ≠ .null := fun null => constant_ne_null mine (null ▸ same)
    exact ⟨t, registered, write_constant object registered⟩
  read k hk t registered room s pos rest faces := by
    obtain ⟨i, l, mine, same, rfl⟩ := constantTag_iff.mp registered
    obtain ⟨j, place⟩ := List.mem_iff_getElem?.mp hk
    cases constant_unique mine place same
    cases mine.symm.trans place
    exact readWithin_value (readTag_of_constant mine faces) room
  nested v out m reached := by
    refine ⟨fun s written => ?_, fun bs writes => writes.written reached out⟩
    obtain ⟨bs, writes, bytes, _⟩ := writes_of_write reached.sound written
    exact ⟨bs, writes, bytes⟩
  restored v bs writes m reached room depth fresh pos rest := by
    refine ⟨writes.read_iff reached.sound rfl room, fun w s read => ?_⟩
    obtain ⟨restored, place, _⟩ := writes.spells.restored reached.sound rfl read
    exact ⟨restored, place⟩

/-- A draft refuses an object as a constant if the same object is one already, and only then,
whatever else was registered in between. A set of identities kept to find out is in step with the
list all the way, also where a registry was reopened. The registry built in the end numbers the
constants as they came and tells them by their identity. -/
theorem constants_by_identity (d : Draft) (ss : List Draft.Step) :
    ((∃ e, d.follow ss = .ok e) ↔
      ((d.constants ++ Draft.registered ss).map Value.identity?).Nodup) ∧
    (Roll.empty.InStep .empty ∧ ∀ r : Registry, r.reopen.constants = r.constants ∧
      (r.constants.foldl Roll.push .empty).InStep r.reopen) ∧
    (∀ x : Roll, x.InStep d → (∃ z, x.follow ss = .error z ∧ d.follow ss = .error z) ∨
      ∃ y e, x.follow ss = .ok y ∧ d.follow ss = .ok e ∧ y.InStep e) ∧
    ∀ e, d.follow ss = .ok e →
      e.constants = d.constants ++ Draft.registered ss ∧
      (∀ v object x, e.addConstant v object = .error x ↔
        x = .duplicateConstant v.debugText ∧
          ∃ k ∈ d.constants ++ Draft.registered ss, k.identity? = v.identity?) ∧
      ∀ r, e.build = .ok r → r.Identifies (d.constants ++ Draft.registered ss) := by
  refine ⟨d.follow_ok_iff ss, ⟨.empty, fun r => ⟨?_, .reopen r⟩⟩, fun x h => h.follow ss, ?_⟩
  · rw [r.reopen_eq]
  · intro e followed
    have constants := Draft.constants_follow followed
    rw [← constants]
    refine ⟨rfl, fun v object x => Draft.addConstant_eq_error, fun r built => ?_⟩
    rw [← (Draft.build_entries built).2.2.1]
    exact r.identifies_constants

/-- A label and a holder are constants. A label with the same text at another address is none, nor
is the point at the address of the holder, and either could be added, while the label itself is
refused. Inside a pair of pairs, the two constants are bare tags around the point and come back as
what they are. -/
theorem twin_and_inner_point :
    ∃ e r, Draft.empty.follow [.codec ⟨0, .pair⟩, .constant (.leaf 3 (.label "a")) (by simp),
        .name "demo.Color", .codec ⟨1, .point⟩,
        .constant (.leaf 5 (.holder ⟨0, 0⟩)) (by simp)] = .ok e ∧ e.build = .ok r ∧
      e.addConstant (.leaf 3 (.label "a")) (by simp) =
        .error (.duplicateConstant "Label(\"a\")") ∧
      (∀ x, e.addConstant (.leaf 4 (.label "a")) (by simp) ≠ .error x) ∧
      (∀ x, e.addConstant (.leaf 5 (.point ⟨0, 0⟩)) (by simp) ≠ .error x) ∧
      r.constantTag? (.leaf 4 (.label "a")) = none ∧
      r.constantTag? (.leaf 5 (.point ⟨0, 0⟩)) = none ∧
      (∃ t, t.toInt = 4 ∧ r.constantTag? (.leaf 5 (.holder ⟨0, 0⟩)) = some t ∧
        r.constantAt? t = some (.leaf 5 (.holder ⟨0, 0⟩))) ∧
      ∃ v s w t, v = .pair 10 (.leaf 5 (.holder ⟨0, 0⟩))
          (.pair 11 (.leaf 5 (.point ⟨0, 0⟩)) (.leaf 3 (.label "a"))) ∧
        r.write v ⟨.empty, r.start⟩ = .ok () s ∧ s.out.toList = [2, 8, 2, 4, 0, 0, 6] ∧
        r.readWithin 3 ⟨.facing 0 ([2, 8, 2, 4, 0, 0, 6] ++ [9]), 0, 20, r.start⟩ = .ok w t ∧
        w = .pair 22 (.leaf 5 (.holder ⟨0, 0⟩))
          (.pair 21 (.leaf 20 (.point ⟨0, 0⟩)) (.leaf 3 (.label "a"))) ∧
        r.Restores v w ∧ t.input = .facing 7 [9] := by
  obtain ⟨ss, steps⟩ : ∃ ss : List Draft.Step, ss = [.codec ⟨0, .pair⟩,
    .constant (.leaf 3 (.label "a")) (by simp), .name "demo.Color", .codec ⟨1, .point⟩,
    .constant (.leaf 5 (.holder ⟨0, 0⟩)) (by simp)] := ⟨_, rfl⟩
  obtain ⟨_, _, _, all⟩ := constants_by_identity .empty ss
  have constants : Draft.empty.constants ++ Draft.registered ss =
      [.leaf 3 (.label "a"), .leaf 5 (.holder ⟨0, 0⟩)] := by
    rw [steps]
    rfl
  rw [constants] at all
  obtain ⟨e, followed⟩ : ∃ e, Draft.empty.follow ss = .ok e := by
    rw [steps]
    exact ⟨_, rfl⟩
  obtain ⟨r, built⟩ : ∃ r, e.build = .ok r := by
    rw [steps] at followed
    cases followed
    exact ⟨_, rfl⟩
  obtain ⟨_, refused, identified⟩ := all e followed
  have identifies := identified r built
  obtain ⟨_, _, first, _⟩ := identifies.numbered 0 _ rfl
  obtain ⟨t, tag, registered, found⟩ := identifies.numbered 1 _ rfl
  have twin := (identifies.foreign (.leaf 4 (.label "a")) _ rfl (by decide)).1
  have inner := (identifies.foreign (.leaf 5 (.point ⟨0, 0⟩)) _ rfl (by decide)).1
  rw [steps] at followed
  obtain ⟨v, hv⟩ : ∃ v : Value, v = .pair 10 (.leaf 5 (.holder ⟨0, 0⟩))
    (.pair 11 (.leaf 5 (.point ⟨0, 0⟩)) (.leaf 3 (.label "a"))) := ⟨_, rfl⟩
  obtain ⟨s, written, out⟩ : ∃ s, r.write v ⟨.empty, r.start⟩ = .ok () s ∧
      s.out.toList = [2, 8, 2, 4, 0, 0, 6] := by
    cases followed
    cases built
    rw [hv]
    exact ⟨_, rfl, by decide +kernel⟩
  obtain ⟨bs, writes, bytes⟩ := (identifies.nested v .empty r.start .start).1 s written
  rw [out] at bytes
  cases bytes
  obtain ⟨complete, restored⟩ := identifies.restored v _ writes r.start .start 3 0 20 0 [9]
  have recovers : r.AllCoded r.Recovers v := by
    rw [hv]
    refine fun _ => ⟨allCoded_of_constant registered _, fun _ => ⟨fun _ b _ => ?_, ?_⟩⟩
    · exact (Format.recovers_of_plain (by simp) b.format).mpr ⟨rfl, trivial⟩
    · exact allCoded_of_constant first _
  have shallow : r.payloadDepth v ≤ 3 := by
    rw [hv]
    cases followed
    cases built
    decide +kernel
  obtain ⟨w, u, read⟩ := complete.mpr ⟨recovers, shallow⟩
  have made : r.readWithin 3 ⟨.facing 0 ([2, 8, 2, 4, 0, 0, 6] ++ [9]), 0, 20, r.start⟩ =
      .ok (.pair 22 (.leaf 5 (.holder ⟨0, 0⟩)) (.pair 21 (.leaf 20 (.point ⟨0, 0⟩))
        (.leaf 3 (.label "a")))) ⟨.facing 7 [9], 0, 23, r.start⟩ := by
    cases followed
    cases built
    decide +kernel
  obtain ⟨same, place⟩ := restored w u read
  refine ⟨e, r, followed, built, (refused _ _ _).mpr ⟨by decide, by decide⟩, ?_, ?_, twin, inner,
    ⟨t, ?_, registered, found⟩, v, s, w, u, hv, written, out, read, ?_, same, place⟩
  · exact fun x h => absurd ((refused _ _ x).mp h).2 (by decide)
  · exact fun x h => absurd ((refused _ _ x).mp h).2 (by decide)
  · cases followed
    cases built
    exact tag
  · cases made.symm.trans read
    rfl

end Registry

end TagCodec
