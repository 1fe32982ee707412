import TagCodec.Proofs.Reopening
import TagCodec.Proofs.TagMeaning

namespace TagCodec

/-- The constants registered so far, and the identities that were met. -/
structure Roll where
  met : List (Option Identity)
  values : List Value

namespace Roll

def empty : Roll := ⟨[], []⟩

/-- Puts an identity down that was not met before, and then the value behind the others. -/
def enter? (x : Roll) (v : Value) : Option Roll :=
  if x.met.contains v.identity? then none else some ⟨v.identity? :: x.met, x.values ++ [v]⟩

/-- Refuses a value whose identity was met before. -/
def add (x : Roll) (v : Value) : Except DraftError Roll :=
  match x.enter? v with
  | some y => .ok y
  | none => .error (.duplicateConstant v.debugText)

/-- Passes over a value whose identity was met before. -/
def push (x : Roll) (v : Value) : Roll := (x.enter? v).getD x

/-- Only constants are put down. -/
def take (x : Roll) : Draft.Step → Except DraftError Roll
  | .constant v _ => x.add v
  | _ => .ok x

/-- An error comes with the number of steps in front of the one that failed. -/
def follow (x : Roll) : List Draft.Step → Except (Nat × DraftError) Roll
  | [] => .ok x
  | s :: ss =>
    match x.take s with
    | .ok y => (y.follow ss).mapError fun (i, e) => (i + 1, e)
    | .error e => .error (0, e)

/-- List and set are those of the constants of the draft. -/
structure InStep (x : Roll) (d : Draft) : Prop where
  values : x.values = d.constants
  met : ∀ i, i ∈ x.met ↔ i ∈ d.constants.map Value.identity?

namespace InStep

variable {x : Roll} {d e : Draft}

theorem empty : Roll.empty.InStep .empty := ⟨rfl, fun _ => .rfl⟩

theorem of_constants (h : x.InStep d) (same : e.constants = d.constants) : x.InStep e :=
  ⟨h.values.trans same.symm, same.symm ▸ h.met⟩

/-- A value is refused by both, or is put down by both. -/
theorem enter (h : x.InStep d) (v : Value) (object : v ≠ .null) :
    (x.enter? v = none ∧ d.addConstant v object = .error (.duplicateConstant v.debugText)) ∨
    ∃ y e, x.enter? v = some y ∧ d.addConstant v object = .ok e ∧ y.InStep e := by
  by_cases known : v.identity? ∈ d.constants.map Value.identity?
  · exact .inl ⟨if_pos (List.contains_iff_mem.mpr ((h.met _).mpr known)), dif_pos known⟩
  · have new : ¬ x.met.contains v.identity? := fun met =>
      known ((h.met _).mp (List.contains_iff_mem.mp met))
    refine .inr ⟨_, _, if_neg new, dif_neg known, ?_, fun i => ?_⟩
    · exact congrArg (· ++ [v]) h.values
    · simp only [List.mem_cons, h.met, List.map_append, List.mem_append, List.map_cons,
        List.map_nil, List.not_mem_nil, or_false]
      exact or_comm

theorem take (h : x.InStep d) (s : Draft.Step) :
    (∃ z, x.take s = .error z ∧ d.take s = .error z) ∨
    ∃ y e, x.take s = .ok y ∧ d.take s = .ok e ∧ y.InStep e := by
  cases s with
  | constant v object =>
    rcases h.enter v object with ⟨refused, failed⟩ | ⟨y, e, entered, added, still⟩
    · exact .inl ⟨_, by rw [Roll.take, add, refused], failed⟩
    · exact .inr ⟨y, e, by rw [Roll.take, add, entered], added, still⟩
  | codec c =>
    refine .inr ⟨x, _, rfl, rfl, h.of_constants ?_⟩
    unfold Draft.addCodec
    split <;> rfl
  | config c =>
    refine .inr ⟨x, _, rfl, rfl, h.of_constants ?_⟩
    simp only [Draft.withConfig, Draft.foldl_addName, Draft.allow]
  | _ => exact .inr ⟨x, _, rfl, rfl, h.of_constants rfl⟩

theorem follow (h : x.InStep d) (ss : List Draft.Step) :
    (∃ z, x.follow ss = .error z ∧ d.follow ss = .error z) ∨
    ∃ y e, x.follow ss = .ok y ∧ d.follow ss = .ok e ∧ y.InStep e := by
  induction ss generalizing x d with
  | nil => exact .inr ⟨x, d, rfl, rfl, h⟩
  | cons s ss ih =>
    simp only [Roll.follow, Draft.follow]
    rcases h.take s with ⟨z, hx, hd⟩ | ⟨y, e, hx, hd, still⟩
    · rw [hx, hd]
      exact .inl ⟨_, rfl, rfl⟩
    · rw [hx, hd]
      dsimp only
      rcases ih still with ⟨z, rx, rd⟩ | ⟨y', e', rx, rd, still⟩
      · rw [rx, rd]
        exact .inl ⟨_, rfl, rfl⟩
      · rw [rx, rd]
        exact .inr ⟨y', e', rfl, rfl, still⟩

theorem push (h : x.InStep d) (v : { v : Value // v ≠ .null }) :
    (x.push v.1).InStep (d.pushConstant v) := by
  unfold Roll.push Draft.pushConstant
  rcases h.enter v.1 v.2 with ⟨refused, failed⟩ | ⟨y, e, entered, added, still⟩
  · rw [refused, failed]
    exact h
  · rw [entered, added]
    exact still

theorem foldl_push (h : x.InStep d) (vs : List { v : Value // v ≠ .null }) :
    ((vs.map Subtype.val).foldl Roll.push x).InStep (vs.foldl Draft.pushConstant d) := by
  induction vs generalizing x d with
  | nil => exact h
  | cons v vs ih => exact ih (h.push v)

/-- The constants of a registry that is reopened are put down anew. -/
theorem reopen (r : Registry) : (r.constants.foldl Roll.push .empty).InStep r.reopen := by
  have codecs : (r.codecs.foldl Draft.addCodec r.settings).constants = [] := by
    rw [Draft.foldl_addCodec (d := r.settings) r.codecs r.codecs_distinct]
    rfl
  have put := foldl_push (empty.of_constants (e := r.codecs.foldl Draft.addCodec r.settings) codecs)
    r.objects
  rw [r.objects_val] at put
  refine put.of_constants ?_
  unfold Registry.reopen
  rw [Draft.foldl_addName]

end InStep

end Roll

/-- The constants of a registry under the tags from `start` on, and the tag for each identity. -/
structure ConstantTable where
  start : Tag
  tags : List (Option Identity × Tag)
  values : List Value

namespace ConstantTable

/-- Where an identity comes twice, the later tag would count. -/
def ofList (start : Tag) (vs : List Value) : ConstantTable :=
  ⟨start, (vs.mapIdx fun i v => (v.identity?, start.offset i)).reverse, vs⟩

def tagFor? (x : ConstantTable) (v : Value) : Option Tag := x.tags.lookup v.identity?

/-- How far the tag is behind the first has to be a number of 32 bits that is not negative. -/
def valueFor? (x : ConstantTable) (t : Tag) : Option Value :=
  let n := t.toInt - x.start.toInt
  if 0 ≤ n ∧ n < 0x80000000 then x.values[n.toNat]? else none

end ConstantTable

theorem lookup_of_mem [BEq α] [LawfulBEq α] {ps : List (α × β)} (distinct : (ps.map Prod.fst).Nodup)
    (h : (a, b) ∈ ps) : ps.lookup a = some b := by
  induction ps with
  | nil => cases h
  | cons p ps ih =>
    rw [List.map_cons, List.nodup_cons] at distinct
    rcases List.mem_cons.mp h with rfl | later
    · exact List.lookup_cons_self
    · have other : a ≠ p.1 := by
        rintro rfl
        exact distinct.1 (List.mem_map.mpr ⟨_, later, rfl⟩)
      rw [List.lookup_cons, beq_false_of_ne other]
      exact ih distinct.2 later

namespace Registry

theorem tagAt_offset (h : c < 0x7FFFFFFF) (i : Nat) : (tagAt c).offset i = tagAt (c + i) := by
  have first : Tag.first.toInt = 1 := by decide
  rw [Tag.offset, toInt_tagAt h, tagAt, Tag.offset, first]
  congr 1
  omega

/-- The constants behind the codecs. -/
def constantTable (r : Registry) : ConstantTable := .ofList (tagAt r.codecs.length) r.constants

theorem constantTable_tags (r : Registry) : r.constantTable.tags =
    (r.constants.mapIdx fun i v => (v.identity?, r.constantTag i)).reverse := by
  have := r.fits_int
  have tags : (tagAt r.codecs.length).offset = r.constantTag :=
    funext fun i => tagAt_offset (by omega) i
  rw [constantTable, ConstantTable.ofList, tags]

/-- No entry of the map was lost for another one. -/
theorem constantTable_distinct (r : Registry) : (r.constantTable.tags.map Prod.fst).Nodup := by
  have identities : (r.constants.mapIdx fun i v => (v.identity?, r.constantTag i)).map Prod.fst =
      r.constants.map Value.identity? :=
    List.ext_getElem (by simp) (by simp)
  rw [constantTable_tags, List.map_reverse, identities]
  exact (List.reverse_perm _).nodup_iff.mpr r.constants_distinct

theorem tagFor_eq (r : Registry) (v : Value) : r.constantTable.tagFor? v = r.constantTag? v := by
  unfold constantTag? ConstantTable.tagFor?
  cases found : r.constants.findIdx? fun k => k.identity? == v.identity? with
  | some i =>
    obtain ⟨inside, same, _⟩ := List.findIdx?_eq_some_iff_getElem.mp found
    refine lookup_of_mem r.constantTable_distinct ?_
    rw [constantTable_tags, List.mem_reverse, ← eq_of_beq same]
    exact List.mem_mapIdx.mpr ⟨i, inside, rfl⟩
  | none =>
    refine List.lookup_eq_none_iff.mpr ?_
    rw [constantTable_tags]
    intro p hp
    obtain ⟨i, inside, rfl⟩ := List.mem_mapIdx.mp (List.mem_reverse.mp hp)
    have differs := List.findIdx?_eq_none_iff.mp found _ (List.getElem_mem inside)
    rw [bne_iff_ne]
    exact fun same => ne_of_beq_false differs same.symm

theorem valueFor_eq (r : Registry) (t : Tag) :
    r.constantTable.valueFor? t = r.constantAt? t := by
  have := r.fits_int
  have start : r.constantTable.start.toInt = r.codecs.length + 1 := toInt_tagAt (by omega)
  refine Option.ext fun v => ?_
  rw [constantAt_eq_some, ConstantTable.valueFor?, start]
  constructor
  · intro found
    split at found
    · rename_i inside
      have place := (List.getElem?_eq_some_iff.mp found).1
      change _ < r.constants.length at place
      exact ⟨_, ⟨place, by omega⟩, found⟩
    · cases found
  · rintro ⟨i, ⟨inside, tag⟩, found⟩
    have number : (t.toInt - (r.codecs.length + 1)).toNat = i := by omega
    rw [if_pos (by omega), number]
    exact found

end Registry

end TagCodec
