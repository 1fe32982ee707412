import TagCodec.Proofs.ConstantTable
import TagCodec.Proofs.Listing

namespace TagCodec

open Steps

/-- The listed names in their order under the tags from some tag on, with what makes the codecs. -/
structure NameTable where
  entries : List Entry
  fallback : Fallback

namespace NameTable

def ofList (start : Tag) (names : List String) (b : Fallback) : NameTable :=
  ⟨names.mapIdx fun i name => ⟨start.offset i, name⟩, b⟩

/-- Where the name stands among the entries from `lo` up to the one in front of `hi`. The entry in the
middle tells in which half it can be. -/
def search (es : List Entry) (name : String) (lo hi : Nat) : Option Nat :=
  if lo < hi then
    let mid := lo + (hi - lo) / 2
    match es[mid]? with
    | some e =>
      if e.name < name then search es name (mid + 1) hi
      else if name < e.name then search es name lo mid
      else some mid
    | none => none
  else none
termination_by hi - lo

def nameAt? (x : NameTable) (i : Nat) : Option String := x.entries[i]?.map Entry.name

def codec (x : NameTable) (e : Entry) : Lookup Binding := do
  let f ← x.fallback.get e.name e.tag
  return ⟨e.tag, f, none⟩

def get (x : NameTable) (name : String) : Lookup Binding :=
  match search x.entries name 0 x.entries.length >>= fun i => x.entries[i]? with
  | some e => x.codec e
  | none => throw (.notListed name)

variable {es : List Entry} {name : String} {lo hi : Nat}

/-- Only a place of the name is ever told. -/
theorem name_of_search (found : search es name lo hi = some i) :
    ∃ e, es[i]? = some e ∧ e.name = name := by
  fun_induction search es name lo hi with
  | case1 lo hi inside mid e here smaller ih => exact ih found
  | case2 lo hi inside mid e here _ larger ih => exact ih found
  | case3 lo hi inside mid e here notSmaller notLarger =>
    rw [← Option.some.inj found]
    exact ⟨e, here, Std.le_antisymm (String.not_lt.mp notLarger) (String.not_lt.mp notSmaller)⟩
  | case4 => cases found
  | case5 => cases found

/-- A name that stands between the bounds is found, since the half that is left out holds only
names on the other side of the middle. -/
theorem search_of_name (sorted : es.Pairwise fun a b => a.name < b.name)
    (here : es[i]? = some e) (lower : lo ≤ i) (upper : i < hi) (inside : hi ≤ es.length) :
    search es e.name lo hi = some i := by
  have before {j k : Nat} {a b : Entry} (less : j < k) (ha : es[j]? = some a)
      (hb : es[k]? = some b) : a.name < b.name := by
    obtain ⟨_, rfl⟩ := List.getElem?_eq_some_iff.mp ha
    obtain ⟨_, rfl⟩ := List.getElem?_eq_some_iff.mp hb
    exact List.pairwise_iff_getElem.mp sorted j k _ _ less
  fun_induction search es e.name lo hi with
  | case1 lo hi _ mid m middle smaller ih =>
    refine ih (Nat.lt_of_not_le fun le => ?_) upper inside
    rcases Nat.lt_or_eq_of_le le with less | same
    · exact Std.lt_irrefl (String.lt_trans smaller (before less here middle))
    · cases here.symm.trans (same ▸ middle)
      exact Std.lt_irrefl smaller
  | case2 lo hi _ mid m middle _ larger ih =>
    refine ih lower (Nat.lt_of_not_le fun le => ?_) (by omega)
    rcases Nat.lt_or_eq_of_le le with less | same
    · exact Std.lt_irrefl (String.lt_trans larger (before less middle here))
    · cases here.symm.trans (same ▸ middle)
      exact Std.lt_irrefl larger
  | case3 lo hi _ mid m middle notSmaller notLarger =>
    rcases Nat.lt_trichotomy mid i with less | same | less
    · exact absurd (before less middle here) notSmaller
    · exact congrArg some same
    · exact absurd (before less here middle) notLarger
  | case4 lo hi _ mid missing =>
    have := List.getElem?_eq_none_iff.mp missing
    omega
  | case5 => omega

/-- The search by halves tells what counting from the front would. -/
theorem search_ofList (start : Tag) (ns : Names) (b : Fallback) (name : String) :
    search (ofList start ns.toList b).entries name 0 (ofList start ns.toList b).entries.length =
      ns.index? name := by
  have entry (i : Nat) : (ofList start ns.toList b).entries[i]? =
      ns.toList[i]?.map fun name => ⟨start.offset i, name⟩ :=
    List.getElem?_mapIdx
  cases listed : ns.index? name with
  | some i =>
    have here := entry i
    rw [Names.get_of_index listed, Option.map_some] at here
    have inside := (List.getElem?_eq_some_iff.mp here).1
    refine search_of_name ?_ here (Nat.zero_le i) inside (Nat.le_refl _)
    refine List.pairwise_iff_getElem.mpr fun j k _ _ less => ?_
    simp only [ofList, List.getElem_mapIdx]
    exact List.pairwise_iff_getElem.mp ns.sorted j k _ _ less
  | none =>
    refine Option.eq_none_iff_forall_ne_some.mpr fun i found => ?_
    obtain ⟨e, here, rfl⟩ := name_of_search found
    rw [entry i] at here
    obtain ⟨name, place, rfl⟩ := Option.map_eq_some_iff.mp here
    exact List.idxOf?_eq_none_iff.mp listed (List.mem_of_getElem? place)

end NameTable

/-- The tables that a registry is made of. -/
structure Tables where
  allowDefault : Bool
  index : ClassIndex
  constants : ConstantTable
  names : NameTable

/-- The constants are numbered from where the codecs end, and the names from where the constants
end. -/
def Draft.tables (d : Draft) : Except DraftError Tables :=
  if d.size ≤ capacity then
    match ClassIndex.allocate d.codecs with
    | .ok index =>
      let constants := ConstantTable.ofList (Tag.first.offset index.table.length) d.constants
      let start := constants.start.offset constants.values.length
      .ok ⟨d.allowDefault, index, constants, .ofList start d.names.toList d.fallback⟩
    | .error cls => .error (.conflictingClaims cls)
  else .error (.tooLarge d.size)

/-- A positive tag is one more than the entries in front of its own. -/
theorem Tag.toNat_pred {t : Tag} (positive : 0 < t.toInt) :
    (t.val - 1).toNatClampNeg = (t.toInt - 1).toNat := by
  have one : (1 : Int32).toInt = 1 := by decide
  have upper := Int32.toInt_lt t.val
  have exact : (t.val - 1).toInt = t.val.toInt - 1 := by
    rw [Int32.toInt_sub, one]
    exact Int.bmod_eq_of_le (by simp only [Tag.toInt] at positive; omega) (by omega)
  exact congrArg Int.toNat exact

/-- Nothing if the difference would be negative. -/
def checkedSub (a b : Nat) : Option Nat := if b ≤ a then some (a - b) else none

namespace Tables

def resolve (x : Tables) (c : Class) : Lookup Binding :=
  match c.ancestry.findSome? fun a => x.index.find? a.name with
  | some b => return b
  | none =>
    if x.allowDefault then x.names.get (if c.isEnum then c.declaring else c).name
    else throw (.fallbackDisabled c.name)

/-- The name whose entry has so many entries of all kinds in front of it. -/
def nameBehind? (x : Tables) (i : Nat) : Option String :=
  (checkedSub i (x.index.table.length + x.constants.values.length)).filter
    (fun _ => x.allowDefault) >>= x.names.nameAt?

def resolveTag (x : Tables) (t : Tag) : Lookup Binding :=
  if t.val ≤ 0 then throw (.unknownTag t)
  else
    let i := (t.val - 1).toNatClampNeg
    match x.index.table[i]? with
    | some b => return b
    | none =>
      match x.nameBehind? i with
      | some name => x.names.get name
      | none => throw (.unknownTag t)

def layout (x : Tables) : Layout where
  allowDefault := x.allowDefault
  explicit := x.index.table.map fun b => ⟨b.tag, b.format.primary.name⟩
  constants := x.constants.values.mapIdx fun i v => ⟨x.constants.start.offset i, v.className⟩
  fallback := if x.allowDefault then x.names.entries else []

/-- The tables answer as the registry does. -/
structure Serves (x : Tables) (r : Registry) : Prop where
  resolve : ∀ c, x.resolve c = r.resolve c
  resolveTag : ∀ t, x.resolveTag t = r.resolveTag t
  constantTag : ∀ v, x.constants.tagFor? v = r.constantTag? v
  constantAt : ∀ t, x.constants.valueFor? t = r.constantAt? t
  layout : x.layout = r.layout

end Tables

theorem Class.declaring_of_isEnum (c : Class) :
    (if c.isEnum then c.declaring else c) = c.declaring := by
  cases c with
  | root name kind =>
    simp only [declaring, ite_self]
  | sub name kind s =>
    cases kind with
    | enumCase => rfl
    | _ => simp only [declaring, ite_self]

namespace Registry

variable {r : Registry} {index : ClassIndex}

/-- The tables with this index of the codecs. -/
def tables (r : Registry) (index : ClassIndex) : Tables :=
  ⟨r.allowDefault, index, r.constantTable,
    .ofList (tagAt (r.codecs.length + r.constants.length)) r.names.toList r.fallback⟩

theorem names_tables (i : Nat) : (r.tables index).names.entries[i]? =
    r.names.toList[i]?.map fun name => ⟨r.fallbackTag i, name⟩ := by
  have := r.fits_int
  have tag := tagAt_offset (c := r.codecs.length + r.constants.length) (by omega) i
  simp only [tables, NameTable.ofList, List.getElem?_mapIdx, tag, fallbackTag]

theorem get_tables (name : String) : (r.tables index).names.get name = r.fallbackFor name := by
  have place : NameTable.search (r.tables index).names.entries name 0
      (r.tables index).names.entries.length = r.names.index? name :=
    NameTable.search_ofList _ r.names r.fallback name
  rw [NameTable.get, place, fallbackFor]
  cases listed : r.names.index? name with
  | none => rfl
  | some i =>
    simp only [Option.bind_eq_bind, Option.bind_some, names_tables, Names.get_of_index listed,
      Option.map_some]
    rfl

theorem resolveTag_of_toInt {t : Tag} (tag : t.toInt = (i : Nat) + 1) :
    (r.tables index).resolveTag t =
      match index.table[i]? with
      | some b => pure b
      | none =>
        match (r.tables index).nameBehind? i with
        | some name => r.fallbackFor name
        | none => throw (.unknownTag t) := by
  have positive : ¬ t.val ≤ 0 := by
    rw [Int32.le_iff_toInt_le]
    change ¬ t.toInt ≤ 0
    omega
  have place : (t.val - 1).toNatClampNeg = i := by
    rw [Tag.toNat_pred (by omega)]
    omega
  simp only [Tables.resolveTag, if_neg positive, place, get_tables]
  rfl

theorem resolveTag_of_le {t : Tag} (le : t.toInt ≤ 0) :
    (r.tables index).resolveTag t = throw (.unknownTag t) := by
  have low : t.val ≤ 0 := by
    rw [Int32.le_iff_toInt_le]
    exact le
  exact if_pos low

section

variable (indexed : r.IndexedBy index)

include indexed

theorem length_index : index.table.length = r.codecs.length := by
  have lengths := congrArg List.length indexed.layout
  simp only [layout, List.length_mapIdx, List.length_map] at lengths
  exact lengths.symm

theorem resolve_tables (c : Class) : (r.tables index).resolve c = r.resolve c := by
  simp only [Tables.resolve, resolve, explicitFor?, indexed.claimant, get_tables,
    c.declaring_of_isEnum]
  rfl

theorem table_of_le {i : Nat} (behind : r.codecs.length ≤ i) : index.table[i]? = none := by
  rw [List.getElem?_eq_none_iff, length_index indexed]
  exact behind

theorem nameBehind_tables (i : Nat) : (r.tables index).nameBehind? i =
    if r.codecs.length + r.constants.length ≤ i ∧ r.allowDefault = true then
      r.names.get? (i - (r.codecs.length + r.constants.length))
    else none := by
  have counts : (r.tables index).index.table.length + (r.tables index).constants.values.length =
      r.codecs.length + r.constants.length :=
    congrArg (· + r.constants.length) (length_index indexed)
  have name (i : Nat) : (r.tables index).names.nameAt? i = r.names.get? i := by
    rw [NameTable.nameAt?, names_tables, Option.map_map]
    exact Option.map_id'
  unfold Tables.nameBehind? checkedSub
  rw [counts]
  by_cases behind : r.codecs.length + r.constants.length ≤ i
  · rw [if_pos behind]
    change (Option.filter (fun _ => r.allowDefault) _ >>= (r.tables index).names.nameAt?) = _
    cases r.allowDefault with
    | true => rw [if_pos ⟨behind, rfl⟩, ← name]; rfl
    | false => rw [if_neg (by simp)]; rfl
  · rw [if_neg behind, if_neg fun h => behind h.1]; rfl

/-- Neither a codec nor a name is behind so many entries. -/
theorem resolveTag_of_nameless {t : Tag} (tag : t.toInt = (i : Nat) + 1)
    (behind : r.codecs.length ≤ i) (nameless : (r.tables index).nameBehind? i = none) :
    (r.tables index).resolveTag t = throw (.unknownTag t) := by
  rw [resolveTag_of_toInt tag, table_of_le indexed behind, nameless]

theorem resolveTag_tables (t : Tag) : (r.tables index).resolveTag t = r.resolveTag t := by
  funext m
  have assigned := r.assigns_place t
  cases place : r.place t <;> rw [place] at assigned
  case explicit i =>
    obtain ⟨inside, tag⟩ := assigned
    rw [resolveTag_of_toInt tag, ← indexed.explicitAt,
      explicitAt_eq (List.getElem?_eq_getElem inside),
      resolveTag_explicit place (List.getElem?_eq_getElem inside)]
    rfl
  case fallback i =>
    obtain ⟨allowed, inside, tag⟩ := assigned
    have listed := List.getElem?_eq_getElem inside
    have name : r.names.get? i = some _ := listed
    have number : t.toInt = (r.codecs.length + r.constants.length + i : Nat) + 1 := by omega
    rw [resolveTag_of_toInt number, table_of_le indexed (by omega),
      nameBehind_tables indexed, if_pos ⟨by omega, allowed⟩, Nat.add_sub_cancel_left, name,
      resolveTag_fallback place listed]
    exact congrFun (fallbackFor_of_get listed) m
  -- the other places are no codec's
  all_goals rw [resolveTag_other (by simp [place]) (by simp [place])]
  case null => rw [resolveTag_of_le (Int.le_of_eq assigned), throw_run]
  case backReference => rw [resolveTag_of_le (Int.le_of_lt assigned), throw_run]
  case constant i =>
    obtain ⟨inside, tag⟩ := assigned
    have number : t.toInt = (r.codecs.length + i : Nat) + 1 := by omega
    have nameless : (r.tables index).nameBehind? (r.codecs.length + i) = none := by
      rw [nameBehind_tables indexed, if_neg (by omega)]
    rw [resolveTag_of_nameless indexed number (by omega) nameless, throw_run]
  case unassigned =>
    obtain ⟨behind, beyond⟩ := assigned
    have number : t.toInt = ((t.toInt - 1).toNat : Nat) + 1 := by omega
    have nameless : (r.tables index).nameBehind? (t.toInt - 1).toNat = none := by
      rw [nameBehind_tables indexed]
      split
      · rename_i h
        have := beyond h.2
        exact List.getElem?_eq_none_iff.mpr (by unfold Names.size at this; omega)
      · rfl
    rw [resolveTag_of_nameless indexed number (by omega) nameless, throw_run]

theorem layout_tables : (r.tables index).layout = r.layout := by
  have := r.fits_int
  have constants : r.constantTable.start.offset = r.constantTag :=
    funext fun i => tagAt_offset (by omega) i
  have names : (r.tables index).names.entries =
      r.names.toList.mapIdx fun i name => ⟨r.fallbackTag i, name⟩ :=
    List.ext_getElem? fun i => by rw [names_tables, List.getElem?_mapIdx]
  have explicit : (r.codecs.mapIdx fun i c => (⟨explicitTag i, c.name⟩ : Entry)) = _ :=
    indexed.layout
  simp only [Tables.layout, layout, names, explicit, ← constants]
  rfl

theorem serves_tables : (r.tables index).Serves r where
  resolve := resolve_tables indexed
  resolveTag := resolveTag_tables indexed
  constantTag := r.tagFor_eq
  constantAt := r.valueFor_eq
  layout := layout_tables indexed

end

theorem tables_of_build {d : Draft} (built : d.build = .ok r)
    (allocated : ClassIndex.allocate d.codecs = .ok index) (indexed : r.IndexedBy index) :
    d.tables = .ok (r.tables index) := by
  obtain ⟨allowed, _, constants, names, fallback⟩ := Draft.build_entries built
  have fits := ((Draft.build_ok_iff d).mp ⟨r, built⟩).1
  have := r.fits_int
  have start : (Tag.first.offset r.codecs.length).offset r.constants.length =
      tagAt (r.codecs.length + r.constants.length) :=
    tagAt_offset (by omega) _
  unfold Draft.tables
  rw [if_pos fits, allocated, ← allowed, ← constants, ← names, ← fallback, tables, constantTable,
    ← start, ← length_index indexed]
  rfl

/-- The tables fail where construction fails and for the same reason. Otherwise they answer as the
registry does, by class and by tag, for codecs and for constants, in whatever state the memo is. -/
theorem tables_serve (d : Draft) :
    (∃ e, d.tables = .error e ∧ d.build = .error e) ∨
    ∃ x r, d.tables = .ok x ∧ d.build = .ok r ∧ x.Serves r := by
  cases built : d.build with
  | ok r =>
    obtain ⟨index, allocated, indexed⟩ := exists_index built
    exact .inr ⟨_, r, tables_of_build built allocated indexed, rfl, serves_tables indexed⟩
  | error e =>
    left
    rcases Draft.build_eq_error built with ⟨rfl, large⟩ | ⟨cls, rfl, fits, stopped⟩
    · exact ⟨_, if_neg (Nat.not_le.mpr large), rfl⟩
    · refine ⟨_, ?_, rfl⟩
      unfold Draft.tables
      rw [if_pos fits, stopped]

end Registry

end TagCodec
