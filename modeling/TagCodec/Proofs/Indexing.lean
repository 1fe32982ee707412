import TagCodec.Proofs.Assembly
import TagCodec.Registry.Lookup

namespace TagCodec

/-- A name is told as repeated only if it stands in the list twice, unless it was seen before. -/
theorem two_le_count_of_firstRepeat {seen xs : List String}
    (found : firstRepeat? seen xs = some s) : 2 ≤ (seen ++ xs).count s := by
  induction xs generalizing seen with
  | nil => cases found
  | cons x xs ih =>
    by_cases known : x ∈ seen
    · simp only [firstRepeat?, known, if_true, Option.some.injEq] at found
      subst found
      have before : 0 < seen.count x := List.count_pos_iff.mpr known
      rw [List.count_append, List.count_cons_self]
      omega
    · simp only [firstRepeat?, known, if_false] at found
      exact List.perm_middle.count_eq s ▸ ih found

theorem firstRepeat?_append (seen xs ys : List String) :
    firstRepeat? seen (xs ++ ys) =
      (firstRepeat? seen xs).or (firstRepeat? (xs.reverse ++ seen) ys) := by
  induction xs generalizing seen with
  | nil => rfl
  | cons x xs ih =>
    by_cases known : x ∈ seen
    · simp [firstRepeat?, known]
    · simp [firstRepeat?, known, ih]

/-- The place that each class has, and the codec in each place. -/
structure ClassIndex where
  places : List (String × Nat)
  table : List Binding

namespace ClassIndex

def empty : ClassIndex := ⟨[], []⟩

/-- Puts the class down for the next place. -/
def put (x : ClassIndex) (name : String) : ClassIndex :=
  { x with places := (name, x.table.length) :: x.places }

/-- Fails if the class has a place already. -/
def claim (x : ClassIndex) (name : String) : Except String ClassIndex :=
  match x.places.lookup name with
  | some _ => .error name
  | none => .ok (x.put name)

/-- Puts the codec in the next place. -/
def push (x : ClassIndex) (c : Codec) : ClassIndex :=
  { x with table := x.table ++ [⟨Registry.explicitTag x.table.length, c.format, some c.id⟩] }

/-- The classes of a codec are put down before the codec itself. -/
def enter (x : ClassIndex) (c : Codec) : Except String ClassIndex := do
  let y ← c.claims.foldlM claim x
  return y.push c

/-- Enters the codecs in the order of their class names. -/
def allocate (cs : List Codec) : Except String ClassIndex :=
  (Codec.sortByName cs).foldlM enter empty

def find? (x : ClassIndex) (name : String) : Option Binding :=
  x.places.lookup name >>= fun i => x.table[i]?

def names (x : ClassIndex) : List String := x.places.map Prod.fst

/-- What is left of the walk over one codec if no class has a place already. -/
def next (x : ClassIndex) (c : Codec) : ClassIndex := (c.claims.foldl put x).push c

theorem claim_eq (x : ClassIndex) (name : String) :
    x.claim name = if name ∈ x.names then .error name else .ok (x.put name) := by
  unfold claim
  cases found : x.places.lookup name with
  | none =>
    have new : name ∉ x.names := by
      intro known
      obtain ⟨p, hp, rfl⟩ := List.mem_map.mp known
      simpa using List.lookup_eq_none_iff.mp found p hp
    rw [if_neg new]
  | some i =>
    have known : name ∈ x.names := by
      obtain ⟨before, after, split, _⟩ := List.lookup_eq_some_iff.mp found
      rw [names, split]
      simp
    rw [if_pos known]

theorem names_foldl_put (x : ClassIndex) (xs : List String) :
    (xs.foldl put x).names = xs.reverse ++ x.names := by
  induction xs generalizing x with
  | nil => rfl
  | cons name xs ih =>
    rw [List.foldl_cons, ih, List.reverse_cons, List.append_assoc]
    rfl

theorem table_foldl_put (x : ClassIndex) (xs : List String) :
    (xs.foldl put x).table = x.table := by
  induction xs generalizing x with
  | nil => rfl
  | cons name xs ih => exact ih _

theorem lookup_foldl_put (x : ClassIndex) (xs : List String) (name : String) :
    (xs.foldl put x).places.lookup name =
      if name ∈ xs then some x.table.length else x.places.lookup name := by
  induction xs generalizing x with
  | nil => simp
  | cons a xs ih =>
    rw [List.foldl_cons, ih]
    by_cases later : name ∈ xs
    · simp [later, put]
    · by_cases here : name = a
      · simp [here, put]
      · simp [later, here, put, List.lookup_cons, beq_eq_false_iff_ne.mpr here]

/-- The classes of one codec are walked over up to the first one that has a place. -/
theorem foldlM_claim (x : ClassIndex) (xs : List String) :
    xs.foldlM claim x =
      match firstRepeat? x.names xs with
      | some name => .error name
      | none => .ok (xs.foldl put x) := by
  induction xs generalizing x with
  | nil => rfl
  | cons name xs ih =>
    rw [List.foldlM_cons, claim_eq]
    by_cases known : name ∈ x.names
    · simp only [known, if_true, firstRepeat?]
      rfl
    · simp only [known, if_false, firstRepeat?]
      exact ih (x.put name)

theorem names_next (x : ClassIndex) (c : Codec) :
    (x.next c).names = c.claims.reverse ++ x.names :=
  names_foldl_put x c.claims

/-- One codec after the other, the walk gets as far as if all classes stood in one list. -/
theorem foldlM_enter (x : ClassIndex) (cs : List Codec) :
    cs.foldlM enter x =
      match firstRepeat? x.names (cs.flatMap Codec.claims) with
      | some name => .error name
      | none => .ok (cs.foldl next x) := by
  induction cs generalizing x with
  | nil => rfl
  | cons c cs ih =>
    rw [List.foldlM_cons, enter, foldlM_claim, List.flatMap_cons, firstRepeat?_append]
    cases firstRepeat? x.names c.claims with
    | some name => rfl
    | none =>
      -- what has been seen so far is what has been put down
      rw [Option.none_or, ← names_next]
      exact ih (x.next c)

theorem allocate_eq (cs : List Codec) :
    allocate cs =
      match firstRepeat? [] ((Codec.sortByName cs).flatMap Codec.claims) with
      | some name => .error name
      | none => .ok ((Codec.sortByName cs).foldl next empty) :=
  foldlM_enter empty _

theorem allocate_ok_iff (cs : List Codec) :
    (∃ x, allocate cs = .ok x) ↔ (cs.flatMap Codec.claims).Nodup := by
  have order := (Codec.sortByName_perm cs).flatMap_right Codec.claims
  rw [allocate_eq, ← order.nodup_iff]
  cases found : firstRepeat? [] ((Codec.sortByName cs).flatMap Codec.claims) with
  | none =>
    obtain ⟨distinct, _⟩ := firstRepeat?_eq_none.mp found
    exact ⟨fun _ => distinct, fun _ => ⟨_, rfl⟩⟩
  | some name =>
    refine ⟨nofun, fun distinct => ?_⟩
    rw [firstRepeat?_eq_none.mpr ⟨distinct, fun _ _ => List.not_mem_nil⟩] at found
    cases found

theorem two_le_count_of_allocate {cs : List Codec} (failed : allocate cs = .error name) :
    2 ≤ (cs.flatMap Codec.claims).count name := by
  rw [allocate_eq] at failed
  cases found : firstRepeat? [] ((Codec.sortByName cs).flatMap Codec.claims) with
  | none =>
    rw [found] at failed
    cases failed
  | some cls =>
    rw [found] at failed
    cases failed
    have twice := two_le_count_of_firstRepeat found
    have order := (Codec.sortByName_perm cs).flatMap_right Codec.claims
    rw [List.nil_append, order.count_eq] at twice
    exact twice

/-- The codecs stand in the table one after the other, and a class leads to one that claims it. -/
structure Holds (x : ClassIndex) (cs : List Codec) : Prop where
  table : x.table = cs.mapIdx fun i c => ⟨Registry.explicitTag i, c.format, some c.id⟩
  claimed : ∀ name i, x.places.lookup name = some i → ∃ c, cs[i]? = some c ∧ name ∈ c.claims
  unclaimed : ∀ name, x.places.lookup name = none → ∀ c ∈ cs, name ∉ c.claims

theorem holds_empty : empty.Holds [] := ⟨rfl, nofun, fun _ _ => nofun⟩

theorem Holds.next {x : ClassIndex} (h : x.Holds cs) (c : Codec) :
    (x.next c).Holds (cs ++ [c]) := by
  have length : x.table.length = cs.length := by rw [h.table, List.length_mapIdx]
  have lookup := lookup_foldl_put x c.claims
  refine ⟨?_, ?_, ?_⟩
  · change (c.claims.foldl put x).table ++ _ = _
    rw [table_foldl_put, h.table, List.mapIdx_concat, List.length_mapIdx]
  · intro name i found
    -- the classes of the new codec lead behind the table as it was
    rw [ClassIndex.next, push, lookup, length] at found
    by_cases mine : name ∈ c.claims
    · rw [if_pos mine] at found
      cases found
      exact ⟨c, List.getElem?_concat_length, mine⟩
    · rw [if_neg mine] at found
      obtain ⟨e, place, theirs⟩ := h.claimed name i found
      have inside := (List.getElem?_eq_some_iff.mp place).1
      exact ⟨e, (List.getElem?_append_left inside).trans place, theirs⟩
  · intro name missing
    rw [ClassIndex.next, push, lookup] at missing
    by_cases mine : name ∈ c.claims
    · rw [if_pos mine] at missing
      cases missing
    · rw [if_neg mine] at missing
      intro e he
      rcases List.mem_append.mp he with before | last
      · exact h.unclaimed name missing e before
      · rw [List.mem_singleton.mp last]
        exact mine

theorem Holds.foldl {x : ClassIndex} (h : x.Holds done) (cs : List Codec) :
    (cs.foldl ClassIndex.next x).Holds (done ++ cs) := by
  induction cs generalizing x done with
  | nil => exact (List.append_nil done).symm ▸ h
  | cons c cs ih =>
    have rest := ih (h.next c)
    rw [List.append_assoc] at rest
    exact rest

theorem holds_of_allocate {cs : List Codec} (allocated : allocate cs = .ok x) :
    x.Holds (Codec.sortByName cs) := by
  rw [allocate_eq] at allocated
  split at allocated
  · cases allocated
  · cases allocated
    exact holds_empty.foldl _

end ClassIndex

end TagCodec
