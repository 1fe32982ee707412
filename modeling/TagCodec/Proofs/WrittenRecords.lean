import TagCodec.Json.Record
import TagCodec.Proofs.Styles

namespace TagCodec.Json.Reader

variable {α β σ : Type}

/-- The reader takes the text of `v` for `a`, whatever blanks stand in front of it and whatever
follows that could not be part of a number, and if the text is within the bound. -/
def Takes (reader : Reader α) (v : Json) (a : α) : Prop :=
  ∀ (style : Style) (bound : Nat) (gap rest : List Char), Blank gap →
    (style.write v).length ≤ bound → Ends rest →
      reader bound (gap ++ (style.write v ++ rest)) = .ok (a, rest)

/-- A text that a reader takes is all that a run of it needs. -/
theorem run_text {reader : Reader α} {v : Json} {a : α} (takes : Takes reader v a)
    (style : Style) : reader.run (style.text v) = .ok a := by
  have taken := takes style (style.write v).length [] [] blank_nil (Nat.le_refl _) ends_nil
  rw [List.nil_append, List.append_nil] at taken
  simp only [run, style.toList_text, taken, bind, Except.bind]
  rfl

/-- A value without brackets that the reader accepts, in its one spelling. -/
theorem scalarOf_takes {accept : Json → Option α} {v : Json} {a : α} {text : List Char}
    (written : ∀ style : Style, style.write v = text) (accepted : accept v = some a)
    (start : ∃ c cs, text = c :: cs ∧ isBlank c = false ∧ c ≠ '[' ∧ c ≠ '{')
    (read : ∀ rest, Ends rest → scalar (text ++ rest) = .ok (v, rest)) :
    Takes (scalarOf accept) v a := by
  intro style bound gap rest blank _ stop
  have taken := read rest stop
  obtain ⟨c, cs, rfl, other, square, curly⟩ := start
  rw [List.cons_append] at taken
  rw [written, List.cons_append]
  unfold scalarOf
  rw [skipBlanks_append blank other]
  split
  · rename_i same
    exact absurd (List.cons.inj same).1 square
  · rename_i same
    exact absurd (List.cons.inj same).1 curly
  · simp only [taken, accepted, bind, Except.bind, pure, Except.pure]

theorem bool_takes (b : Bool) : Takes bool (.bool b) b := by
  apply scalarOf_takes fun style => style.write_bool b
  · rfl
  · cases b <;> exact ⟨_, _, rfl, rfl, by decide, by decide⟩
  · intro rest _
    cases b <;> rfl

theorem string_takes (s : String) : Takes string (.string s) s := by
  apply scalarOf_takes fun style => style.write_string s
  · rfl
  · exact ⟨_, _, rfl, rfl, by decide, by decide⟩
  · intro rest _
    rw [quote_append]
    simp only [scalar, stringRest_quote, bind, Except.bind, pure, Except.pure]

theorem int32_takes (x : Int32) : Takes int32 (.ofTag x.toInt) x := by
  have lower := Int32.le_toInt x
  have upper := Int32.toInt_lt x
  have literal := wellFormed_intLiteral x.toInt
  obtain ⟨c, cs, first, start⟩ := head_print literal
  rw [← print_int] at first
  apply scalarOf_takes fun style => style.write_number (.int x.toInt)
  · simp only
    rw [if_pos ⟨by omega, by omega⟩, Int32.ofInt_toInt]
  · exact ⟨c, cs, first, isBlank_start start, ne_of_start start (by decide) rfl,
      ne_of_start start (by decide) rfl⟩
  · intro rest stop
    have scanned := Literal.scan_print literal stop
    rw [← print_int] at scanned
    rw [first, List.cons_append] at scanned ⊢
    rw [scalar_number start, readNumber, scanned]
    simp only [value_intLiteral (x := x.toInt) (by omega) (by omega), Except.map, bind, Except.bind,
      pure, Except.pure]

theorem nextItem_lead (style : Style) (first : Bool) (v : Json) (cs : List Char) :
    nextItem first (lead first (style.item v) ++ cs) = .ok (some (style.write v ++ cs)) := by
  obtain ⟨c, ds, text, blank, other⟩ := style.write_start v
  have start : skipBlanks (style.item v ++ cs) = c :: (ds ++ cs) := by
    rw [Style.item, text, List.append_assoc]
    exact skipBlanks_append style.blank_gap blank _
  rw [text]
  unfold nextItem
  cases first with
  | true =>
    simp only [lead, if_true, start]
    split
    · contradiction
    · rename_i same
      exact absurd (List.cons.inj same).1 other
    · rfl
    iterate 2 contradiction
  | false =>
    simp only [lead, Bool.false_eq_true, if_false, List.cons_append,
      skipBlanks_cons (c := ',') rfl, start]
    split
    · contradiction
    · rename_i same
      exact absurd (List.cons.inj same).1 other
    · rfl

theorem nextItem_stop {stop : List Char} (blank : Blank stop) (first : Bool) (rest : List Char) :
    nextItem first (stop ++ ']' :: rest) = .ok none := by
  simp only [nextItem, skipBlanks_append blank (c := ']') rfl]

theorem close_stop {stop : List Char} (blank : Blank stop) (rest : List Char) :
    close (stop ++ ']' :: rest) = .ok rest := by
  simp only [close, skipBlanks_append blank (c := ']') rfl]

section

variable {item : Reader α} {form : α → Json} {stop : List Char}

theorem itemsWith_sequel {as : List α} (takes : ∀ a ∈ as, Takes item (form a) a) (style : Style)
    {fuel bound : Nat} (enough : as.length < fuel)
    (within : ∀ a ∈ as, (style.write (form a)).length ≤ bound) (blank : Blank stop) (first : Bool)
    (rest : List Char) :
    itemsWith item fuel first bound
      (sequel first ((as.map form).map style.item) ++ (stop ++ ']' :: rest)) = .ok (as, rest) := by
  induction as generalizing fuel first with
  | nil =>
    obtain ⟨fuel, rfl⟩ := Nat.exists_eq_add_one.mpr enough
    simp only [List.map_nil, sequel, List.nil_append, itemsWith, nextItem_stop blank,
      close_stop blank, bind, Except.bind, pure, Except.pure]
  | cons a as ih =>
    obtain ⟨fuel, rfl⟩ := Nat.exists_eq_add_one.mpr (Nat.lt_of_le_of_lt (Nat.zero_le _) enough)
    have fewer : as.length < fuel := Nat.lt_of_succ_lt_succ enough
    have further := ends_sequel blank (c := ']') rfl ((as.map form).map style.item) rest
    have taken := takes a List.mem_cons_self style bound [] _ blank_nil
      (within a List.mem_cons_self) further
    have behind := ih (fun b hb => takes b (List.mem_cons_of_mem a hb)) fewer
      (fun b hb => within b (List.mem_cons_of_mem a hb)) false
    rw [List.nil_append] at taken
    rw [List.map_cons, List.map_cons, sequel, List.append_assoc]
    simp only [itemsWith, nextItem_lead, taken, behind, bind, Except.bind, pure, Except.pure]

theorem list_takes {as : List α} (takes : ∀ a ∈ as, Takes item (form a) a) :
    Takes (list item) (.array (as.map form)) as := by
  intro style bound gap rest blank within _
  obtain ⟨stop, stopBlank, text⟩ := style.write_array (as.map form)
  rw [text] at within ⊢
  rw [List.length_cons, List.length_append] at within
  have nonempty : ∀ t ∈ (as.map form).map style.inner.item, t ≠ [] := by
    intro t ht
    obtain ⟨v, _, rfl⟩ := List.mem_map.mp ht
    obtain ⟨c, cs, text, _⟩ := style.inner.write_start v
    simp [Style.item, text]
  have enough : as.length < bound + 1 := by
    have count := count_le_sequel nonempty true
    rw [List.length_map, List.length_map] at count
    omega
  have each : ∀ a ∈ as, (style.inner.write (form a)).length ≤ bound := by
    intro a ha
    have part := length_le_sequel (List.mem_map_of_mem (f := style.inner.item)
      (List.mem_map_of_mem (f := form) ha)) true
    rw [Style.item, List.length_append] at part
    omega
  have taken := itemsWith_sequel takes style.inner enough each stopBlank true rest
  simp only [list, List.cons_append, List.append_assoc, List.nil_append,
    skipBlanks_append blank (c := '[') rfl, taken]

end

section

variable {fields : List (Field σ)}

/-- The members in turn fill in fields of the record that are still open. -/
inductive Fills (fields : List (Field σ)) : σ → List (String × Json) → σ → Prop
  | nil {s : σ} : Fills fields s [] s
  | cons {s t u : σ} {name : String} {v : Json} {ms : List (String × Json)} {f : Field σ}
      (known : fields.find? (fun g => g.name == name) = some f) (unset : f.isSet s = false)
      (takes : Takes (f.read s) v t) (further : Fills fields t ms u) :
      Fills fields s ((name, v) :: ms) u

theorem slot_takes {reader : Reader β} {v : Json} {b : β} (takes : Takes reader v b)
    {name : String} {get : σ → Option β} {set : σ → β → σ} {s : σ} :
    Takes ((Field.slot name get set reader).read s) v (set s b) := by
  intro style bound gap rest blank within stop
  simp only [Field.slot, takes style bound gap rest blank within stop, bind, Except.bind, pure,
    Except.pure]

theorem nextName_lead (style : Style) (first : Bool) (m : String × Json) (cs : List Char) :
    nextName first (lead first (style.member m) ++ cs) =
      .ok (some (m.1.toList.flatMap quotedChar ++
        '"' :: ':' :: (style.space ++ (style.write m.2 ++ cs)))) := by
  have start : skipBlanks (style.member m ++ cs) = '"' :: (m.1.toList.flatMap quotedChar ++
      '"' :: ':' :: (style.space ++ (style.write m.2 ++ cs))) := by
    rw [Style.member, quote_append, List.append_assoc, List.cons_append,
      skipBlanks_append style.blank_gap rfl]
    simp only [List.append_assoc, List.cons_append]
  cases first with
  | true => simp only [nextName, lead, if_true, start]
  | false =>
    simp only [nextName, lead, Bool.false_eq_true, if_false, List.cons_append,
      skipBlanks_cons (c := ',') rfl, start]

theorem nextName_stop {stop : List Char} (blank : Blank stop) (first : Bool) (rest : List Char) :
    nextName first (stop ++ '}' :: rest) = .ok none := by
  simp only [nextName, skipBlanks_append blank (c := '}') rfl]

theorem memberValue_known {s : σ} {name : String} {f : Field σ}
    (known : fields.find? (fun g => g.name == name) = some f) (unset : f.isSet s = false)
    (bound : Nat) (cs : List Char) :
    memberValue fields s name bound (':' :: cs) = f.read s bound cs := by
  simp only [memberValue, known, unset, colon, skipBlanks_cons (c := ':') rfl,
    Bool.false_eq_true, if_false, bind, Except.bind]

theorem membersWith_sequel {s t : σ} {ms : List (String × Json)} (fills : Fills fields s ms t)
    (style : Style) {fuel bound : Nat} (enough : ms.length < fuel)
    (within : ∀ m ∈ ms, (style.write m.2).length ≤ bound) {stop : List Char} (blank : Blank stop)
    (first : Bool) (rest : List Char) :
    membersWith fields fuel first s bound
      (sequel first (ms.map style.member) ++ (stop ++ '}' :: rest)) = .ok (t, rest) := by
  induction fills generalizing fuel first with
  | nil =>
    obtain ⟨fuel, rfl⟩ := Nat.exists_eq_add_one.mpr enough
    simp only [List.map_nil, sequel, List.nil_append, membersWith, nextName_stop blank,
      skipBlanks_append blank (c := '}') rfl, bind, Except.bind, pure, Except.pure]
    rfl
  | @cons s t u name v ms f known unset takes _ ih =>
    obtain ⟨fuel, rfl⟩ := Nat.exists_eq_add_one.mpr (Nat.lt_of_le_of_lt (Nat.zero_le _) enough)
    have fewer : ms.length < fuel := Nat.lt_of_succ_lt_succ enough
    -- the blank behind the colon is left to the reader of the value
    have further := ends_sequel blank (c := '}') rfl (ms.map style.member) rest
    have taken := takes style bound _ _ style.blank_space (within _ List.mem_cons_self) further
    have behind := ih fewer
      (fun m hm => within m (List.mem_cons_of_mem (name, v) hm)) false
    rw [List.map_cons, sequel, List.append_assoc]
    simp only [membersWith, nextName_lead, stringRest_quote, memberValue_known known unset, taken,
      behind, bind, Except.bind]

theorem record_takes {start s : σ} {ms : List (String × Json)} (fills : Fills fields start ms s)
    {finish : σ → Except JsonError α} {a : α} (finished : finish s = .ok a) :
    Takes (record fields start finish) (.object ms) a := by
  intro style bound gap rest blank within _
  obtain ⟨stop, stopBlank, text⟩ := style.write_object ms
  rw [text] at within ⊢
  rw [List.length_cons, List.length_append] at within
  have nonempty : ∀ t ∈ ms.map style.inner.member, t ≠ [] := by
    intro t ht
    obtain ⟨m, _, rfl⟩ := List.mem_map.mp ht
    simp [Style.member]
  have enough : ms.length < bound + 1 := by
    have count := count_le_sequel nonempty true
    rw [List.length_map] at count
    omega
  have each : ∀ m ∈ ms, (style.inner.write m.2).length ≤ bound := by
    intro m hm
    have part := length_le_sequel (List.mem_map_of_mem (f := style.inner.member) hm) true
    simp only [Style.member, List.length_append, List.length_cons] at part
    omega
  have taken := membersWith_sequel fills style.inner enough each stopBlank true rest
  simp only [record, List.cons_append, List.append_assoc, List.nil_append,
    skipBlanks_append blank (c := '{') rfl, taken, finished, bind, Except.bind, pure,
    Except.pure]

end

end TagCodec.Json.Reader
