import TagCodec.Proofs.Fields
import TagCodec.Proofs.NumberText
import TagCodec.Proofs.StringText
import TagCodec.Value.Record

namespace TagCodec

namespace Json

/-- What a reader makes of the text of a number that stands by itself. -/
def rereadJson (x : Binary64) : Except JsonError Json := parse (compact (ofBinary64 x))

theorem head_print {l : Literal} (h : l.WellFormed) :
    ∃ c cs, l.print = c :: cs ∧ (c = '-' ∨ c.isDigit = true) := by
  obtain ⟨negative, whole, fraction, exponent⟩ := l
  obtain ⟨d, ds, rfl⟩ := List.exists_cons_of_ne_nil h.whole.1
  have digit : d.isDigit = true := h.whole.2 d List.mem_cons_self
  cases negative with
  | true => exact ⟨'-', _, rfl, .inl rfl⟩
  | false => exact ⟨d, _, rfl, .inr digit⟩

theorem ne_of_start {c d : Char} (h : c = '-' ∨ c.isDigit = true) (minus : d ≠ '-')
    (noDigit : d.isDigit = false) : c ≠ d := by
  rintro rfl
  rcases h with h | h
  · exact minus h
  · rw [noDigit] at h
    cases h

theorem isBlank_start {c : Char} (h : c = '-' ∨ c.isDigit = true) : isBlank c = false := by
  have ne {d : Char} (minus : d ≠ '-') (noDigit : d.isDigit = false) : c ≠ d :=
    ne_of_start h minus noDigit
  simp [isBlank, ne (d := ' '), ne (d := '\n'), ne (d := '\t'), ne (d := '\r')]

theorem skipBlanks_cons {c : Char} (h : isBlank c = false) (cs : List Char) :
    skipBlanks (c :: cs) = c :: cs := by
  simp [skipBlanks, h]

/-- A value that begins like a number is read as one. -/
theorem scalar_number {c : Char} (h : c = '-' ∨ c.isDigit = true) (cs : List Char) :
    scalar (c :: cs) = (readNumber (c :: cs)).map fun p => (.number p.1, p.2) := by
  unfold scalar
  split <;> rename_i same
  iterate 4 exact absurd (List.cons.inj same).1 (ne_of_start h (by decide) rfl)
  cases readNumber (c :: cs) <;> rfl

theorem valueWith_number {c : Char} (h : c = '-' ∨ c.isDigit = true) (fuel room : Nat)
    (cs : List Char) : valueWith (fuel + 1) room (c :: cs) =
      (readNumber (c :: cs)).map fun p => (.number p.1, p.2) := by
  rw [← scalar_number h]
  unfold valueWith
  rw [skipBlanks_cons (isBlank_start h)]
  split
  iterate 4
    rename_i same
    exact absurd (List.cons.inj same).1 (ne_of_start h (by decide) rfl)
  rfl

theorem valueWith_literal {l : Literal} (h : l.WellFormed) {rest : List Char} (stop : Ends rest)
    (fuel room : Nat) : valueWith (fuel + 1) room (l.print ++ rest) =
      l.value.map fun n => (.number n, rest) := by
  obtain ⟨c, cs, text, start⟩ := head_print h
  have scanned := Literal.scan_print h stop
  rw [text] at scanned ⊢
  rw [List.cons_append, valueWith_number start, readNumber, ← List.cons_append, scanned]
  cases hv : l.value <;> simp [hv, bind, Except.bind, pure, Except.pure, Except.map]

theorem valueWith_null (fuel room : Nat) (rest : List Char) :
    valueWith (fuel + 1) room ('n' :: 'u' :: 'l' :: 'l' :: rest) = .ok (null, rest) := by
  simp [valueWith, skipBlanks, isBlank, scalar, keyword, bind, Except.bind, pure, Except.pure]

theorem parse_of_valueWith {cs : List Char} {o : Except JsonError Json}
    (h : ∀ fuel room, valueWith (fuel + 1) room cs = o.map fun v => (v, [])) : parse cs = o := by
  simp only [parse, h]
  cases o <;> rfl

theorem valueWith_finite (x : Binary64) {rest : List Char} (stop : Ends rest) (fuel room : Nat) :
    valueWith (fuel + 1) room (compact (.number (.real x)) ++ rest) =
      (RealFormat.literal x).value.map fun n => (.number n, rest) := by
  simp only [compact, Number.print, RealFormat.finite_eq_print,
    valueWith_literal (RealFormat.wellFormed_literal x) stop]

theorem rereadJson_finite {x : Binary64} (finite : x.isFinite = true) :
    rereadJson x = (RealFormat.literal x).value.map .number := by
  rw [rereadJson, ofBinary64, if_pos finite]
  apply parse_of_valueWith
  intro fuel room
  have value := valueWith_finite x ends_nil fuel room
  rw [List.append_nil] at value
  rw [value]
  cases (RealFormat.literal x).value <;> rfl

theorem rereadJson_other {x : Binary64} (other : ¬ x.isFinite = true) :
    rereadJson x = .ok null := by
  rw [rereadJson, ofBinary64, if_neg other]
  exact parse_of_valueWith fun fuel room => valueWith_null fuel room []

/-- A number is read alike by itself and in front of whatever ends it. -/
theorem valueWith_real (x : Binary64) {rest : List Char} (stop : Ends rest) (fuel room : Nat) :
    valueWith (fuel + 1) room (compact (ofBinary64 x) ++ rest) =
      (rereadJson x).map fun v => (v, rest) := by
  unfold ofBinary64
  split
  · rename_i finite
    rw [rereadJson_finite finite, valueWith_finite x stop]
    cases (RealFormat.literal x).value <;> rfl
  · rename_i other
    rw [rereadJson_other other]
    exact valueWith_null fuel room rest

/-- Named numbers as the members of an object. -/
def realMembers (ms : List (String × Binary64)) : List (String × Json) :=
  ms.map fun m => (m.1, ofBinary64 m.2)

/-- What becomes of named numbers when they are read back, or the first failure. -/
def rereadMembers (ms : List (String × Binary64)) : Except JsonError (List (String × Json)) :=
  ms.mapM fun m => (rereadJson m.2).map fun v => (m.1, v)

theorem rereadMembers_cons (name : String) (x : Binary64) (ms : List (String × Binary64)) :
    rereadMembers ((name, x) :: ms) =
      rereadJson x >>= fun v => (rereadMembers ms).map fun vs => (name, v) :: vs := by
  simp only [rereadMembers, List.mapM_cons]
  cases rereadJson x with
  | error e => rfl
  | ok v => cases List.mapM (fun m => (rereadJson m.2).map fun v => (m.1, v)) ms <;> rfl

section

variable (name : String) (x : Binary64) (fuel room : Nat) (rest : List Char)

theorem membersWith_last :
    membersWith (fuel + 2) room (quote name ++ ':' :: compact (ofBinary64 x) ++ '}' :: rest) =
      (rereadJson x).map fun v => ([(name, v)], rest) := by
  have value := valueWith_real x (ends_cons (c := '}') rfl rest) fuel room
  rw [List.append_assoc, quote_append]
  unfold membersWith
  simp only [skipBlanks_cons (c := '"') rfl, stringRest_quote, List.cons_append,
    skipBlanks_cons (c := ':') rfl, value, bind, Except.bind]
  cases rereadJson x with
  | error e => rfl
  | ok v =>
    simp only [Except.map, skipBlanks_cons (c := '}') rfl]
    rfl

theorem membersWith_cons :
    membersWith (fuel + 2) room (quote name ++ ':' :: compact (ofBinary64 x) ++ ',' :: rest) =
      rereadJson x >>= fun v => (membersWith (fuel + 1) room rest).map fun p =>
        ((name, v) :: p.1, p.2) := by
  have value := valueWith_real x (ends_cons (c := ',') rfl rest) fuel room
  rw [List.append_assoc, quote_append]
  rw [membersWith]
  simp only [skipBlanks_cons (c := '"') rfl, stringRest_quote, List.cons_append,
    skipBlanks_cons (c := ':') rfl, value, bind, Except.bind]
  cases rereadJson x with
  | error e => rfl
  | ok v =>
    simp only [Except.map, skipBlanks_cons (c := ',') rfl]
    cases membersWith (fuel + 1) room rest <;> rfl

end

theorem membersWith_real {ms : List (String × Binary64)} (nonempty : ms ≠ []) {fuel : Nat}
    (enough : ms.length < fuel) (room : Nat) (rest : List Char) :
    membersWith fuel room (compactMembers (realMembers ms) ++ '}' :: rest) =
      (rereadMembers ms).map fun vs => (vs, rest) := by
  induction ms generalizing fuel with
  | nil => exact absurd rfl nonempty
  | cons m ms ih =>
    obtain ⟨name, x⟩ := m
    obtain ⟨fuel, rfl⟩ : ∃ k, fuel = k + 2 := ⟨fuel - 2, by simp at enough; omega⟩
    cases ms with
    | nil =>
      rw [realMembers, List.map_singleton, compactMembers, membersWith_last,
        rereadMembers_cons name x]
      cases rereadJson x <;> rfl
    | cons m ms =>
      have fewer : (m :: ms).length < fuel + 1 := by
        simp only [List.length_cons] at enough ⊢
        omega
      have others := ih (List.cons_ne_nil _ _) fewer
      have text : compactMembers (realMembers ((name, x) :: m :: ms)) ++ '}' :: rest =
          quote name ++ ':' :: compact (ofBinary64 x) ++
            ',' :: (compactMembers (realMembers (m :: ms)) ++ '}' :: rest) := by
        simp [realMembers, compactMembers]
      rw [text, membersWith_cons, others, rereadMembers_cons name x]
      cases rereadJson x with
      | error e => rfl
      | ok v => cases rereadMembers (m :: ms) <;> rfl

/-- The text of an object is at least as long as its list of members. -/
theorem length_compactMembers (ms : List (String × Json)) :
    ms.length ≤ (compactMembers ms).length := by
  induction ms with
  | nil => exact Nat.zero_le _
  | cons m ms ih =>
    obtain ⟨name, v⟩ := m
    cases ms with
    | nil =>
      simp only [compactMembers, List.length_append, List.length_cons, List.length_nil]
      omega
    | cons m ms =>
      simp only [compactMembers, List.length_append, List.length_cons] at ih ⊢
      omega

theorem valueWith_object {ms : List (String × Binary64)} (nonempty : ms ≠ []) {fuel : Nat}
    (enough : ms.length < fuel) (room : Nat) (rest : List Char) :
    valueWith (fuel + 1) (room + 1) (compact (.object (realMembers ms)) ++ rest) =
      (rereadMembers ms).map fun vs => (.object vs, rest) := by
  have members := membersWith_real nonempty enough room rest
  have start : ∃ cs, compactMembers (realMembers ms) = '"' :: cs := by
    obtain ⟨m, ms, rfl⟩ := List.exists_cons_of_ne_nil nonempty
    cases ms <;> exact ⟨_, rfl⟩
  obtain ⟨cs, hcs⟩ := start
  rw [compact, List.append_assoc, List.cons_append, List.singleton_append]
  rw [hcs] at members ⊢
  unfold valueWith
  simp only [skipBlanks_cons (c := '{') rfl, List.cons_append,
    skipBlanks_cons (c := '"') rfl] at members ⊢
  change (membersWith fuel room _ >>= fun p => pure (object p.1, p.2)) = _
  rw [members]
  cases rereadMembers ms <;> rfl

/-- The members of an object are read one by one, and the object is read unless one of them
is not. -/
theorem parse_object {ms : List (String × Binary64)} (nonempty : ms ≠ []) :
    parse (compact (.object (realMembers ms))) = (rereadMembers ms).map .object := by
  have length := length_compactMembers (realMembers ms)
  have text : (compact (.object (realMembers ms))).length =
      (compactMembers (realMembers ms)).length + 2 := by
    simp [compact]
  have enough : ms.length < 2 * (compact (.object (realMembers ms))).length + 1 := by
    have same : (realMembers ms).length = ms.length := List.length_map ..
    omega
  have object := valueWith_object nonempty enough 126 []
  rw [List.append_nil] at object
  simp only [parse, nestingLimit]
  rw [object]
  cases rereadMembers ms <;> rfl

end Json

/-- The number that a field gets for the JSON text of a number, if it is a number at all. -/
def Binary64.reread? (x : Binary64) : Option Binary64 :=
  (Json.rereadJson x).toOption >>= RecordType.fieldValue?

/-- The record that each field's number makes up when it is read back. -/
def Record.reread? (r : Record) : Option Record :=
  r.values.mapM Binary64.reread? >>= r.type.ofValues?

theorem Json.length_of_mapM {f : α → Except ε β} {xs : List α} {ys : List β}
    (h : xs.mapM f = .ok ys) : ys.length = xs.length := by
  induction xs generalizing ys with
  | nil =>
    cases h
    rfl
  | cons x xs ih =>
    rw [List.mapM_cons] at h
    cases hx : f x with
    | error e =>
      rw [hx] at h
      cases h
    | ok y =>
      cases hxs : xs.mapM f with
      | error e =>
        rw [hx, hxs] at h
        cases h
      | ok ys =>
        rw [hx, hxs] at h
        cases h
        rw [List.length_cons, List.length_cons, ih hxs]

theorem Json.rereadMembers_zip {names : List String} {xs : List Binary64}
    (same : names.length = xs.length) : Json.rereadMembers (names.zip xs) =
      (xs.mapM Json.rereadJson).map names.zip := by
  induction names generalizing xs with
  | nil =>
    rw [List.eq_nil_of_length_eq_zero same.symm]
    rfl
  | cons name names ih =>
    obtain ⟨x, xs, rfl⟩ := List.exists_cons_of_length_eq_add_one same.symm
    rw [List.zip_cons_cons, rereadMembers_cons, ih (Nat.succ.inj same), List.mapM_cons]
    cases Json.rereadJson x with
    | error e => rfl
    | ok v => cases xs.mapM Json.rereadJson <;> rfl

theorem Binary64.mapM_reread (xs : List Binary64) :
    ((xs.mapM Json.rereadJson).toOption >>= List.mapM RecordType.fieldValue?) =
      xs.mapM Binary64.reread? := by
  induction xs with
  | nil => rfl
  | cons x xs ih =>
    rw [List.mapM_cons, List.mapM_cons, ← ih, reread?]
    cases Json.rereadJson x with
    | error e => rfl
    | ok v =>
      cases xs.mapM Json.rereadJson with
      | error e =>
        cases hv : RecordType.fieldValue? v <;> simp [hv, Except.toOption, bind, Except.bind]
      | ok vs => simp [Except.toOption, bind, Except.bind, pure, Except.pure, List.mapM_cons]

namespace RecordType

/-- Of an object with just the fields of the record, each is asked for its own. -/
theorem values_object {t : RecordType} {vs : List Json} (same : t.fields.length = vs.length) :
    t.values? (.object (t.fields.zip vs)) = vs.mapM fieldValue? := by
  cases t with
  | triangle =>
    match vs with
    | [v, w] => simp [values?, fields, Json.member?]
  | _ =>
    match vs with
    | [v] => simp [values?, fields, Json.member?]

end RecordType

namespace Record

def namedValues (r : Record) : List (String × Binary64) := r.type.fields.zip r.values

theorem length_fields (r : Record) : r.type.fields.length = r.values.length := by
  cases r <;> rfl

theorem toJson_eq (r : Record) : r.toJson = .object (Json.realMembers r.namedValues) := by
  cases r <;> rfl

theorem parseBytes_text (v : Json) :
    Json.parseBytes v.text.toUTF8.data.toList = Json.parse v.compact := by
  simp only [Json.parseBytes, Cursor.fromUTF8_bytes, Json.text, String.toList_ofList]

/-- A record is read back from its text as its numbers are from theirs. -/
theorem ofJson_text (r : Record) :
    (Json.parseBytes r.toJson.text.toUTF8.data.toList >>= r.type.ofJson).toOption = r.reread? := by
  have nonempty : r.namedValues ≠ [] := by cases r <;> exact List.cons_ne_nil _ _
  rw [parseBytes_text, toJson_eq, Json.parse_object nonempty, namedValues,
    Json.rereadMembers_zip r.length_fields, reread?, ← Binary64.mapM_reread]
  cases hv : r.values.mapM Json.rereadJson with
  | error e => rfl
  | ok vs =>
    have length : r.type.fields.length = vs.length :=
      r.length_fields.trans (Json.length_of_mapM hv).symm
    change (RecordType.ofJson r.type (.object (r.type.fields.zip vs))).toOption =
      (vs.mapM RecordType.fieldValue? >>= r.type.ofValues?)
    rw [RecordType.ofJson, RecordType.values_object length]
    cases vs.mapM RecordType.fieldValue? >>= r.type.ofValues? <;> rfl

theorem reread_eq_self (r : Record) :
    r.reread? = some r ↔ ∀ x ∈ r.values, x.reread? = some x := by
  unfold reread?
  cases r with
  | circle radius =>
    cases h : radius.reread? <;> simp [values, type, RecordType.ofValues?, h]
  | square side =>
    cases h : side.reread? <;> simp [values, type, RecordType.ofValues?, h]
  | triangle base height =>
    cases h : base.reread? <;> cases g : height.reread? <;>
      simp [values, type, RecordType.ofValues?, h, g]

end Record

end TagCodec
