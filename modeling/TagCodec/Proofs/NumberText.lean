import TagCodec.Json.Number
import TagCodec.Binary64.Text

namespace TagCodec

/-- At least one digit and nothing else. -/
def Digits (ds : List Char) : Prop := ds ≠ [] ∧ ∀ d ∈ ds, d.isDigit = true

namespace Json

/-- Whether a number literal could go on with this character. -/
def continuesNumber (c : Char) : Bool := c.isDigit || c == '.' || c == 'e' || c == 'E'

/-- No literal that ends in front of this text could be longer. -/
def Ends (rest : List Char) : Prop := ∀ c ∈ rest.head?, continuesNumber c = false

theorem ends_nil : Ends [] := by
  intro c hc
  cases hc

theorem ends_cons {c : Char} (h : continuesNumber c = false) (rest : List Char) :
    Ends (c :: rest) := by
  intro d hd
  cases hd
  exact h

namespace Literal

def printFraction : Option (List Char) → List Char
  | some ds => '.' :: ds
  | none => []

def printExponent : Option (Bool × List Char) → List Char
  | some (negative, ds) => 'e' :: (if negative then '-' else '+') :: ds
  | none => []

def print (l : Literal) : List Char :=
  (if l.negative then ['-'] else []) ++ l.whole ++ printFraction l.fraction
    ++ printExponent l.exponent

structure WellFormed (l : Literal) : Prop where
  whole : Digits l.whole
  leading : l.whole.head? = some '0' → l.whole.length = 1
  fraction : ∀ ds ∈ l.fraction, Digits ds
  exponent : ∀ e ∈ l.exponent, Digits e.2

theorem digits_append {ds rest : List Char} (h : Digits ds)
    (stop : ∀ c ∈ rest.head?, c.isDigit = false) : digits (ds ++ rest) = .ok (ds, rest) := by
  have taken : rest.takeWhile Char.isDigit = [] ∧ rest.dropWhile Char.isDigit = rest := by
    cases rest with
    | nil => exact ⟨rfl, rfl⟩
    | cons c rest =>
      have hc : c.isDigit = false := stop c rfl
      simp [hc]
  simp only [digits, List.takeWhile_append_of_pos h.2, List.dropWhile_append_of_pos h.2, taken,
    List.append_nil]
  rw [if_neg (by simpa using h.1)]

theorem wholePart_append {ds rest : List Char} (h : Digits ds)
    (leading : ds.head? = some '0' → ds.length = 1)
    (stop : ∀ c ∈ rest.head?, c.isDigit = false) : wholePart (ds ++ rest) = .ok (ds, rest) := by
  simp only [wholePart, digits_append h stop]
  change (if _ then _ else _) = _
  rw [if_neg fun both => both.2 (leading both.1)]
  rfl

theorem fractionPart_append {fraction : Option (List Char)} {rest : List Char}
    (h : ∀ ds ∈ fraction, Digits ds) (stop : ∀ c ∈ rest.head?, c.isDigit = false ∧ c ≠ '.') :
    fractionPart (printFraction fraction ++ rest) = .ok (fraction, rest) := by
  cases fraction with
  | some ds =>
    have ok := digits_append (h ds rfl) fun c hc => (stop c hc).1
    simp only [printFraction, List.cons_append, fractionPart, ok]
    rfl
  | none =>
    cases rest with
    | nil => rfl
    | cons c rest =>
      have hc : c ≠ '.' := (stop c rfl).2
      simp only [printFraction, List.nil_append]
      unfold fractionPart
      split
      · rename_i same
        cases same
        exact absurd rfl hc
      · rfl

theorem exponentPart_append {exponent : Option (Bool × List Char)} {rest : List Char}
    (h : ∀ e ∈ exponent, Digits e.2) (stop : Ends rest) :
    exponentPart (printExponent exponent ++ rest) = .ok (exponent, rest) := by
  have noDigit : ∀ c ∈ rest.head?, c.isDigit = false := by
    intro c hc
    have := stop c hc
    simp only [continuesNumber, Bool.or_eq_false_iff] at this
    exact this.1.1.1
  cases exponent with
  | some e =>
    obtain ⟨negative, ds⟩ := e
    have ok := digits_append (h _ rfl) noDigit
    cases negative
    all_goals
      simp only [printExponent, Bool.false_eq_true, if_true, if_false, List.cons_append,
        exponentPart, ok, true_or]
      rfl
  | none =>
    cases rest with
    | nil => rfl
    | cons c rest =>
      have hc : ¬ (c = 'e' ∨ c = 'E') := by
        have := stop c rfl
        simp only [continuesNumber, Bool.or_eq_false_iff, beq_eq_false_iff_ne] at this
        exact fun e => e.elim this.1.2 this.2
      simp only [printExponent, List.nil_append, exponentPart, if_neg hc]
      rfl

theorem head_printFraction {fraction : Option (List Char)} {rest : List Char}
    (stop : ∀ c ∈ rest.head?, c.isDigit = false) :
    ∀ c ∈ (printFraction fraction ++ rest).head?, c.isDigit = false := by
  cases fraction with
  | some ds =>
    intro c hc
    cases hc
    decide
  | none => exact stop

theorem head_printExponent {exponent : Option (Bool × List Char)} {rest : List Char}
    (stop : Ends rest) :
    ∀ c ∈ (printExponent exponent ++ rest).head?, c.isDigit = false ∧ c ≠ '.' := by
  cases exponent with
  | some e =>
    intro c hc
    cases hc
    decide
  | none =>
    intro c hc
    have := stop c hc
    simp only [continuesNumber, Bool.or_eq_false_iff, beq_eq_false_iff_ne] at this
    exact ⟨this.1.1.1, this.1.1.2⟩

/-- A literal is scanned as it was printed, with nothing of the text behind it. -/
theorem scan_print {l : Literal} (h : l.WellFormed) {rest : List Char} (stop : Ends rest) :
    scan (l.print ++ rest) = .ok (l, rest) := by
  obtain ⟨negative, whole, fraction, exponent⟩ := l
  have tail := exponentPart_append h.exponent stop
  have stops : ∀ c ∈ (printExponent exponent ++ rest).head?, c.isDigit = false ∧ c ≠ '.' :=
    head_printExponent stop
  have middle := fractionPart_append h.fraction stops
  have noDigit : ∀ c ∈ (printFraction fraction ++ (printExponent exponent ++ rest)).head?,
      c.isDigit = false := head_printFraction fun c hc => (stops c hc).1
  have start := wholePart_append h.whole h.leading noDigit
  cases negative with
  | true =>
    simp only [print, if_true, List.append_assoc, List.cons_append, List.nil_append, scan]
    simp only [start, middle, tail, bind, Except.bind, pure, Except.pure]
  | false =>
    obtain ⟨d, ds, rfl⟩ := List.exists_cons_of_ne_nil h.whole.1
    have digit : d.isDigit = true := h.whole.2 d List.mem_cons_self
    have unsigned : d ≠ '-' := by
      rintro rfl
      cases digit
    simp only [print, Bool.false_eq_true, if_false, List.append_assoc, List.cons_append,
      List.nil_append, scan] at start ⊢
    split
    · rename_i same
      exact absurd (List.cons.inj same).1 unsigned
    · simp only [start, middle, tail, bind, Except.bind, pure, Except.pure]

end Literal

end Json

theorem digits_toDigits (n : Nat) : Digits (Nat.toDigits 10 n) :=
  ⟨Nat.toDigits_ne_nil, fun _ => Nat.isDigit_of_mem_toDigits (by decide) (by decide)⟩

theorem head_toDigits {n : Nat} (h : 0 < n) : (Nat.toDigits 10 n).head? ≠ some '0' := by
  induction n using Nat.strongRecOn with
  | ind n ih =>
    rw [Nat.toDigits_eq_if (by decide)]
    split
    · rename_i small
      have nonzero : ∀ m < 10, 0 < m → m.digitChar ≠ '0' := by decide
      intro same
      exact nonzero n small h (Option.some.inj same)
    · obtain ⟨d, ds, hd⟩ := List.exists_cons_of_ne_nil (digits_toDigits (n / 10)).1
      have high := ih (n / 10) (by omega) (by omega)
      rw [hd] at high ⊢
      exact high

/-- Digits that do not begin with zero. -/
def Significant (ds : List Char) : Prop := Digits ds ∧ ds.head? ≠ some '0'

namespace Binary64

theorem low_pos {mag : Nat} (h : mag ≠ 0) : 0 < (interval mag).low := by
  have positive : 0 < significand mag := by
    unfold significand
    split
    · omega
    · have : 0 < leadingBit := by decide
      omega
  have unit : 0 < Nat.pow 2 (exponent mag) := Nat.pow_pos (by omega)
  simp only [interval]
  refine Nat.mul_pos ?_ unit
  split <;> omega

theorem bounds_of_contains {i : Interval} {scale x : Nat}
    (h : i.contains scale x = true) : i.low * scale ≤ x ∧ x ≤ i.high * scale := by
  unfold Interval.contains at h
  split at h
  · exact of_decide_eq_true h
  · have inside := of_decide_eq_true h
    exact ⟨Nat.le_of_lt inside.1, Nat.le_of_lt inside.2⟩

/-- A decimal other than zero that is not too large to be rounded to `mag`. -/
structure Near (d : Decimal) (mag : Nat) : Prop where
  positive : 0 < d.digits
  bounded : d.digits * (Nat.pow 10 d.power.toNat * Nat.pow 2 1076) ≤
    (interval mag).high * Nat.pow 10 (-d.power).toNat

/-- Whichever of the two candidates is taken, it was found inside. -/
theorem contains_pick {i : Interval} {scale unit n : Nat} {power : Int} {upper : Bool}
    {d : Decimal}
    (hd : (match i.contains scale (n * unit), i.contains scale ((n + 1) * unit) with
      | true, true => some ⟨if upper then n + 1 else n, power⟩
      | true, false => some ⟨n, power⟩
      | false, true => some ⟨n + 1, power⟩
      | false, false => none) = some d) :
    i.contains scale (d.digits * unit) = true ∧ d.power = power := by
  split at hd
  · rename_i below above
    cases hd
    cases upper with
    | true => exact ⟨above, rfl⟩
    | false => exact ⟨below, rfl⟩
  · rename_i below _
    cases hd
    exact ⟨below, rfl⟩
  · rename_i _ above
    cases hd
    exact ⟨above, rfl⟩
  · cases hd

theorem near_onGrid {tie : Tie} {mag : Nat} (h : mag ≠ 0) {power : Int} {d : Decimal}
    (hd : onGrid? tie mag power = some d) : Near d mag := by
  obtain ⟨inside, rfl⟩ := contains_pick hd
  obtain ⟨low, high⟩ := bounds_of_contains inside
  refine ⟨?_, high⟩
  have scale : 0 < Nat.pow 10 (-d.power).toNat := Nat.pow_pos (by omega)
  have positive := Nat.lt_of_lt_of_le (Nat.mul_pos (low_pos h) scale) low
  exact Nat.pos_of_mul_pos_right positive

/-- No digits at all stand for zero, which is the only other outcome. -/
theorem near_shortest {mag : Nat} (h : mag ≠ 0) (tie : Tie) :
    shortest tie mag = ⟨0, 0⟩ ∨ Near (shortest tie mag) mag := by
  unfold shortest
  simp only
  cases hf : (List.range 17).findSome? fun (more : Nat) =>
      onGrid? tie mag (leadingPower mag - more) with
  | none => exact .inl rfl
  | some d =>
    obtain ⟨more, _, hd⟩ := List.exists_of_findSome?_eq_some hf
    exact .inr (near_onGrid h hd)

end Binary64

namespace RealFormat

open Json
open Binary64 (Near near_shortest)

theorem significant_dropTrailingZeros {ds : List Char} (h : Significant ds) :
    Significant (dropTrailingZeros ds) := by
  obtain ⟨⟨nonempty, digits⟩, nonzero⟩ := h
  obtain ⟨d, ds, rfl⟩ := List.exists_cons_of_ne_nil nonempty
  have kept : (d == '0') = false := by simpa using nonzero
  obtain ⟨es, hes, sub⟩ : ∃ es, dropTrailingZeros (d :: ds) = d :: es ∧ ∀ e ∈ es, e ∈ ds := by
    simp only [dropTrailingZeros, List.reverse_cons, List.dropWhile_append]
    split
    · exact ⟨[], by simp [kept], by simp⟩
    · refine ⟨(ds.reverse.dropWhile (· == '0')).reverse, by simp, fun e he => ?_⟩
      exact List.mem_reverse.mp ((List.dropWhile_sublist _).subset (List.mem_reverse.mp he))
  rw [hes]
  refine ⟨⟨List.cons_ne_nil _ _, fun e he => ?_⟩, by simpa using nonzero⟩
  rcases List.mem_cons.mp he with rfl | he
  · exact digits e List.mem_cons_self
  · exact digits e (List.mem_cons_of_mem _ (sub e he))

theorem digits_replicate (n : Nat) : ∀ d ∈ List.replicate n '0', d.isDigit = true := by
  intro d hd
  rw [List.eq_of_mem_replicate hd]
  decide

/-- Digits with the point after the first `places`. -/
def plainLiteral (ds : List Char) (places : Int) : Literal :=
  if 0 < places then
    let n := places.toNat
    let behind := if (ds.drop n).isEmpty then ['0'] else ds.drop n
    ⟨false, ds.take n ++ List.replicate (n - ds.length) '0', some behind, none⟩
  else ⟨false, ['0'], some (List.replicate (-places).toNat '0' ++ ds), none⟩

def scientificLiteral (ds : List Char) (e : Int) : Literal :=
  let behind := if (ds.drop 1).isEmpty then none else some (ds.drop 1)
  ⟨false, ds.take 1, behind, some (decide (e < 0), Nat.toDigits 10 e.natAbs)⟩

/-- The decimal exponent of the leading digit. -/
def leading (d : Decimal) : Int := (Nat.toDigits 10 d.digits).length + d.power - 1

def decimalLiteral (d : Decimal) : Literal :=
  let ds := dropTrailingZeros (Nat.toDigits 10 d.digits)
  if json.plainFrom ≤ leading d ∧ leading d < json.plainBelow then plainLiteral ds (leading d + 1)
  else scientificLiteral ds (leading d)

def unsignedLiteral (mag : Nat) : Literal :=
  if mag = 0 then ⟨false, ['0'], some ['0'], none⟩
  else decimalLiteral (Binary64.shortest json.tie mag)

/-- The literal that a finite number is written as. -/
def literal (x : Binary64) : Literal :=
  { unsignedLiteral x.magnitude with negative := x.isNegative }

theorem plain_eq_print (ds : List Char) (places : Int) :
    plain ds places = (plainLiteral ds places).print := by
  unfold plain plainLiteral
  split <;> simp [Literal.print, Literal.printFraction, Literal.printExponent, fraction]

theorem scientific_eq_print (ds : List Char) (e : Int) :
    json.scientific ds e = (scientificLiteral ds e).print := by
  have behind (rest : List Char) :
      Literal.printFraction (if rest.isEmpty then none else some rest) =
        if rest.isEmpty then [] else '.' :: rest := by
    split <;> rfl
  simp only [scientific, scientificLiteral, Literal.print, behind]
  by_cases below : e < 0 <;> simp [json, below, Literal.printExponent]

theorem unsigned_eq_print (mag : Nat) : json.unsigned mag = (unsignedLiteral mag).print := by
  unfold unsigned unsignedLiteral
  split
  · rfl
  · unfold decimalLiteral leading
    simp only
    split
    · exact plain_eq_print _ _
    · exact scientific_eq_print _ _

theorem negative_unsigned (mag : Nat) : (unsignedLiteral mag).negative = false := by
  unfold unsignedLiteral decimalLiteral plainLiteral scientificLiteral
  repeat' split
  all_goals rfl

theorem finite_eq_print (x : Binary64) : json.finite x = (literal x).print := by
  have text := unsigned_eq_print x.magnitude
  have positive := negative_unsigned x.magnitude
  unfold finite literal
  rw [text]
  simp only [Literal.print, positive]
  cases x.isNegative <;> rfl

theorem wellFormed_plain {ds : List Char} (h : Significant ds) (places : Int) :
    (plainLiteral ds places).WellFormed := by
  obtain ⟨⟨nonempty, digits⟩, nonzero⟩ := h
  unfold plainLiteral
  split
  · obtain ⟨n, hn⟩ : ∃ n, places.toNat = n + 1 := ⟨places.toNat - 1, by omega⟩
    obtain ⟨d, ds, rfl⟩ := List.exists_cons_of_ne_nil nonempty
    rw [hn]
    constructor
    · refine ⟨List.cons_ne_nil _ _, fun e he => ?_⟩
      rcases List.mem_cons.mp he with rfl | he
      · exact digits e List.mem_cons_self
      · rcases List.mem_append.mp he with he | he
        · exact digits e (List.mem_cons_of_mem _ (List.mem_of_mem_take he))
        · exact digits_replicate _ e he
    · intro zero
      exact absurd zero nonzero
    · rintro _ ⟨⟩
      by_cases empty : ((d :: ds).drop (n + 1)).isEmpty
      · rw [if_pos empty]
        exact ⟨List.cons_ne_nil _ _, digits_replicate 1⟩
      · rw [if_neg empty]
        refine ⟨by simpa using empty, fun e he => ?_⟩
        exact digits e (List.mem_of_mem_drop he)
    · rintro _ ⟨⟩
  · constructor
    · exact ⟨List.cons_ne_nil _ _, digits_replicate 1⟩
    · exact fun _ => rfl
    · rintro _ ⟨⟩
      refine ⟨List.append_ne_nil_of_right_ne_nil _ nonempty, fun e he => ?_⟩
      rcases List.mem_append.mp he with he | he
      · exact digits_replicate _ e he
      · exact digits e he
    · rintro _ ⟨⟩

theorem wellFormed_scientific {ds : List Char} (h : Significant ds) (e : Int) :
    (scientificLiteral ds e).WellFormed := by
  obtain ⟨⟨nonempty, digits⟩, nonzero⟩ := h
  obtain ⟨d, ds, rfl⟩ := List.exists_cons_of_ne_nil nonempty
  constructor
  · refine ⟨List.cons_ne_nil _ _, fun c hc => ?_⟩
    exact digits c (List.mem_cons.mpr (.inl (List.mem_singleton.mp hc)))
  · exact fun _ => rfl
  · intro fs hf
    simp only [scientificLiteral, List.drop_one, List.tail_cons] at hf
    split at hf <;> cases hf
    rename_i nonempty
    exact ⟨by simpa using nonempty, fun c hc => digits c (List.mem_cons_of_mem _ hc)⟩
  · rintro _ ⟨⟩
    exact digits_toDigits _

theorem wellFormed_decimal {d : Decimal} (h : 0 < d.digits) : (decimalLiteral d).WellFormed := by
  have ds := significant_dropTrailingZeros ⟨digits_toDigits _, head_toDigits h⟩
  unfold decimalLiteral
  split
  · exact wellFormed_plain ds _
  · exact wellFormed_scientific ds _

theorem unsigned_cases (mag : Nat) :
    unsignedLiteral mag = ⟨false, ['0'], some ['0'], none⟩ ∨
      ∃ d, Near d mag ∧ unsignedLiteral mag = decimalLiteral d := by
  unfold unsignedLiteral
  split
  · exact .inl rfl
  · rename_i nonzero
    rcases near_shortest nonzero json.tie with zero | near
    · rw [zero]
      exact .inl rfl
    · exact .inr ⟨_, near, rfl⟩

theorem wellFormed_literal (x : Binary64) : (literal x).WellFormed := by
  have form : (unsignedLiteral x.magnitude).WellFormed := by
    rcases unsigned_cases x.magnitude with zero | ⟨d, near, eq⟩
    · rw [zero]
      constructor <;> simp [Digits]
    · rw [eq]
      exact wellFormed_decimal near.positive
  exact ⟨form.whole, form.leading, form.fraction, form.exponent⟩

end RealFormat

end TagCodec
