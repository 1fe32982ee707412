import TagCodec.Json.Printer
import TagCodec.Proofs.FiniteNumbers
import TagCodec.Proofs.RecordText

namespace TagCodec.Json

/-- The literal of a whole number. -/
def intLiteral (x : Int) : Literal := ⟨decide (x < 0), Nat.toDigits 10 x.natAbs, none, none⟩

theorem print_int (x : Int) : (Number.int x).print = (intLiteral x).print := by
  unfold Number.print intLiteral Literal.print
  by_cases h : x < 0 <;> simp [h, Literal.printFraction, Literal.printExponent]

theorem wellFormed_intLiteral (x : Int) : (intLiteral x).WellFormed := by
  refine ⟨digits_toDigits _, ?_, nofun, nofun⟩
  intro zero
  by_cases h : x.natAbs = 0
  · rw [intLiteral, h]
    rfl
  · exact absurd zero (head_toDigits (Nat.pos_of_ne_zero h))

/-- A whole number of 64 bits, with or without a sign, is exact. -/
theorem value_intLiteral {x : Int} (lower : -0x8000000000000000 ≤ x)
    (upper : x < 0x10000000000000000) : (intLiteral x).value = .ok (.int x) := by
  have digits := Nat.ofDigitChars_ten_toDigits (n := x.natAbs)
  have fits : Nat.ofDigitChars 10 (Nat.toDigits 10 x.natAbs) 0 < Literal.significandLimit := by
    rw [digits, Literal.significandLimit]
    omega
  have taken := Literal.absorb_all fits
  rw [digits] at taken
  by_cases negative : x < 0
  · have size : 0 < x.natAbs ∧ x.natAbs ≤ 0x8000000000000000 := by omega
    simp only [Literal.value, intLiteral, taken, decide_eq_true negative, Bool.not_true,
      Bool.false_eq_true, if_false, if_pos size]
    congr 2
    omega
  · simp only [Literal.value, intLiteral, taken, decide_eq_false negative, Bool.not_false, if_true]
    congr 2
    omega

theorem number_start (n : Number) :
    ∃ c cs, n.print = c :: cs ∧ (c = '-' ∨ c.isDigit = true) := by
  cases n with
  | int x =>
    rw [print_int]
    exact head_print (wellFormed_intLiteral x)
  | real x =>
    rw [Number.print, RealFormat.finite_eq_print]
    exact head_print (RealFormat.wellFormed_literal x)

/-- Nothing but blanks. -/
def Blank (cs : List Char) : Prop := ∀ c ∈ cs, isBlank c = true

theorem blank_nil : Blank [] := fun _ h => nomatch h

theorem blank_newline (level : Nat) : Blank (newline level) := by
  intro c hc
  rcases List.mem_cons.mp hc with rfl | hc
  · decide
  · rw [List.eq_of_mem_replicate hc]
    decide

theorem skipBlanks_append {gap : List Char} (blank : Blank gap) {c : Char}
    (other : isBlank c = false) (cs : List Char) : skipBlanks (gap ++ c :: cs) = c :: cs := by
  rw [skipBlanks, List.dropWhile_append_of_pos blank]
  exact skipBlanks_cons other cs

/-- Blanks in front of it do not make a number of what is none. -/
theorem ends_append {gap : List Char} (blank : Blank gap) {c : Char}
    (other : continuesNumber c = false) (cs : List Char) : Ends (gap ++ c :: cs) := by
  cases gap with
  | nil => exact ends_cons other cs
  | cons d ds =>
    have first := blank d List.mem_cons_self
    apply ends_cons
    simp only [isBlank, Bool.or_eq_true, decide_eq_true_eq] at first
    rcases first with ((rfl | rfl) | rfl) | rfl <;> decide

/-- A text with a comma in front of it unless it is the first one. -/
def lead (first : Bool) (t : List Char) : List Char := if first then t else ',' :: t

/-- Texts with commas in between, and one in front of them all if they go on with something. -/
def sequel : (first : Bool) → List (List Char) → List Char
  | _, [] => []
  | first, t :: ts => lead first t ++ sequel false ts

theorem eq_sequel {α : Type} (join : List α → List Char) {text : α → List Char}
    (empty : join [] = []) (last : ∀ x, join [x] = text x)
    (further : ∀ x y xs, join (x :: y :: xs) = text x ++ ',' :: join (y :: xs)) (xs : List α) :
    join xs = sequel true (xs.map text) := by
  cases xs with
  | nil => exact empty
  | cons x xs =>
    -- a comma belongs to what follows it, so the first text stays apart
    induction xs generalizing x with
    | nil => rw [last, List.map_singleton, sequel, sequel, lead, if_pos rfl, List.append_nil]
    | cons y ys ih =>
      rw [further, ih y]
      rfl

theorem length_le_lead (first : Bool) (t : List Char) :
    t.length ≤ (lead first t).length := by
  cases first
  · exact Nat.le_succ _
  · exact Nat.le_refl _

/-- Each text of the sequel counts. -/
theorem length_le_sequel {t : List Char} {ts : List (List Char)} (member : t ∈ ts) (first : Bool) :
    t.length ≤ (sequel first ts).length := by
  induction ts generalizing first with
  | nil => cases member
  | cons u us ih =>
    have head := length_le_lead first u
    rw [sequel, List.length_append]
    rcases List.mem_cons.mp member with rfl | member
    · omega
    · have more := ih member false
      omega

theorem count_le_sequel {ts : List (List Char)} (nonempty : ∀ t ∈ ts, t ≠ []) (first : Bool) :
    ts.length ≤ (sequel first ts).length := by
  induction ts generalizing first with
  | nil => exact Nat.zero_le _
  | cons t ts ih =>
    have positive := List.length_pos_iff.mpr (nonempty t List.mem_cons_self)
    have head := length_le_lead first t
    have more := ih (fun u hu => nonempty u (List.mem_cons_of_mem t hu)) false
    rw [sequel, List.length_append, List.length_cons]
    omega

theorem ends_sequel {stop : List Char} (blank : Blank stop) {c : Char}
    (other : continuesNumber c = false) (ts : List (List Char)) (cs : List Char) :
    Ends (sequel false ts ++ (stop ++ c :: cs)) := by
  cases ts with
  | nil => exact ends_append blank other cs
  | cons t ts => exact ends_cons rfl _

/-- A value is written without blanks, or over lines with its last one on some level. -/
inductive Style
  | plain
  | indented (level : Nat)
deriving DecidableEq

namespace Style

def write : Style → Json → List Char
  | plain, v => v.compact
  | indented level, v => v.pretty level

def text : Style → Json → String
  | plain, v => v.text
  | indented level, v => String.ofList (v.pretty level)

theorem toList_text (style : Style) (v : Json) : (style.text v).toList = style.write v := by
  cases style <;> exact String.toList_ofList

/-- The style of what stands between the brackets. -/
def inner : Style → Style
  | plain => plain
  | indented level => indented (level + 1)

/-- What stands in front of an item. -/
def gap : Style → List Char
  | plain => []
  | indented level => newline level

/-- What stands in front of the value of a member. -/
def space : Style → List Char
  | plain => []
  | indented _ => [' ']

theorem blank_gap (style : Style) : Blank style.gap := by
  cases style with
  | plain => exact blank_nil
  | indented level => exact blank_newline level

theorem blank_space (style : Style) : Blank style.space := by
  cases style with
  | plain => exact blank_nil
  | indented level =>
    intro c hc
    rw [List.mem_singleton.mp hc]
    decide

def item (style : Style) (v : Json) : List Char := style.gap ++ style.write v

def member (style : Style) (m : String × Json) : List Char :=
  style.gap ++ (quote m.1 ++ ':' :: (style.space ++ style.write m.2))

theorem write_bool (style : Style) (b : Bool) : style.write (.bool b) = printBool b := by
  cases style <;> rfl

theorem write_number (style : Style) (n : Number) : style.write (.number n) = n.print := by
  cases style <;> rfl

theorem write_string (style : Style) (s : String) : style.write (.string s) = quote s := by
  cases style <;> rfl

theorem write_array (style : Style) (vs : List Json) : ∃ stop, Blank stop ∧
    style.write (.array vs) =
      '[' :: (sequel true (vs.map style.inner.item) ++ (stop ++ [']'])) := by
  cases style with
  | plain =>
    have items : compactItems vs = sequel true (vs.map plain.item) :=
      eq_sequel compactItems rfl (fun _ => rfl) (fun _ _ _ => rfl) vs
    refine ⟨[], blank_nil, ?_⟩
    rw [write, compact, items]
    rfl
  | indented level =>
    cases vs with
    | nil => exact ⟨[], blank_nil, rfl⟩
    | cons v vs =>
      have items : prettyItems (level + 1) (v :: vs) =
          sequel true ((v :: vs).map (indented (level + 1)).item) := by
        apply eq_sequel (prettyItems (level + 1))
        · rfl
        · intro w
          rfl
        · intro w x ws
          simp [prettyItems, item, gap, write]
      refine ⟨newline level, blank_newline level, ?_⟩
      rw [write, pretty, items, List.cons_append, List.cons_append, List.append_assoc]
      · rfl
      · exact List.cons_ne_nil _ _

theorem write_object (style : Style) (ms : List (String × Json)) : ∃ stop, Blank stop ∧
    style.write (.object ms) =
      '{' :: (sequel true (ms.map style.inner.member) ++ (stop ++ ['}'])) := by
  cases style with
  | plain =>
    have members : compactMembers ms = sequel true (ms.map plain.member) := by
      apply eq_sequel compactMembers
      · rfl
      · intro m
        rfl
      · intro m n ns
        simp [compactMembers, member, gap, space, write]
    refine ⟨[], blank_nil, ?_⟩
    rw [write, compact, members]
    rfl
  | indented level =>
    cases ms with
    | nil => exact ⟨[], blank_nil, rfl⟩
    | cons m ms =>
      have members : prettyMembers (level + 1) (m :: ms) =
          sequel true ((m :: ms).map (indented (level + 1)).member) := by
        apply eq_sequel (prettyMembers (level + 1))
        · rfl
        · intro n
          simp [prettyMembers, member, gap, space, write]
        · intro n o ns
          simp [prettyMembers, member, gap, space, write]
      refine ⟨newline level, blank_newline level, ?_⟩
      rw [write, pretty, members, List.cons_append, List.cons_append, List.append_assoc]
      · rfl
      · exact List.cons_ne_nil _ _

/-- The text of a value begins with it, neither with a blank nor with the end of a list. -/
theorem write_start (style : Style) (v : Json) :
    ∃ c cs, style.write v = c :: cs ∧ isBlank c = false ∧ c ≠ ']' := by
  cases v with
  | null => cases style <;> exact ⟨_, _, rfl, rfl, by decide⟩
  | bool b => cases style <;> cases b <;> exact ⟨_, _, rfl, rfl, by decide⟩
  | number n =>
    obtain ⟨c, cs, text, start⟩ := number_start n
    refine ⟨c, cs, ?_, isBlank_start start, ne_of_start start (by decide) rfl⟩
    rw [write_number, text]
  | string s =>
    rw [write_string]
    exact ⟨_, _, rfl, rfl, by decide⟩
  | array vs =>
    obtain ⟨stop, _, text⟩ := style.write_array vs
    exact ⟨_, _, text, rfl, by decide⟩
  | object ms =>
    obtain ⟨stop, _, text⟩ := style.write_object ms
    exact ⟨_, _, text, rfl, by decide⟩

end Style

end TagCodec.Json
