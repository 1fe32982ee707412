import TagCodec.Json.Text

namespace TagCodec.Json

theorem hexDigit_digitChar : ∀ d < 16, hexDigit? (Nat.digitChar d) = some d := by decide

theorem unit_hex4 {n : Nat} (h : n < 0x10000) : unit? (Nat.digitChar (n / 4096 % 16))
    (Nat.digitChar (n / 256 % 16)) (Nat.digitChar (n / 16 % 16)) (Nat.digitChar (n % 16)) =
      some n := by
  have digit : ∀ k, hexDigit? (Nat.digitChar (k % 16)) = some (k % 16) := fun k =>
    hexDigit_digitChar _ (Nat.mod_lt k (by decide))
  have value : ((n / 4096 % 16 * 16 + n / 256 % 16) * 16 + n / 16 % 16) * 16 + n % 16 = n := by
    omega
  simp only [unit?, digit, bind, Option.bind, pure, value]

theorem stringRest_step {c : Char} (quote : c ≠ '"') (escape : c ≠ '\\')
    (control : ¬ c.toNat < 0x20) (acc cs : List Char) :
    stringRest acc (c :: cs) = stringRest (c :: acc) cs := by
  rw [stringRest.eq_def]
  split
  · rename_i same
    cases same
  · rename_i same
    exact absurd (List.cons.inj same).1 quote
  iterate 2
    rename_i same
    exact absurd (List.cons.inj same).1 escape
  rename_i same
  obtain ⟨rfl, rfl⟩ := List.cons.inj same
  exact if_neg control

theorem stringRest_hex4 {c : Char} (control : c.toNat < 0x20) (acc cs : List Char) :
    stringRest acc ('\\' :: 'u' :: hex4 c.toNat ++ cs) = stringRest (c :: acc) cs := by
  have high : isHighSurrogate c.toNat = false := decide_eq_false (by omega)
  have low : isLowSurrogate c.toNat = false := decide_eq_false (by omega)
  simp only [hex4, List.cons_append, List.nil_append, stringRest,
    unit_hex4 (Nat.lt_trans control (by decide)), high, low, Char.ofNat_toNat]
  rfl

theorem stringRest_quotedChar (c : Char) (acc cs : List Char) :
    stringRest acc (quotedChar c ++ cs) = stringRest (c :: acc) cs := by
  unfold quotedChar
  split
  iterate 7 rfl
  rename_i quote escape _ _ _ _ _
  split
  · rename_i control
    exact stringRest_hex4 control acc cs
  · rename_i control
    exact stringRest_step quote escape control acc cs

theorem stringRest_quoted (cs acc rest : List Char) :
    stringRest acc (cs.flatMap quotedChar ++ '"' :: rest) =
      .ok (String.ofList (acc.reverse ++ cs), rest) := by
  induction cs generalizing acc with
  | nil => simp [stringRest]
  | cons c cs ih =>
    rw [List.flatMap_cons, List.append_assoc, stringRest_quotedChar, ih, List.reverse_cons,
      List.append_assoc]
    rfl

theorem stringRest_quote (s : String) (rest : List Char) :
    stringRest [] (s.toList.flatMap quotedChar ++ '"' :: rest) = .ok (s, rest) := by
  rw [stringRest_quoted, List.reverse_nil, List.nil_append, String.ofList_toList]

theorem quote_append (s : String) (rest : List Char) :
    quote s ++ rest = '"' :: (s.toList.flatMap quotedChar ++ '"' :: rest) := by
  rw [quote, List.append_assoc]
  rfl

end TagCodec.Json
