namespace TagCodec.Varint

/-- The shortest spelling of `n`: seven bits a byte, the least significant first, and the high bit
set on every byte but the last. -/
def encode (n : Nat) : List UInt8 :=
  if n < 128 then [UInt8.ofNat n]
  else UInt8.ofNat (n % 128 + 128) :: encode (n / 128)
termination_by n

/-- Numbers of small size, whichever their sign, get small codes: 0, -1, 1, -2, 2, … -/
def zigzag (x : Int) : Nat :=
  if 0 ≤ x then (2 * x).toNat else (-2 * x - 1).toNat

/-- An even code stands for half of itself, an odd one for a negative number. -/
def unzigzag (n : Nat) : Int :=
  if n % 2 = 0 then (n / 2 : Nat) else -((n / 2 : Nat) + 1)

theorem unzigzag_zigzag (x : Int) : unzigzag (zigzag x) = x := by
  unfold zigzag unzigzag
  by_cases h : 0 ≤ x
  · rw [if_pos h]; split <;> omega
  · rw [if_neg h]; split <;> omega

theorem zigzag_unzigzag (n : Nat) : zigzag (unzigzag n) = n := by
  unfold unzigzag
  split <;> (unfold zigzag; split <;> omega)

end TagCodec.Varint
