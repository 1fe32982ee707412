namespace TagCodec

/-- What follows on the wire. Zero stands for null and negative numbers for back references. -/
structure Tag where
  val : Int32
deriving DecidableEq, Repr

namespace Tag

def null : Tag := ⟨0⟩

/-- The first tag that a registry hands out. -/
def first : Tag := ⟨1⟩

def toInt (t : Tag) : Int := t.val.toInt

def ofInt (x : Int) : Tag := ⟨Int32.ofInt x⟩

def isNull (t : Tag) : Bool := t.toInt == 0

def isBackReference (t : Tag) : Bool := decide (t.toInt < 0)

/-- The tag `n` places after `t`. It does not wrap for the counts that `Draft.build` accepts. -/
def offset (t : Tag) (n : Nat) : Tag := ofInt (t.toInt + n)

instance : Ord Tag := ⟨fun s t => compare s.toInt t.toInt⟩

def max (s t : Tag) : Tag := if s.toInt ≤ t.toInt then t else s

/-- Decimal, with a minus sign in front of a negative tag. -/
def text (t : Tag) : String := toString t.toInt

def debugText (t : Tag) : String := "Tag(" ++ t.text ++ ")"

@[simp] theorem ofInt_toInt (t : Tag) : ofInt t.toInt = t := by
  simp [ofInt, toInt, Int32.ofInt_toInt]

theorem toInt_ofInt {x : Int} (lower : -0x80000000 ≤ x) (upper : x < 0x80000000) :
    (ofInt x).toInt = x :=
  Int32.toInt_ofInt_of_le (by omega) (by omega)

theorem toInt_offset {t : Tag} {n : Nat} (h : t.toInt + n < 0x80000000) :
    (t.offset n).toInt = t.toInt + n := by
  have := Int32.le_toInt t.val
  exact toInt_ofInt (by simp only [toInt] at *; omega) h

theorem toInt_first_offset {n : Nat} (h : n < 0x7FFFFFFF) : (first.offset n).toInt = n + 1 := by
  have : first.toInt = 1 := by decide
  rw [toInt_offset (by omega)]
  omega

end Tag

end TagCodec
