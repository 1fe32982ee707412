import TagCodec.Binary64.Text

namespace TagCodec

/-- A text is no JSON at all, or it is JSON of another shape than the reader asked for. -/
inductive JsonError
  | malformed
  | misshapen
deriving DecidableEq, Repr

def JsonError.message : JsonError → String
  | malformed => "malformed text"
  | misshapen => "unexpected shape"

namespace Json

/-- A number without fraction and exponent stays exact as long as it fits into 64 bits. -/
inductive Number
  | int (x : Int)
  | real (x : Binary64)
deriving DecidableEq

/-- The nearest double-precision number. -/
def Number.toBinary64 : Number → Binary64
  | int x => Binary64.ofMagnitude (decide (x < 0)) (Binary64.ofNat x.natAbs)
  | real x => x

end Json

inductive Json
  | null
  | bool (b : Bool)
  | number (n : Json.Number)
  | string (s : String)
  | array (items : List Json)
  | object (members : List (String × Json))

namespace Json

/-- A number that is not finite has no JSON form and becomes null. -/
def ofBinary64 (x : Binary64) : Json :=
  if x.isFinite then number (.real x) else null

def ofTag (x : Int) : Json := number (.int x)

/-- The last of several members of one name counts. -/
def member? (members : List (String × Json)) (name : String) : Option Json :=
  (members.reverse.find? fun m => m.1 == name).map (·.2)

end Json

end TagCodec
