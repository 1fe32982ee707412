import TagCodec.Binary64.Text
import TagCodec.Value.Basic

namespace TagCodec

def Point.debugText (p : Point) : String :=
  "Point \x7b x: " ++ toString p.x.toInt ++ ", y: " ++ toString p.y.toInt ++ " \x7d"

def Record.debugText : Record → String
  | circle radius => "Circle \x7b radius: " ++ radius.debugText ++ " \x7d"
  | square side => "Square \x7b side: " ++ side.debugText ++ " \x7d"
  | triangle base height =>
    "Triangle \x7b base: " ++ base.debugText ++ ", height: " ++ height.debugText ++ " \x7d"

def Leaf.debugText : Leaf → String
  | point p => p.debugText
  | holder p => "Holder \x7b inner: " ++ p.debugText ++ " \x7d"
  | label text => "Label(" ++ Text.quoted text ++ ")"
  | record r => r.debugText
  | member e i => e.cases.get i
  | token c id => "Token(" ++ c.name ++ ", " ++ toString id.toInt ++ ")"

/-- Wherever null may stand, an object's text is wrapped. -/
def Value.optionText : Value → String
  | null => "None"
  | leaf _ x => "Some(" ++ x.debugText ++ ")"
  | pair _ l r =>
    "Some(Pair \x7b left: " ++ l.optionText ++ ", right: " ++ r.optionText ++ " \x7d)"

def Value.debugText : Value → String
  | null => "None"
  | leaf _ x => x.debugText
  | pair _ l r => "Pair \x7b left: " ++ l.optionText ++ ", right: " ++ r.optionText ++ " \x7d"

end TagCodec
