import TagCodec.ClassPath

namespace TagCodec.Catalog

def shape : Class := .plain "demo.shapes.Shape"

def circle : Class := ((Class.plain "demo.shapes.Circle").extending shape).withRecord .circle

def square : Class := ((Class.plain "demo.shapes.Square").extending shape).withRecord .square

/-- No subclass of `shape`. -/
def triangle : Class := (Class.plain "demo.shapes.Triangle").withRecord .triangle

def point : Class := .plain "demo.geo.Point"

def label : Class := .plain "demo.text.Label"

def pair : Class := .plain "demo.Pair"

def holder : Class := .plain "demo.Holder"

def color : Class := .enumeration "demo.Color" .color

def status : Class := .enumeration "demo.Status" .status

/-- The one case of an enumeration that has a class of its own. -/
def special : Class := .enumCase "demo.Status$1" status

/-- The sample palette, which goes by the same name as `color`. -/
def swatch : Class := .enumeration "demo.Color" .swatch

def record : RecordType → Class
  | .circle => circle
  | .square => square
  | .triangle => triangle

def enumeration : Enumeration → Class
  | .color => color
  | .status => status
  | .swatch => swatch

/-- Every class of the catalog but the sample palette's. -/
def all : List Class :=
  [shape, circle, square, triangle, point, label, pair, holder, color, status, special]

/-- Classes that a fallback codec may be asked for. -/
def classPath : ClassPath := .ofList [circle, square, shape, color, status]

end TagCodec.Catalog
