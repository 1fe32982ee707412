import TagCodec.ClassPath
import TagCodec.Tag

namespace TagCodec

/-- A counter is the name under which the calls of a resolver or a factory are counted. -/
inductive Event
  | built (explicit constants fallback : Nat) (allowDefault : Bool)
  | asked (counter : Option String) (cls : String)
  /-- A factory was called for a class, as an enumeration or as a record of fields. -/
  | called (counter : Option String) (cls : String) (asEnumeration : Bool)
  | created (cls : String) (t : Tag)
  | failed (cls : String) (t : Tag) (reason : ConstructionError)
deriving DecidableEq, Repr

inductive LogLevel
  | debug | warning
deriving DecidableEq, Repr

structure LogLine where
  level : LogLevel
  message : String
  fields : List (String × String)
deriving DecidableEq, Repr

def LogLevel.text : LogLevel → String
  | debug => "DEBUG"
  | warning => "WARN"

namespace Event

/-- How an attempt at a codec went. -/
def outcome (cls : String) (t : Tag) : Except ConstructionError α → Event
  | .ok _ => created cls t
  | .error reason => failed cls t reason

/-- The calls of resolvers and factories leave no line. -/
def logLine? : Event → Option LogLine
  | built explicit constants fallback allow =>
    some ⟨.debug, "built codec registry",
      [("explicit", toString explicit), ("constants", toString constants),
        ("fallback", toString fallback), ("allow_default_codec", toString allow)]⟩
  | asked _ _ => none
  | called _ _ _ => none
  | created cls t => some ⟨.debug, "constructed fallback codec", [("class", cls), ("tag", t.text)]⟩
  | failed cls t reason =>
    some ⟨.warning, "could not create fallback codec",
      [("class", cls), ("tag", t.text), ("error", reason.message)]⟩

/-- How often the resolver of this counter was asked. -/
def countAsked (counter : String) (trace : List Event) : Nat :=
  trace.countP fun
    | asked c _ => c == some counter
    | _ => false

/-- How often the factory of this counter was called. -/
def countCalled (counter : String) (trace : List Event) : Nat :=
  trace.countP fun
    | called c _ _ => c == some counter
    | _ => false

def logLines (trace : List Event) : List LogLine := trace.filterMap logLine?

end Event

end TagCodec
