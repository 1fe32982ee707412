import TagCodec.Config
import TagCodec.Fallback.Memo
import TagCodec.Names
import TagCodec.Value.Text

namespace TagCodec

/-- Why a step or the construction of a registry fails. -/
inductive DraftError
  | duplicateConstant (text : String)
  | conflictingClaims (cls : String)
  | tooLarge (entries : Nat)
deriving DecidableEq, Repr

def DraftError.message : DraftError → String
  | duplicateConstant text => "constant " ++ text ++ " is already registered"
  | conflictingClaims cls => "class '" ++ cls ++ "' is claimed by more than one codec"
  | tooLarge entries =>
    "registry too large: " ++ toString entries ++ " tags do not fit the tag space"

/-- What a registry is to contain, collected step by step. -/
structure Draft where
  allowDefault : Bool
  /-- In the order of registration. -/
  codecs : List Codec
  /-- In the order of registration. -/
  constants : List Value
  /-- The classes that may get a codec when they need one. -/
  names : Names
  fallback : Fallback
  codecs_distinct : (codecs.map Codec.id).Nodup
  constants_distinct : (constants.map Value.identity?).Nodup
  constants_not_null : Value.null ∉ constants

namespace Draft

def empty : Draft where
  allowDefault := true
  codecs := []
  constants := []
  names := .empty
  fallback := .none
  codecs_distinct := .nil
  constants_distinct := .nil
  constants_not_null := List.not_mem_nil

theorem nodup_concat {a : α} {xs : List α} (h : xs.Nodup) (new : a ∉ xs) : (xs ++ [a]).Nodup :=
  List.nodup_append.mpr ⟨h, by simp, fun x hx y hy same =>
    new (List.mem_singleton.mp hy ▸ same ▸ hx)⟩

/-- Changes nothing if this very codec is there already. -/
def addCodec (d : Draft) (c : Codec) : Draft :=
  if h : c.id ∈ d.codecs.map Codec.id then d
  else { d with
    codecs := d.codecs ++ [c]
    codecs_distinct := by simpa using nodup_concat d.codecs_distinct h }

/-- Takes any object that is not yet a constant, however like one it may look. -/
def addConstant (d : Draft) (v : Value) (object : v ≠ .null) : Except DraftError Draft :=
  if h : v.identity? ∈ d.constants.map Value.identity? then
    .error (.duplicateConstant v.debugText)
  else .ok { d with
    constants := d.constants ++ [v]
    constants_distinct := by simpa using nodup_concat d.constants_distinct h
    constants_not_null := by simp [d.constants_not_null, object.symm] }

def addName (d : Draft) (name : String) : Draft := { d with names := d.names.insert name }

def allow (d : Draft) (allowed : Bool) : Draft := { d with allowDefault := allowed }

def withResolver (d : Draft) (r : Resolver) : Draft :=
  { d with fallback := { d.fallback with resolver := r } }

def withFactory (d : Draft) (f : Factory) : Draft :=
  { d with fallback := { d.fallback with factory := f } }

/-- Adds the names of a configuration and takes over its switch. -/
def withConfig (d : Draft) (c : Config) : Draft :=
  (c.fallbackClasses.foldl addName d).allow c.allowDefault

end Draft

end TagCodec
