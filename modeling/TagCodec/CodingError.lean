import TagCodec.Bytes.Cursor
import TagCodec.Json.Basic

namespace TagCodec

/-- Why a registry has no codec for a value or a tag. -/
inductive LookupError
  | fallbackDisabled (cls : String)
  | unknownTag (t : Tag)
  /-- The class is not listed among those that may get a codec when they need one. -/
  | notListed (cls : String)
  | constructionFailed (cls : String)
deriving DecidableEq, Repr

def LookupError.message : LookupError → String
  | fallbackDisabled cls =>
    "no codec available for " ++ cls ++ " and default fallback disabled"
  | unknownTag t => "no codec available for tag " ++ t.text
  | notListed cls => "no default codec available for " ++ cls
  | constructionFailed cls =>
    "there was a problem creating a codec for " ++ cls ++ ", check logs for details"

inductive CodingError
  | noCodec (reason : LookupError)
  | field (reason : FieldError)
  | json (reason : JsonError)
  | typeMismatch (expected found : String)
  | unknownOrdinal (cls : String) (ordinal : Nat)
  | backReference (t : Tag)
  | tooDeep (limit : Nat)
deriving DecidableEq, Repr

def CodingError.message : CodingError → String
  | noCodec reason => reason.message
  | field reason => reason.message
  | json reason => "json: " ++ reason.message
  | typeMismatch expected found => "type mismatch: expected " ++ expected ++ ", found " ++ found
  | unknownOrdinal cls ordinal =>
    "ordinal " ++ toString ordinal ++ " is out of range for enum " ++ cls
  | backReference t => "backreference tag " ++ t.text ++ " is not supported by this session"
  | tooDeep limit => "nesting deeper than " ++ toString limit ++ " values"

end TagCodec
