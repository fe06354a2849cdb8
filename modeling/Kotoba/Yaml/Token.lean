/-! The tokens of YAML texts. -/
namespace Kotoba.Yaml

inductive Style where
  | plain
  | quoted
deriving DecidableEq, Repr

/-- What a token says. Block collections have no signs of their own: their starts and ends follow
from the indentation. -/
inductive Sign where
  | streamEnd
  | version (major minor : Nat)
  | tagHandle (handle meaning : String)
  | documentStart
  | documentEnd
  | blockSequence
  | blockMapping
  | blockEnd
  | flowSequence
  | flowSequenceEnd
  | flowMapping
  | flowMappingEnd
  | item
  | comma
  | key
  | value
  | reference (name : String)
  | anchor (name : String)
  | tag (handle suffix : String)
  | scalar (text : String) (style : Style)
deriving DecidableEq, Repr

/-- A sign with the line it stands in, from zero. -/
structure Token where
  sign : Sign
  line : Nat
deriving DecidableEq, Repr

end Kotoba.Yaml
