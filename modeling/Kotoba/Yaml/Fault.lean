import Kotoba.Yaml.Cursor

/-! Why a YAML text is not read. -/
namespace Kotoba.Yaml

/-- How many brackets, and how many levels of indentation, may be open. -/
def maxDepth : Nat := 10000

/-- What is wrong with the bytes of a text. -/
inductive Unreadable where
  | badLeading
  | badTrailing
  | badLength
  | noCharacter
  | incomplete
  | incompleteUnit
  | incompletePair
  | loneLow
  | missingLow
  | control
deriving DecidableEq, Repr

def Unreadable.text : Unreadable → String
  | badLeading => "invalid leading UTF-8 octet"
  | badTrailing => "invalid trailing UTF-8 octet"
  | badLength => "invalid length of a UTF-8 sequence"
  | noCharacter => "invalid Unicode character"
  | incomplete => "incomplete UTF-8 octet sequence"
  | incompleteUnit => "incomplete UTF-16 character"
  | incompletePair => "incomplete UTF-16 surrogate pair"
  | loneLow => "unexpected low surrogate area"
  | missingLow => "expected low surrogate area"
  | control => "control characters are not allowed"

inductive Lexical where
  | noToken
  | misplacedItem
  | misplacedKey
  | misplacedValue
  | missingColon
  | tooDeep
  | tabInIndentation
  | unclosedQuote
  | markInQuote
  | unknownEscape
  | badEscapeDigit
  | badEscapeCode
  | zeroIndentation
  | trailingText
  | tabInBlock
  | missingName
  | missingHandleMark
  | missingTag
  | badOctet
  | badLeadingOctet
  | badTrailingOctet
  | unclosedTag
  | missingBlank
  | missingBlankOrBreak
  | missingDirectiveName
  | badDirectiveName
  | unknownDirective
  | missingVersionPoint
  | longVersionNumber
  | missingVersionNumber
deriving DecidableEq, Repr

def Lexical.text : Lexical → String
  | noToken => "found character that cannot start any token"
  | misplacedItem => "block sequence entries are not allowed in this context"
  | misplacedKey => "mapping keys are not allowed in this context"
  | misplacedValue => "mapping values are not allowed in this context"
  | missingColon => "could not find expected ':'"
  | tooDeep => s!"exceeded max depth of {maxDepth}"
  | tabInIndentation => "found a tab character that violates indentation"
  | unclosedQuote => "found unexpected end of stream"
  | markInQuote => "found unexpected document indicator"
  | unknownEscape => "found unknown escape character"
  | badEscapeDigit => "did not find expected hexdecimal number"
  | badEscapeCode => "found invalid Unicode character escape code"
  | zeroIndentation => "found an indentation indicator equal to 0"
  | trailingText => "did not find expected comment or line break"
  | tabInBlock => "found a tab character where an indentation space is expected"
  | missingName => "did not find expected alphabetic or numeric character"
  | missingHandleMark => "did not find expected '!'"
  | missingTag => "did not find expected tag URI"
  | badOctet => "did not find URI escaped octet"
  | badLeadingOctet => "found an incorrect leading UTF-8 octet"
  | badTrailingOctet => "found an incorrect trailing UTF-8 octet"
  | unclosedTag => "did not find the expected '>'"
  | missingBlank => "did not find expected whitespace"
  | missingBlankOrBreak => "did not find expected whitespace or line break"
  | missingDirectiveName => "could not find expected directive name"
  | badDirectiveName => "found unexpected non-alphabetical character"
  | unknownDirective => "found unknown directive name"
  | missingVersionPoint => "did not find expected digit or '.' character"
  | longVersionNumber => "found extremely long version number"
  | missingVersionNumber => "did not find expected version number"

inductive Structural where
  | missingKey
  | missingItem
  | missingSequenceEnd
  | missingMappingEnd
  | missingContent
  | missingDocumentStart
  | undefinedHandle
  | repeatedVersion
  | repeatedHandle
  | incompatibleVersion
deriving DecidableEq, Repr

def Structural.text : Structural → String
  | missingKey => "did not find expected key"
  | missingItem => "did not find expected '-' indicator"
  | missingSequenceEnd => "did not find expected ',' or ']'"
  | missingMappingEnd => "did not find expected ',' or '\x7d'"
  | missingContent => "did not find expected node content"
  | missingDocumentStart => "did not find expected <document start>"
  | undefinedHandle => "found undefined tag handle"
  | repeatedVersion => "found duplicate %YAML directive"
  | repeatedHandle => "found duplicate %TAG directive"
  | incompatibleVersion => "found incompatible YAML document"

/-- Why a text is not read. Of a fault in a construct two lines are known, where the construct
starts and where the fault was noticed. -/
inductive Fault where
  | unreadable (cause : Unreadable)
  | unknownAnchor (name : String)
  | lexical (cause : Lexical) (start noticed : Nat)
  | structural (cause : Structural) (start noticed : Nat)
deriving DecidableEq, Repr

namespace Fault

def text : Fault → String
  | unreadable cause => cause.text
  | unknownAnchor name => "unknown anchor '" ++ name ++ "' referenced"
  | lexical cause _ _ => cause.text
  | structural cause _ _ => cause.text

/-- The line a report names: where the construct starts, or where the fault was noticed if that is
the first line. Lexical faults count lines from one, structural ones from zero. -/
def line? : Fault → Option Nat
  | lexical _ 0 0 | structural _ 0 0 => none
  | lexical _ 0 noticed => some (noticed + 1)
  | lexical _ start _ => some (start + 1)
  | structural _ 0 noticed => some noticed
  | structural _ start _ => some start
  | unreadable _ | unknownAnchor _ => none

def message (f : Fault) : String :=
  match f.line? with
  | none => "yaml: " ++ f.text
  | some line => s!"yaml: line {line}: " ++ f.text

end Fault

namespace Cursor

def fault (c : Cursor) (cause : Lexical) : Fault := .lexical cause c.line c.line

/-- Passes over a comment and the end of a line on which nothing else may stand. -/
def lineRest (c : Cursor) (start : Nat) : Except Fault Cursor :=
  let c := c.skipWhile isSpace
  let c := if c.rest.head? = some '#' then c.skipLine else c
  match c.lineEnd? with
  | some (_, c) => .ok c
  | none => if c.rest.isEmpty then .ok c else .error (.lexical .trailingText start c.line)

end Cursor

end Kotoba.Yaml
