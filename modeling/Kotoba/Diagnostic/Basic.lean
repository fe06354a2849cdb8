import Kotoba.Source.Span
import Kotoba.Text.Bytes

/-! Diagnostics: what went wrong, at which stage, and where. -/
namespace Kotoba

namespace Diagnostic

inductive Class where
  | lexical
  | syntactic
  | typing
  | runtime
  | recursion
  | other (code : Int)
deriving DecidableEq, Repr

namespace Class

def ofCode : Int → Class
  | 0 => lexical
  | 1 => syntactic
  | 2 => typing
  | 3 => runtime
  | 4 => recursion
  | code => other code

def name : Class → String
  | lexical => "Lexical"
  | syntactic => "Syntax"
  | typing => "Type"
  | runtime => "Runtime"
  | recursion => "Recursion"
  | other code => s!"unknown_class_{code}"

end Class

inductive Kind where
  | unrecognizedCharacter
  | identifierTooLong
  | stringTooLong
  | unterminatedString
  | invalidEscape
  | nonPrintable
  | integerOverflow
  | unexpectedToken
  | unexpectedEnd
  | invalidOperation
  | unaryOperand
  | divisionByZero
  | undefinedName
  | duplicateParameter
  | arity
  | indexOutOfBounds
  | nonIntegerRange
  | notAnArray
  | argumentType
  | fileMode
  | fileState
  | fileFailure
  | tooLarge
  | callDepth
deriving DecidableEq, Repr

namespace Kind

def text : Kind → String
  | unrecognizedCharacter => "unrecognized character"
  | identifierTooLong => "identifier too long"
  | stringTooLong => "string too long"
  | unterminatedString => "unterminated string"
  | invalidEscape => "invalid escape sequence"
  | nonPrintable => "non-printable character in string"
  | integerOverflow => "integer literal overflow"
  | unexpectedToken => "unexpected token"
  | unexpectedEnd => "unexpected token: end of input"
  | invalidOperation => "invalid operation"
  | unaryOperand => "invalid unary operand"
  | divisionByZero => "division by zero"
  | undefinedName => "undefined name"
  | duplicateParameter => "duplicate parameter"
  | arity => "wrong number of arguments"
  | indexOutOfBounds => "index out of bounds"
  | nonIntegerRange => "non-integer range bound"
  | notAnArray => "not an array"
  | argumentType => "invalid argument"
  | fileMode => "invalid file mode"
  | fileState => "invalid file state"
  | fileFailure => "file i/o failure"
  | tooLarge => "allocation too large"
  | callDepth => "maximum call depth exceeded"

def all : List Kind := [
  unrecognizedCharacter, identifierTooLong, stringTooLong, unterminatedString, invalidEscape,
  nonPrintable, integerOverflow, unexpectedToken, unexpectedEnd, invalidOperation, unaryOperand,
  divisionByZero, undefinedName, duplicateParameter, arity, indexOutOfBounds, nonIntegerRange,
  notAnArray, argumentType, fileMode, fileState, fileFailure, tooLarge, callDepth]

def ofText? (s : String) : Option Kind := all.find? (·.text == s)

/-- The kinds a fault of kind `k` counts as: an unexpected end is also an unexpected token. -/
def generalizations : Kind → List Kind
  | unexpectedEnd => [unexpectedToken, unexpectedEnd]
  | k => [k]

end Kind

end Diagnostic

structure Diagnostic where
  stage : Diagnostic.Class
  kind : Option Diagnostic.Kind := none
  message : Bytes
  /-- The text of the outer failure, such as a refused system call, behind this one. -/
  cause : Option Bytes := none
  span : Span := {}

namespace Diagnostic

def text (d : Diagnostic) : Bytes :=
  Bytes.ofString d.stage.name ++ " Error: " ++ d.message ++
    (match d.cause with
      | some cause => ": " ++ cause
      | none => .empty) ++
    (if d.span.isUnknown then .empty else Bytes.ofString (" at position " ++ d.span.text))

def locate (d : Diagnostic) (span : Span) : Diagnostic :=
  if d.span.isUnknown then { d with span } else d

/-- Whether more input could mend the fault: the text ended too early. -/
def isIncomplete (d : Diagnostic) : Bool := d.kind == some .unexpectedEnd

end Diagnostic

end Kotoba
