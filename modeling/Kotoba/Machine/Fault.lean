import Kotoba.Scope.Arena

/-! Why an evaluation fails. -/
namespace Kotoba.Machine

/-- The largest string, in bytes, that repetition makes, and the largest sized array. -/
def maxAllocation : Nat := 16777216

/-- The cause of a failure. Values are described in the words of the moment it happened. -/
inductive Fault where
  | lookup (fault : Arena.Fault)
  | file (fault : File.Fault)
  | callDepth (limit : Nat) (function : String)
  | arity (function : String) (expected given : Nat)
  | duplicateParameter (parameter function : String)
  | operands (op : Op) (left right : Value.Kind)
  | unknownOperator (op : Op)
  | divisionByZero
  | remainderByZero
  | negativeRepetition (count : Int64)
  | longRepetition (size : Nat) (count : Int64)
  | unaryOperand (op : Op) (given : Bytes)
  | notNumber (op : Op) (given : Bytes)
  | rangeBound (kind : Value.Kind)
  | notString (role : String) (given : Bytes)
  | notFile (name : String) (given : Bytes)
  | readCount (given : Bytes)
  | arraySize (given : Bytes)
  | largeArray (size : Int64)
  | notArray (name : String) (given : Bytes)
  | notIndex (given : Bytes)
  | outOfBounds (index : Int64) (name : String) (length : Nat)
  | notCode (given : Bytes)
  | notCharacter (given : Bytes)
  | noLength (given : Bytes)
  | output (cause : Bytes)
  | input (cause : Bytes)
  | notRunnable (nodeType : String)

namespace Fault

def stage : Fault → Diagnostic.Class
  | callDepth .. => .recursion
  | operands .. | unknownOperator .. | unaryOperand .. | notNumber .. | notArray ..
  | notIndex .. => .typing
  | _ => .runtime

def kind? : Fault → Option Diagnostic.Kind
  | lookup _ => some .undefinedName
  | file fault => some fault.kind
  | callDepth .. => some .callDepth
  | arity .. => some .arity
  | duplicateParameter .. => some .duplicateParameter
  | operands .. | unknownOperator _ => some .invalidOperation
  | divisionByZero | remainderByZero => some .divisionByZero
  | longRepetition .. | largeArray _ => some .tooLarge
  | unaryOperand .. | notNumber .. => some .unaryOperand
  | rangeBound _ => some .nonIntegerRange
  | negativeRepetition _ | notString .. | notFile .. | readCount _ | arraySize _ | notIndex _
  | notCode _ | notCharacter _ | noLength _ => some .argumentType
  | notArray .. => some .notAnArray
  | outOfBounds .. => some .indexOutOfBounds
  | output _ | input _ => some .fileFailure
  | notRunnable _ => none

def message : Fault → Bytes
  | lookup fault => fault.message
  | file fault => fault.message
  | callDepth limit function => s!"maximum call depth {limit} exceeded calling '" ++ function ++ "'"
  | arity function expected given =>
    "'" ++ function ++ s!"' takes {expected} argument(s) but {given} were given"
  | duplicateParameter parameter function =>
    "duplicate parameter '" ++ parameter ++ "' in '" ++ function ++ "'"
  | operands op left right =>
    "unsupported operand types for " ++ op.symbol ++ ": " ++ left.name ++ " and " ++ right.name
  | unknownOperator op => "unknown operator " ++ op.symbol
  | divisionByZero => "division by zero"
  | remainderByZero => "modulo by zero"
  | negativeRepetition count => s!"cannot repeat a string {count.toInt} times"
  | longRepetition size count =>
    s!"repeating a string of {size} bytes {count.toInt} times exceeds {maxAllocation} bytes"
  | unaryOperand op given =>
    Bytes.ofString ("invalid operand for unary " ++ op.symbol ++ ": ") ++ given
  | notNumber op given =>
    Bytes.ofString ("operator " ++ op.symbol ++ " needs a number, got ") ++ given
  | rangeBound kind => "for range bounds must be integers, got " ++ kind.name
  | notString role given => Bytes.ofString (role ++ " must be a string, got ") ++ given
  | notFile name given => Bytes.ofString ("'" ++ name ++ "' is not a file handle, got ") ++ given
  | readCount given => "read count must be a non-negative integer, got " ++ given
  | arraySize given => "array size must be a non-negative integer, got " ++ given
  | largeArray size => s!"array size {size.toInt} exceeds {maxAllocation}"
  | notArray name given => Bytes.ofString ("'" ++ name ++ "' is not an array, got ") ++ given
  | notIndex given => "array index must be an integer, got " ++ given
  | outOfBounds index name length =>
    s!"index {index.toInt} out of bounds for '" ++ name ++ s!"' of length {length}"
  | notCode given => "asChar needs a valid character code, got " ++ given
  | notCharacter given => "asInt needs a single character, got " ++ given
  | noLength given => "len needs a string or array, got " ++ given
  | output _ => "write output"
  | input _ => "read input"
  | notRunnable nodeType => "cannot evaluate " ++ nodeType ++ " node"

def cause? : Fault → Option Bytes
  | file fault => fault.cause?
  | output cause | input cause => some cause
  | _ => none

end Fault

structure Failure where
  fault : Fault
  span : Span

def Failure.diagnostic (f : Failure) : Diagnostic where
  stage := f.fault.stage
  kind := f.fault.kind?
  message := f.fault.message
  cause := f.fault.cause?
  span := f.span

end Kotoba.Machine
