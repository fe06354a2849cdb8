import Kotoba.Decimal.Binary64
import Kotoba.Machine.Fault

/-! What operators do to values. -/
namespace Kotoba.Machine

def repetition (count : Int64) (text : Bytes) : Except Fault Value :=
  if count < 0 then .error (.negativeRepetition count)
  else if text.isEmpty then .ok (.string .empty)
  else if maxAllocation / text.size < count.toNatClampNeg then
    .error (.longRepetition text.size count)
  else .ok (.string (Bytes.replicate count.toNatClampNeg text))

/-- Arithmetic on integers wraps around; division goes toward zero. -/
def integerResult (op : Op) (a b : Int64) : Except Fault Value :=
  match op with
  | .add => .ok (.int (a + b))
  | .sub => .ok (.int (a - b))
  | .mul => .ok (.int (a * b))
  | .div => if b = 0 then .error .divisionByZero else .ok (.int (a / b))
  | .mod => if b = 0 then .error .remainderByZero else .ok (.int (a % b))
  | _ => .error (.unknownOperator op)

def floatResult (op : Op) (x y : Float) : Except Fault Value :=
  match op with
  | .add => .ok (.float (x + y))
  | .sub => .ok (.float (x - y))
  | .mul => .ok (.float (x * y))
  | .div => if y == 0 then .error .divisionByZero else .ok (.float (x / y))
  | .mod => if y == 0 then .error .remainderByZero else .ok (.float (Decimal.remainder x y))
  | _ => .error (.unknownOperator op)

/-- Two integers give an integer, other numbers a float; strings are joined and repeated. -/
def arithmetic (op : Op) (left right : Value) : Except Fault Value :=
  let unsupported := .error (.operands op left.kind right.kind)
  match left, right with
  | .int a, .int b => integerResult op a b
  | .string a, .string b => if op = .add then .ok (.string (a ++ b)) else unsupported
  | .int count, .string text | .string text, .int count =>
    if op = .mul then repetition count text else unsupported
  | _, _ =>
    match left.toFloat?, right.toFloat? with
    | some x, some y => floatResult op x y
    | _, _ => unsupported

/-- Only numbers, strings, booleans and nulls can be compared, each with its like. -/
def equality (op : Op) (left right : Value) : Except Fault Bool :=
  match left, right with
  | .int a, .int b => .ok (a == b)
  | .string a, .string b => .ok (a == b)
  | .bool a, .bool b => .ok (a == b)
  | .null, .null => .ok true
  | _, _ =>
    match left.toFloat?, right.toFloat? with
    | some x, some y => .ok (x == y)
    | _, _ => .error (.operands op left.kind right.kind)

/-- The order of two floats; where there is none they rank the same. -/
def floatOrder (x y : Float) : Ordering := if x < y then .lt else if y < x then .gt else .eq

def order (op : Op) (left right : Value) : Except Fault Ordering :=
  match left, right with
  | .int a, .int b => .ok (if a < b then .lt else if b < a then .gt else .eq)
  | .string a, .string b => .ok (a.compare b)
  | _, _ =>
    match left.toFloat?, right.toFloat? with
    | some x, some y => .ok (floatOrder x y)
    | _, _ => .error (.operands op left.kind right.kind)

/-- The result of a binary operator. Both operands are always evaluated before. -/
def binary (op : Op) (left right : Value) : Except Fault Value :=
  match op with
  | .add | .sub | .mul | .div | .mod => arithmetic op left right
  | .and | .or =>
    match left, right with
    | .bool a, .bool b => .ok (.bool (if op = .and then a && b else a || b))
    | _, _ => .error (.operands op left.kind right.kind)
  | .eq => (equality op left right).map .bool
  | .ne => (equality op left right).map fun same => .bool !same
  | .lt => (order op left right).map fun o => .bool o.isLT
  | .le => (order op left right).map fun o => .bool o.isLE
  | .gt => (order op left right).map fun o => .bool o.isGT
  | .ge => (order op left right).map fun o => .bool o.isGE
  | .not | .inc | .dec | .other _ => .error (.unknownOperator op)

def unary (store : Store) (op : Op) (operand : Value) : Except Fault Value :=
  match op, operand with
  | .not, .bool _ | .not, .int _ | .not, .float _ | .not, .string _ | .not, .null =>
    .ok (.bool !(store.truthy operand))
  | .sub, .int n => .ok (.int (-n))
  | .sub, .float x => .ok (.float (-x))
  | _, _ => .error (.unaryOperand op (store.describe operand))

def advanced (store : Store) (op : Op) (v : Value) : Except Fault Value :=
  match v with
  | .int n => .ok (.int (if op = .dec then n - 1 else n + 1))
  | .float x => .ok (.float (if op = .dec then x + (-1) else x + 1))
  | _ => .error (.notNumber op (store.describe v))

def charOfCode (store : Store) (v : Value) : Except Fault Value :=
  match v with
  | .int n =>
    if 0 ≤ n ∧ n.toNatClampNeg.isValidChar then
      .ok (.string (Bytes.ofString (String.singleton (Char.ofNat n.toNatClampNeg))))
    else .error (.notCode (store.describe v))
  | _ => .error (.notCode (store.describe v))

def codeOfChar (store : Store) (v : Value) : Except Fault Value :=
  match v with
  | .string text =>
    match text.chars with
    | [c] => .ok (.int (Int64.ofNat c.toNat))
    | _ => .error (.notCharacter (store.describe v))
  | _ => .error (.notCharacter (store.describe v))

def lengthOf (store : Store) (v : Value) : Except Fault Value :=
  match v with
  | .string text => .ok (.int (Int64.ofNat text.length))
  | .array index => .ok (.int (Int64.ofNat (store.elements index).size))
  | _ => .error (.noLength (store.describe v))

/-- The parts of a string between separators; without a separator its characters. -/
def splitText (text separator : Bytes) : List Bytes :=
  if separator.isEmpty then text.pieces.map (·.bytes) else text.splitOn separator

end Kotoba.Machine
