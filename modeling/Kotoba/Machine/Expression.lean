import Kotoba.Machine.Call
import Kotoba.Machine.Operation

/-! Evaluation of expressions. -/
namespace Kotoba.Machine

/-- The array and the slot that `array[index]` means; the array is looked up first. -/
def slotOf (array : Ident) (index : Eval Value) (indexSpan span : Span) : Eval (Nat × Nat) := do
  let v ← Eval.resolve array
  match v with
  | .array a =>
    let i ← index
    match i with
    | .int n =>
      let size ← Step.gets fun m => (m.store.elements a).size
      if 0 ≤ n ∧ n.toNatClampNeg < size then pure (a, n.toNatClampNeg)
      else Eval.fault (.outOfBounds n array.name size) span
    | _ => Eval.fault (.notIndex (← Eval.describe i)) indexSpan
  | _ => Eval.fault (.notArray array.name (← Eval.describe v)) array.span

def slotValue (array slot : Nat) : Eval Value :=
  Step.gets fun m => (m.store.elements array)[slot]?.getD .null

def applied (rule : Store → Value → Except Fault Value) (v : Value) (span : Span) : Eval Value := do
  Eval.ofExcept span (rule (← Step.gets (·.store)) v)

def countOf (v : Value) (span : Span) : Eval Nat := do
  match v with
  | .int n =>
    if 0 ≤ n then pure n.toNatClampNeg
    else Eval.fault (.readCount (← Eval.describe v)) span
  | _ => Eval.fault (.readCount (← Eval.describe v)) span

/-- The value of an expression at `span`, made of its result. -/
def settled (span : Span) (x : Eval Value) : Eval Value := do Eval.settle (← x) span

mutual

/-- The result of an expression, with the bodies of called functions run by `run`. That of a name
is a reference to it, which is looked up where the value is needed. Operands are evaluated from left
to right. -/
def eval (run : Run) : Expr → Eval Value
  | .int n _ => pure (.int n)
  | .float x _ => pure (.float x)
  | .string text _ => pure (.string text)
  | .bool b _ => pure (.bool b)
  | .name ident => pure (.reference ident.name)
  | .group inner _ => settled inner.span (eval run inner)
  | .single _ inner _ => settled inner.span (eval run inner)
  | .unary op operand span => do
    let v ← settled operand.span (eval run operand)
    applied (fun store v => unary store op.op v) v span
  | .binary _ left op right span => do
    let l ← settled left.span (eval run left)
    let r ← settled right.span (eval run right)
    Eval.ofExcept span (binary op.op l r)
  | .call callee arguments span => do
    let f ← callable callee arguments.length span
    let args ← evalAll run arguments
    call run f args span
  | .input prompt span => do
    match prompt with
    | some prompt => Eval.print prompt.text span
    | none => pure ()
    return .string (← Eval.readInput span)
  | .element array index span => do
    let (a, slot) ← slotOf array (settled index.span (eval run index)) index.span span
    slotValue a slot
  | .charOf code span => do applied charOfCode (← settled code.span (eval run code)) span
  | .codeOf char span => do applied codeOfChar (← settled char.span (eval run char)) span
  | .length value span => do applied lengthOf (← settled value.span (eval run value)) span
  | .read file count span => do
    let file ← Eval.resolveFile file
    match count with
    | none => return .string (← Eval.readFile file span fun disk h => h.read disk none)
    | some count =>
      let n ← countOf (← settled count.span (eval run count)) count.span
      return .string (← Eval.readFile file span fun disk h => h.read disk (some n))
  | .readLine file span => do
    let file ← Eval.resolveFile file
    return .string (← Eval.readFile file span fun disk h => h.readLine disk)
  | .atEnd file span => do
    let file ← Eval.resolveFile file
    return .bool (← Eval.readFile file span fun disk h => h.atEnd disk)
termination_by structural e => e

def evalAll (run : Run) : List Expr → Eval (List Value)
  | [] => pure []
  | e :: rest => do
    let v ← settled e.span (eval run e)
    let vs ← evalAll run rest
    pure (v :: vs)
termination_by structural es => es

end

def evalExpr (run : Run) (e : Expr) : Eval Value := settled e.span (eval run e)

end Kotoba.Machine
