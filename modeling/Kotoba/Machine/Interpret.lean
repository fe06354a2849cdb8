import Kotoba.Machine.Statement
import Kotoba.Syntax.Export

/-! Interpretation of whole trees. -/
namespace Kotoba.Machine

/-- At most `depth` calls can be nested, and a loop takes at most `rounds` rounds. -/
def runBody (rounds : Nat) : (depth : Nat) → Run
  | 0, _ => Step.exhausted
  | depth + 1, body =>
    match body with
    | some body => execBody ⟨runBody rounds depth, rounds⟩ body
    | none => pure ()

/-- The limit on active calls bounds how deeply the calls of a tree nest. -/
def context (settings : Settings) (rounds : Nat) : Context :=
  ⟨runBody rounds (settings.maxDepth + 1), rounds⟩

def evalNode (c : Context) : Node → Eval Value
  | .program p => do
    p.functions.forM defineFunction
    match p.body with
    | some body => execBody c body
    | none => pure ()
    return .nothing
  | .function f => do
    defineFunction f
    return .nothing
  | .body b => do
    execBody c b
    return .nothing
  | .stmt s => do
    execStmt c s
    return .nothing
  | .expr e => eval c.run e
  | node => Eval.fault (.notRunnable node.nodeType) node.span

/-- A returned value comes first; the flags are cleared before a name that is left is looked up. -/
def conclude (span : Span) (v : Value) : Eval Value := do
  let flags ← Step.gets (·.flags)
  Step.modify fun m => { m with flags := {} }
  match if flags.returning then flags.returnValue else v with
  | .reference name => Eval.resolve ⟨name, span⟩
  | v => pure v

/-- Interprets a tree: its value, or the value it returned. A failure of the evaluation leaves a
machine that is ready for the next tree, and so does a jump that nothing heeded. -/
def interpret (rounds : Nat) (node : Node) : Eval Value := fun m =>
  match evalNode (context m.settings rounds) node m with
  | .ok v m => conclude node.span v m
  | .error failure m => .error failure m.reset
  | .exhausted => .exhausted

end Kotoba.Machine
