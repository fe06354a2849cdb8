import Kotoba.Syntax.Tree

/-! Trees up to the places where they stand: every span is erased. -/
namespace Kotoba

def Operator.bare (o : Operator) : Operator := ⟨o.op, {}⟩

def Ident.bare (ident : Ident) : Ident := ⟨ident.name, {}⟩

def Prompt.bare (prompt : Prompt) : Prompt := ⟨prompt.text, {}⟩

mutual

/-- An expression without spans. -/
def Expr.bare : Expr → Expr
  | .int value _ => .int value {}
  | .float value _ => .float value {}
  | .string text _ => .string text {}
  | .bool value _ => .bool value {}
  | .name ident => .name ident.bare
  | .group inner _ => .group inner.bare {}
  | .unary op operand _ => .unary op.bare operand.bare {}
  | .binary layer left op right _ => .binary layer left.bare op.bare right.bare {}
  | .single layer inner _ => .single layer inner.bare {}
  | .call callee arguments _ => .call callee.bare (Expr.bareAll arguments) {}
  | .input prompt _ => .input (prompt.map Prompt.bare) {}
  | .element array index _ => .element array.bare index.bare {}
  | .charOf code _ => .charOf code.bare {}
  | .codeOf char _ => .codeOf char.bare {}
  | .length value _ => .length value.bare {}
  | .read file none _ => .read file.bare none {}
  | .read file (some count) _ => .read file.bare (some count.bare) {}
  | .readLine file _ => .readLine file.bare {}
  | .atEnd file _ => .atEnd file.bare {}
termination_by structural e => e

def Expr.bareAll : List Expr → List Expr
  | [] => []
  | e :: rest => e.bare :: Expr.bareAll rest
termination_by structural es => es

end

theorem Expr.bare_read (file : Ident) (count : Option Expr) (span : Span) :
    (Expr.read file count span).bare = .read file.bare (count.map Expr.bare) {} := by
  cases count <;> rfl

mutual

/-- A statement without spans. -/
def Stmt.bare : Stmt → Stmt
  | .giveBack value _ => .giveBack (value.map Expr.bare) {}
  | .leave _ => .leave {}
  | .proceed _ => .proceed {}
  | .when condition body others otherwise _ =>
    .when condition.bare (Body.bare? body) (OrWhen.bareAll others) (Otherwise.bare? otherwise) {}
  | .loop condition body _ => .loop condition.bare (Body.bare? body) {}
  | .range counter first last body _ =>
    .range counter.bare first.bare last.bare (Body.bare? body) {}
  | .assign target value _ => .assign target.bare value.bare {}
  | .advance target op _ => .advance target.bare op.bare {}
  | .print arguments newline _ => .print (Expr.bareAll arguments) newline {}
  | .openFile target path mode _ => .openFile target.bare path.bare mode.bare {}
  | .closeFile file _ => .closeFile file.bare {}
  | .write file value newline _ => .write file.bare value.bare newline {}
  | .allocate target size _ => .allocate target.bare size.bare {}
  | .collect target elements _ => .collect target.bare (Expr.bareAll elements) {}
  | .update array index _ value _ => .update array.bare index.bare {} value.bare {}
  | .split target source separator _ => .split target.bare source.bare separator.bare {}
  | .expr value => .expr value.bare
termination_by structural s => s

def Stmt.bareAll : List Stmt → List Stmt
  | [] => []
  | s :: rest => s.bare :: Stmt.bareAll rest
termination_by structural ss => ss

/-- A list of statements without spans. -/
def Body.bare : Body → Body
  | ⟨statements, _⟩ => ⟨Stmt.bareAll statements, {}⟩
termination_by structural b => b

def Body.bare? : Option Body → Option Body
  | some body => some body.bare
  | none => none
termination_by structural b => b

def OrWhen.bareAll : List OrWhen → List OrWhen
  | [] => []
  | ⟨condition, body, _⟩ :: rest => ⟨condition.bare, Body.bare? body, {}⟩ :: OrWhen.bareAll rest
termination_by structural branches => branches

def Otherwise.bare? : Option Otherwise → Option Otherwise
  | some ⟨body, _⟩ => some ⟨Body.bare? body, {}⟩
  | none => none
termination_by structural branch => branch

end

theorem Stmt.bareAll_append (ss rest : List Stmt) :
    Stmt.bareAll (ss ++ rest) = Stmt.bareAll ss ++ Stmt.bareAll rest := by
  induction ss with
  | nil => rfl
  | cons s ss ih => simp [Stmt.bareAll, ih]

/-- A definition without spans. -/
def FuncDef.bare (f : FuncDef) : FuncDef where
  name := f.name.bare
  params := f.params.map Ident.bare
  body := Body.bare? f.body

/-- A program without spans. -/
def Program.bare (p : Program) : Program where
  functions := p.functions.map FuncDef.bare
  body := Body.bare? p.body

/-- Any tree without spans. -/
def Node.bare : Node → Node
  | program p => .program p.bare
  | function f => .function f.bare
  | body b => .body b.bare
  | stmt s => .stmt s.bare
  | expr e => .expr e.bare
  | orWhen branch => .orWhen ⟨branch.condition.bare, Body.bare? branch.body, {}⟩
  | otherwise branch => .otherwise ⟨Body.bare? branch.body, {}⟩
  | operator o => .operator o.bare

end Kotoba
