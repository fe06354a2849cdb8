import Kotoba.Source.Span

/-! Syntax trees. -/
namespace Kotoba

/-- What an operator does. A tree built by hand may hold a symbol the language does not have. -/
inductive Op where
  | add
  | sub
  | mul
  | div
  | mod
  | and
  | or
  | not
  | eq
  | ne
  | lt
  | le
  | gt
  | ge
  | inc
  | dec
  | other (symbol : String)
deriving DecidableEq, Repr

namespace Op

def symbol : Op → String
  | add => "+"
  | sub => "-"
  | mul => "*"
  | div => "/"
  | mod => "%"
  | and => "and"
  | or => "or"
  | not => "not"
  | eq => "=="
  | ne => "!="
  | lt => "<"
  | le => "<="
  | gt => ">"
  | ge => ">="
  | inc => "++"
  | dec => "--"
  | other symbol => symbol

def known : List Op := [add, sub, mul, div, mod, and, or, not, eq, ne, lt, le, gt, ge, inc, dec]

def ofSymbol (symbol : String) : Op :=
  (known.find? (·.symbol == symbol)).getD (other symbol)

end Op

structure Operator where
  op : Op
  span : Span := {}

structure Ident where
  name : String
  span : Span := {}

structure Prompt where
  text : String
  span : Span := {}

/-- The layers of binary operators, from the weakest binding to the strongest. -/
inductive Layer where
  | relational
  | additive
  | multiplicative
deriving DecidableEq, Repr

inductive Expr where
  | int (value : Int64) (span : Span)
  | float (value : Float) (span : Span)
  | string (text : String) (span : Span)
  | bool (value : Bool) (span : Span)
  | name (ident : Ident)
  | group (inner : Expr) (span : Span)
  | unary (op : Operator) (operand : Expr) (span : Span)
  | binary (layer : Layer) (left : Expr) (op : Operator) (right : Expr) (span : Span)
  /-- A node of a layer that applies no operator. -/
  | single (layer : Layer) (inner : Expr) (span : Span)
  | call (callee : Ident) (arguments : List Expr) (span : Span)
  | input (prompt : Option Prompt) (span : Span)
  | element (array : Ident) (index : Expr) (span : Span)
  | charOf (code : Expr) (span : Span)
  | codeOf (char : Expr) (span : Span)
  | length (value : Expr) (span : Span)
  /-- Reads so many characters of a file, or the rest of it. -/
  | read (file : Ident) (count : Option Expr) (span : Span)
  | readLine (file : Ident) (span : Span)
  | atEnd (file : Ident) (span : Span)

def Expr.span : Expr → Span
  | int _ span | float _ span | string _ span | bool _ span | group _ span | unary _ _ span
  | binary _ _ _ _ span | single _ _ span | call _ _ span | input _ span | element _ _ span
  | charOf _ span | codeOf _ span | length _ span | read _ _ span | readLine _ span
  | atEnd _ span => span
  | name ident => ident.span

/-- The node of a layer: an operator needs a right operand, and a right operand an operator. -/
def Expr.layer? (layer : Layer) (left : Expr) (op : Option Operator) (right : Option Expr)
    (span : Span) : Option Expr :=
  match op, right with
  | some op, some right => some (.binary layer left op right span)
  | none, none => some (.single layer left span)
  | _, _ => none

def Expr.hasRight? : Expr → Option Bool
  | .binary .. => some true
  | .single .. => some false
  | _ => none

mutual

inductive Stmt where
  | giveBack (value : Option Expr) (span : Span)
  | leave (span : Span)
  | proceed (span : Span)
  | when (condition : Expr) (body : Option Body) (others : List OrWhen)
      (otherwise : Option Otherwise) (span : Span)
  | loop (condition : Expr) (body : Option Body) (span : Span)
  /-- Runs the body with the counter at each integer from `first` to `last`, both included. -/
  | range (counter : Ident) (first last : Expr) (body : Option Body) (span : Span)
  | assign (target : Ident) (value : Expr) (span : Span)
  | advance (target : Ident) (op : Operator) (span : Span)
  | print (arguments : List Expr) (newline : Bool) (span : Span)
  | openFile (target : Ident) (path mode : Expr) (span : Span)
  | closeFile (file : Ident) (span : Span)
  | write (file : Ident) (value : Expr) (newline : Bool) (span : Span)
  | allocate (target : Ident) (size : Expr) (span : Span)
  | collect (target : Ident) (elements : List Expr) (span : Span)
  /-- Writes an array slot; `slot` is the span of `array[index]`. -/
  | update (array : Ident) (index : Expr) (slot : Span) (value : Expr) (span : Span)
  | split (target : Ident) (source separator : Expr) (span : Span)
  | expr (value : Expr)

structure Body where
  statements : List Stmt
  span : Span := {}

structure OrWhen where
  condition : Expr
  body : Option Body
  span : Span := {}

structure Otherwise where
  body : Option Body
  span : Span := {}

end

def Stmt.span : Stmt → Span
  | giveBack _ span | leave span | proceed span | when _ _ _ _ span | loop _ _ span
  | range _ _ _ _ span | assign _ _ span | advance _ _ span | print _ _ span
  | openFile _ _ _ span | closeFile _ span | write _ _ _ span | allocate _ _ span
  | collect _ _ span | update _ _ _ _ span | split _ _ _ span => span
  | expr value => value.span

structure FuncDef where
  name : Ident
  params : List Ident
  body : Option Body
  span : Span := {}

/-- A program: functions, then a main body. A program without text has no body. -/
structure Program where
  functions : List FuncDef
  body : Option Body
  span : Span := {}

def Program.isEmpty (p : Program) : Bool := p.functions.isEmpty && p.body.isNone

inductive Node where
  | program (p : Program)
  | function (f : FuncDef)
  | body (b : Body)
  | stmt (s : Stmt)
  | expr (e : Expr)
  | orWhen (branch : OrWhen)
  | otherwise (branch : Otherwise)
  | operator (o : Operator)

def Node.span : Node → Span
  | program p => p.span
  | function f => f.span
  | body b => b.span
  | stmt s => s.span
  | expr e => e.span
  | orWhen branch => branch.span
  | otherwise branch => branch.span
  | operator o => o.span

end Kotoba
