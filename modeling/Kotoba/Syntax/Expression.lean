import Kotoba.Syntax.Parser

/-! Productions of expressions. -/
namespace Kotoba.Syntax

open Kotoba.Syntax.Parser

def startsExpression : Token.Kind → Bool
  | .integer | .float | .string | .identifier => true
  | .mark m => m ∈ [.yes, .no, .openParen, .not, .minus, .input, .asChar, .asInt, .length,
      .readFile, .readLine, .endOfFile]
  | .endOfInput => false

def relationalOp? : Token.Kind → Option Op
  | .mark .equal => some .eq
  | .mark .notEqual => some .ne
  | .mark .less => some .lt
  | .mark .lessEqual => some .le
  | .mark .greater => some .gt
  | .mark .greaterEqual => some .ge
  | _ => none

def additiveOp? : Token.Kind → Option Op
  | .mark .plus => some .add
  | .mark .minus => some .sub
  | .mark .or => some .or
  | _ => none

def multiplicativeOp? : Token.Kind → Option Op
  | .mark .times => some .mul
  | .mark .divide => some .div
  | .mark .modulo => some .mod
  | .mark .and => some .and
  | _ => none

namespace Parser

def operator (op : Op) : Parser Operator := do
  let token ← current
  advance
  pure ⟨op, token.span⟩

/-- Where there is no such node the parse breaks off without an answer. -/
def layered (layer : Layer) (left : Expr) (op : Option Operator) (right : Option Expr)
    (span : Span) : Parser Expr :=
  match Expr.layer? layer left op right span with
  | some e => pure e
  | none => Step.exhausted

/-- Applies the operators of a layer to `left`, from left to right. -/
def chain (layer : Layer) (op? : Token.Kind → Option Op) (operand : Parser Expr)
    (start : Position) : (fuel : Nat) → Expr → Parser Expr
  | 0, _ => Step.exhausted
  | fuel + 1, left => do
    match op? (← kind) with
    | none => pure left
    | some op =>
      let op ← operator op
      let right ← operand
      let span ← finish start
      let node ← layered layer left (some op) (some right) span
      chain layer op? operand start fuel node

def productFrom (factor : Parser Expr) (fuel : Nat) (left : Expr) (start : Position) :
    Parser Expr :=
  chain .multiplicative multiplicativeOp? factor start fuel left

/-- `factor (mulOp factor)*` -/
def product (factor : Parser Expr) (fuel : Nat) : Parser Expr := do
  let start ← here
  let left ← factor
  productFrom factor fuel left start

def sumFrom (factor : Parser Expr) (fuel : Nat) (left : Expr) (start : Position) : Parser Expr :=
  chain .additive additiveOp? (product factor fuel) start fuel left

/-- `product (addOp product)*` -/
def sum (factor : Parser Expr) (fuel : Nat) : Parser Expr := do
  let start ← here
  let left ← product factor fuel
  sumFrom factor fuel left start

def comparisonFrom (factor : Parser Expr) (fuel : Nat) (left : Expr) (start : Position) :
    Parser Expr := do
  match relationalOp? (← kind) with
  | none => pure left
  | some op =>
    let op ← operator op
    let right ← sum factor fuel
    let span ← finish start
    layered .relational left (some op) (some right) span

/-- `sum (relOp sum)?` -/
def comparison (factor : Parser Expr) (fuel : Nat) : Parser Expr := do
  let start ← here
  let left ← sum factor fuel
  comparisonFrom factor fuel left start

def comparisonAfter (factor : Parser Expr) (fuel : Nat) (first : Expr) (start : Position) :
    Parser Expr := do
  let left ← productFrom factor fuel first start
  let left ← sumFrom factor fuel left start
  comparisonFrom factor fuel left start

/-- `'(' (expr (',' expr)*)? ')'` -/
def arguments (expr : Parser Expr) (fuel : Nat) : Parser (List Expr) := do
  expect Mark.openParen
  let args ← if startsExpression (← kind) then commaList expr fuel else pure []
  expect Mark.closeParen
  pure args

def call (expr : Parser Expr) (fuel : Nat) : Parser Expr := do
  let start ← here
  let callee ← expectName
  let args ← arguments expr fuel
  pure (.call callee args (← finish start))

/-- `ID '[' sum ']'`: the array, the index and the span of both. -/
def slot (sum : Parser Expr) : Parser (Ident × Expr × Span) := do
  let start ← here
  let array ← expectName
  expect Mark.openBracket
  let index ← sum
  expect Mark.closeBracket
  pure (array, index, ← finish start)

/-- `ohayo '(' STR? ')'` -/
def inputLine : Parser Expr := do
  let start ← here
  expect Mark.input
  expect Mark.openParen
  let token ← current
  let prompt ← match token.lexeme with
    | .string text => do
      advance
      pure (some ⟨text, token.span⟩)
    | _ => pure none
  expect Mark.closeParen
  pure (.input prompt (← finish start))

/-- The count of a read: after a comma there may be one. -/
def readCount (expr : Parser Expr) : Parser (Option Expr) := do
  if ← at? Mark.comma then
    advance
    if startsExpression (← kind) then
      let count ← expr
      pure (some count)
    else pure none
  else pure none

/-- `f_read '(' ID (',' expr?)? ')'` -/
def readFile (expr : Parser Expr) : Parser Expr := do
  let start ← here
  advance
  expect Mark.openParen
  let file ← expectName
  let count ← readCount expr
  expect Mark.closeParen
  pure (.read file count (← finish start))

/-- A file verb applied to the name of a file and nothing else. -/
def fileVerb {α : Type} (build : Ident → Span → α) : Parser α := do
  let start ← here
  advance
  let file ← parenthesized expectName
  pure (build file (← finish start))

def conversion (expr : Parser Expr) (build : Expr → Span → Expr) : Parser Expr := do
  let start ← here
  advance
  let value ← parenthesized expr
  pure (build value (← finish start))

def leaf (build : Span → Expr) : Parser Expr := do
  let start ← here
  advance
  pure (build (← finish start))

def negation (op : Op) (factor : Parser Expr) : Parser Expr := do
  let start ← here
  let op ← operator op
  let operand ← factor
  pure (.unary op operand (← finish start))

def group (expr : Parser Expr) : Parser Expr := do
  let start ← here
  let inner ← parenthesized expr
  pure (.group inner (← finish start))

def reference (expr sum : Parser Expr) (fuel : Nat) (name : String) : Parser Expr := do
  match ← peek with
  | .mark .openParen => call expr fuel
  | .mark .openBracket => do
    let (array, index, span) ← slot sum
    pure (.element array index span)
  | _ => leaf fun span => .name ⟨name, span⟩

def factorWith (expr sum factor : Parser Expr) (fuel : Nat) : Parser Expr := do
  match (← current).lexeme with
  | .integer value => leaf (.int (Int64.ofNat value))
  | .float value => leaf (.float value)
  | .string text => leaf (.string text)
  | .identifier name => reference expr sum fuel name
  | .mark .yes _ => leaf (.bool true)
  | .mark .no _ => leaf (.bool false)
  | .mark .openParen _ => group expr
  | .mark .not _ => negation .not factor
  | .mark .minus _ => negation .sub factor
  | .mark .input _ => inputLine
  | .mark .asChar _ => conversion expr .charOf
  | .mark .asInt _ => conversion expr .codeOf
  | .mark .length _ => conversion expr .length
  | .mark .readFile _ => readFile expr
  | .mark .readLine _ => fileVerb .readLine
  | .mark .endOfFile _ => fileVerb .atEnd
  | _ => unexpected ["expression"]

end Parser

/-- A factor: a literal, a name, a call, a parenthesised expression and the like. -/
def factor : (fuel : Nat) → Parser Expr
  | 0 => Step.exhausted
  | fuel + 1 =>
    factorWith (comparison (factor fuel) fuel) (sum (factor fuel) fuel) (factor fuel) fuel

def sumExpr (fuel : Nat) : Parser Expr := sum (factor fuel) fuel

def expression (fuel : Nat) : Parser Expr := comparison (factor fuel) fuel

end Kotoba.Syntax
