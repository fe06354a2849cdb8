import Kotoba.Syntax.Expression

/-! Productions of statements, programs and interactive entries. -/
namespace Kotoba.Syntax

open Kotoba.Syntax.Parser

def startsStatement : Token.Kind → Bool
  | .identifier => true
  | .mark m => m ∈ [.giveBack, .loop, .range, .when, .print, .printLine, .input, .closeFile,
      .readFile, .readLine, .writeFile, .writeLine]
  | _ => false

namespace Parser

/-- Statements as long as one begins, each with an optional semicolon after it. -/
def statements (statement : Parser Stmt) : (fuel : Nat) → Parser (List Stmt)
  | 0 => Step.exhausted
  | fuel + 1 => do
    if startsStatement (← kind) then
      let first ← statement
      skipSemicolon
      let rest ← statements statement fuel
      pure (first :: rest)
    else pure []

def jump (build : Span → Stmt) : Parser (List Stmt) := do
  let start ← here
  advance
  let span ← finish start
  skipSemicolon
  pure [build span]

/-- The jump that may end the body of a conditional or a loop. -/
def finalJump : Parser (List Stmt) := do
  match ← kind with
  | .mark .leave => jump .leave
  | .mark .proceed => jump .proceed
  | _ => pure []

/-- A list of statements; if `conditional`, a jump may end it. -/
def body (statement : Parser Stmt) (fuel : Nat) (conditional : Bool) : Parser Body := do
  enter "<Body>"
  let start ← here
  let front ← statements statement fuel
  let last ← if conditional then finalJump else pure []
  pure ⟨front ++ last, ← finish start⟩

/-- A body in braces; the span is that of the statements. -/
def braced (statement : Parser Stmt) (fuel : Nat) (conditional : Bool) : Parser Body := do
  expect Mark.openBrace
  let b ← body statement fuel conditional
  expect Mark.closeBrace
  pure b

/-- A body in braces, or a single statement with its semicolon. -/
def bracedOrSingle (statement : Parser Stmt) (fuel : Nat) : Parser Body := do
  if ← at? Mark.openBrace then braced statement fuel false
  else
    let start ← here
    if startsStatement (← kind) then
      let only ← statement
      expect Mark.semicolon
      pure ⟨[only], ← finish start⟩
    else unexpected [Token.markExpectation .openBrace, "statement"]

/-- `'(' expr ',' expr ')'` -/
def pair (expr : Parser Expr) : Parser (Expr × Expr) := do
  expect Mark.openParen
  let first ← expr
  expect Mark.comma
  let second ← expr
  expect Mark.closeParen
  pure (first, second)

/-- `modoru expr?`; a name followed by `=` begins the next statement instead. -/
def giveBack (expr : Parser Expr) : Parser Stmt := do
  let start ← here
  advance
  let value ← do
    if startsExpression (← kind) then
      let assignment ← if ← at? .identifier then (· == .mark .assign) <$> peek else pure false
      if assignment then pure none else some <$> expr
    else pure none
  pure (.giveBack value (← finish start))

/-- `ID '=' expr` -/
def assignment (expr : Parser Expr) : Parser Stmt := do
  let start ← here
  let target ← expectName
  expect Mark.assign
  let value ← expr
  pure (.assign target value (← finish start))

/-- `ID '++'` or `ID '--'`, as `op` says. -/
def advancement (op : Op) : Parser Stmt := do
  let start ← here
  let target ← expectName
  let op ← operator op
  pure (.advance target op (← finish start))

/-- Elements with commas between them, and perhaps one after the last. -/
def elements (expr : Parser Expr) : (fuel : Nat) → Parser (List Expr)
  | 0 => Step.exhausted
  | fuel + 1 => do
    if ← at? Mark.closeBrace then pure []
    else
      let first ← expr
      if ← at? Mark.comma then
        advance
        let rest ← elements expr fuel
        pure (first :: rest)
      else pure [first]

/-- `ID '=>'` and what the name is to be bound to: a sized array, an array of elements, a file, or
the pieces of a string. -/
def declaration (expr sum : Parser Expr) (fuel : Nat) : Parser Stmt := do
  let start ← here
  let target ← expectName
  expect Mark.arrow
  match ← kind with
  | .mark .openBracket => do
    advance
    let size ← sum
    expect Mark.closeBracket
    pure (.allocate target size (← finish start))
  | .mark .openBrace => do
    advance
    let items ← elements expr fuel
    expect Mark.closeBrace
    pure (.collect target items (← finish start))
  | .mark .openFile => do
    advance
    let (path, mode) ← pair expr
    pure (.openFile target path mode (← finish start))
  | .mark .split => do
    advance
    let (source, separator) ← pair expr
    pure (.split target source separator (← finish start))
  | _ => unexpected ([.openBracket, .openBrace, .openFile, .split].map Token.markExpectation)

def updateOf (expr : Parser Expr) (slot : Ident × Expr × Span) (start : Position) :
    Parser Stmt := do
  expect Mark.assign
  let value ← expr
  pure (.update slot.1 slot.2.1 slot.2.2 value (← finish start))

def nameStatement (expr sum : Parser Expr) (fuel : Nat) : Parser Stmt := do
  match ← peek with
  | .mark .assign => assignment expr
  | .mark .increment => advancement .inc
  | .mark .decrement => advancement .dec
  | .mark .openParen => .expr <$> call expr fuel
  | .mark .arrow => declaration expr sum fuel
  | .mark .openBracket => do
    let start ← here
    let target ← slot sum
    updateOf expr target start
  | _ => do
    advance
    unexpected ([.assign, .increment, .decrement, .openParen, .arrow, .openBracket].map
      Token.markExpectation)

def loop (expr : Parser Expr) (block : Parser Body) : Parser Stmt := do
  enter "<While>"
  let start ← here
  advance
  let condition ← parenthesized expr
  let b ← block
  pure (.loop condition b (← finish start))

def range (expr : Parser Expr) (block : Parser Body) : Parser Stmt := do
  enter "<For>"
  let start ← here
  advance
  let counter ← expectName
  expect Mark.arrow
  let (first, last) ← pair expr
  let b ← block
  pure (.range counter first last b (← finish start))

def orWhens (expr : Parser Expr) (block : Parser Body) : (fuel : Nat) → Parser (List OrWhen)
  | 0 => Step.exhausted
  | fuel + 1 => do
    if ← at? Mark.orWhen then
      let start ← here
      advance
      let condition ← parenthesized expr
      let b ← block
      let span ← finish start
      let rest ← orWhens expr block fuel
      pure (⟨condition, b, span⟩ :: rest)
    else pure []

def otherwise (block : Parser Body) : Parser (Option Otherwise) := do
  if ← at? Mark.otherwise then
    let start ← here
    advance
    let b ← block
    let span ← finish start
    pure (some ⟨b, span⟩)
  else pure none

def conditional (expr : Parser Expr) (block : Parser Body) (fuel : Nat) : Parser Stmt := do
  enter "<If>"
  let start ← here
  advance
  let condition ← parenthesized expr
  let b ← block
  let others ← orWhens expr block fuel
  let last ← otherwise block
  pure (.when condition b others last (← finish start))

def print (expr : Parser Expr) (fuel : Nat) (newline : Bool) : Parser Stmt := do
  let start ← here
  advance
  let args ← arguments expr fuel
  pure (.print args newline (← finish start))

def writeFile (expr : Parser Expr) (newline : Bool) : Parser Stmt := do
  let start ← here
  advance
  expect Mark.openParen
  let file ← expectName
  expect Mark.comma
  let value ← expr
  expect Mark.closeParen
  pure (.write file value newline (← finish start))

def statementWith (expr sum : Parser Expr) (block : Parser Body) (fuel : Nat) : Parser Stmt := do
  enter "<Statement>"
  match ← kind with
  | .identifier => nameStatement expr sum fuel
  | .mark .giveBack => giveBack expr
  | .mark .loop => loop expr block
  | .mark .range => range expr block
  | .mark .when => conditional expr block fuel
  | .mark .print => print expr fuel false
  | .mark .printLine => print expr fuel true
  | .mark .input => .expr <$> inputLine
  | .mark .closeFile => fileVerb .closeFile
  | .mark .readFile => .expr <$> readFile expr
  | .mark .readLine => .expr <$> fileVerb .readLine
  | .mark .writeFile => writeFile expr false
  | .mark .writeLine => writeFile expr true
  | _ => unexpected ["statement"]

end Parser

def statement : (fuel : Nat) → Parser Stmt
  | 0 => Step.exhausted
  | fuel + 1 =>
    statementWith (expression fuel) (sumExpr fuel) (braced (statement fuel) fuel true) fuel

def plainBody (fuel : Nat) : Parser Body := body (statement fuel) fuel false

def parameters (fuel : Nat) : Parser (List Ident) := do
  expect Mark.openParen
  let params ← if ← at? .identifier then commaList expectName fuel else pure []
  expect Mark.closeParen
  pure params

/-- `kawaii ID ('(' params? ')')? '=>' body` -/
def definition (fuel : Nat) : Parser FuncDef := do
  enter "<FuncDef>"
  let start ← here
  expect Mark.define
  let name ← expectName
  let params ← if ← at? Mark.openParen then parameters fuel else pure []
  expect Mark.arrow
  let b ← bracedOrSingle (statement fuel) fuel
  pure ⟨name, params, b, ← finish start⟩

def definitions (item : Parser FuncDef) : (fuel : Nat) → Parser (List FuncDef)
  | 0 => Step.exhausted
  | fuel + 1 => do
    if ← at? Mark.define then
      let first ← item
      let rest ← definitions item fuel
      pure (first :: rest)
    else pure []

/-- A whole program, or nothing at all. -/
def program (fuel : Nat) : Parser Program := do
  advance
  let start ← here
  if ← at? .endOfInput then pure ⟨[], none, .point start⟩
  else
    enter "<Program>"
    let functions ← definitions (definition fuel) fuel
    expectAll [.main, .openParen, .closeParen, .arrow]
    let b ← bracedOrSingle (statement fuel) fuel
    expect .endOfInput
    pure ⟨functions, b, ← finish start⟩

/-- A slot that is assigned to begins statements; any other begins an expression. -/
def slotEntry (fuel : Nat) : Parser Node := do
  let start ← here
  let target ← slot (sumExpr fuel)
  if ← at? Mark.assign then
    let first ← updateOf (expression fuel) target start
    skipSemicolon
    let rest ← plainBody fuel
    pure (.body ⟨first :: rest.statements, ← finish start⟩)
  else
    .expr <$> comparisonAfter (factor fuel) fuel (.element target.1 target.2.1 target.2.2) start

def nameEntry (fuel : Nat) : Parser Node := do
  match ← peek with
  | .mark .assign | .mark .increment | .mark .decrement | .mark .arrow =>
    .body <$> plainBody fuel
  | .mark .openBracket => slotEntry fuel
  | _ => .expr <$> expression fuel

def entryNode (fuel : Nat) : Parser Node := do
  match ← kind with
  | .mark .define => .function <$> definition fuel
  | .identifier => nameEntry fuel
  | k =>
    if startsStatement k then .body <$> plainBody fuel
    else .expr <$> expression fuel

/-- A definition, statements, or an expression. An entry without tokens is no tree. -/
def entry (fuel : Nat) : Parser (Option Node) := do
  advance
  if ← at? .endOfInput then pure none
  else
    enter "<Interactive>"
    let node ← entryNode fuel
    match node with
    | .expr _ => skipSemicolon
    | _ => pure ()
    if ← at? .endOfInput then pure (some node)
    else unexpected ["end of input"]

/-- Every step consumes a token, so the number of tokens is fuel enough. -/
def run {α : Type} (production : Nat → Parser α) (limits : Token.Limits) (text : Bytes) :
    Outcome State Diagnostic α :=
  let scan := Token.tokenize limits text
  production (scan.tokens.length + 2) (.ofScan scan)

def parseProgram (limits : Token.Limits) (text : Bytes) : Outcome State Diagnostic Program :=
  run program limits text

def parseEntry (limits : Token.Limits) (text : Bytes) :
    Outcome State Diagnostic (Option Node) :=
  run entry limits text

end Kotoba.Syntax
