import Kotoba.Step
import Kotoba.Syntax.Tree
import Kotoba.Token.Scan

/-! The parser's state, and the steps every production is made of. -/
namespace Kotoba.Syntax

/-- What happens during a parse: a token is scanned, or a production is entered at a token. -/
inductive Event where
  | scanned (token : Token)
  | entered (production : String) (token : Token)

def Event.line : Event → Bytes
  | scanned token => "lexer: " ++ token.text ++ Bytes.ofString (" at " ++ token.start.text)
  | entered production token =>
    Bytes.ofString ("parser: " ++ production ++ " at " ++ token.start.text ++ " (current ") ++
      token.text ++ ")"

/-- Where a parse stands: the current token, the tokens to come and how they end, whether the next
one was looked at, where the last consumed token ended, and what happened so far, newest first. -/
structure State where
  current : Token
  ahead : List Token
  ending : Except Token.Fault Token
  peeked : Bool := false
  lastStop : Position := {}
  events : List Event := []

namespace State

def ofScan (scan : Token.Scan) : State where
  current := ⟨.endOfInput, {}, {}⟩
  ahead := scan.tokens
  ending := scan.ending

def log (s : State) (tokens productions : Bool) : List Bytes :=
  (s.events.reverse.filter fun
    | .scanned _ => tokens
    | .entered _ _ => productions).map Event.line

/-- Notes that `token` was scanned, unless that was noted when it was looked at. -/
def noteScan (s : State) (token : Token) : State :=
  if s.peeked then s else { s with events := .scanned token :: s.events }

end State

/-- A production: consumes tokens and yields a tree, or fails with a diagnostic. -/
abbrev Parser (α : Type) : Type := Step State Diagnostic α

namespace Parser

def current : Parser Token := Step.gets State.current

def kind : Parser Token.Kind := Step.gets fun s => s.current.kind

def here : Parser Position := Step.gets fun s => s.current.start

def at? (k : Token.Kind) : Parser Bool := Step.gets fun s => s.current.kind == k

/-- Fetches the next token. After the end of input comes the end of input again. -/
def advance : Parser Unit := fun s =>
  match s.ahead, s.ending with
  | token :: ahead, _ =>
    .ok () { s.noteScan token with
      current := token, ahead, peeked := false, lastStop := s.current.stop }
  | [], .ok token =>
    .ok () { s.noteScan token with
      current := token, peeked := false, lastStop := s.current.stop }
  | [], .error fault => .error fault.diagnostic s

def peek : Parser Token.Kind := fun s =>
  match s.ahead, s.ending with
  | token :: _, _ => .ok token.kind { s.noteScan token with peeked := true }
  | [], .ok token => .ok token.kind { s.noteScan token with peeked := true }
  | [], .error fault => .error fault.diagnostic s

def enter (production : String) : Parser Unit :=
  Step.modify fun s => { s with events := .entered production s.current :: s.events }

def wanted : List Bytes → Bytes
  | [one] => one
  | many => "one of " ++ Bytes.join ", " many

def unexpectedAt (token : Token) (expected : List Bytes) : Diagnostic where
  stage := .syntactic
  kind := some (if token.kind = .endOfInput then .unexpectedEnd else .unexpectedToken)
  message := "expected " ++ wanted expected ++ " but found " ++ token.description
  span := token.span

def unexpected {α : Type} (expected : List Bytes) : Parser α := fun s =>
  .error (unexpectedAt s.current expected) s

def expect (k : Token.Kind) : Parser Unit := do
  if ← at? k then advance else unexpected [k.expectation]

def expectAll : List Mark → Parser Unit
  | [] => pure ()
  | m :: rest => do expect m; expectAll rest

def expectName : Parser Ident := do
  let token ← current
  match token.lexeme with
  | .identifier name => advance; pure ⟨name, token.span⟩
  | _ => unexpected [Token.Kind.identifier.expectation]

def skipSemicolon : Parser Unit := do
  if ← at? Mark.semicolon then advance

/-- The span from `start` to the last consumed token. -/
def finish (start : Position) : Parser Span :=
  Step.gets fun s => ⟨start, if s.lastStop.isUnknown then start else s.lastStop⟩

/-- One or more items with commas between them. -/
def commaList {α : Type} (item : Parser α) : (fuel : Nat) → Parser (List α)
  | 0 => Step.exhausted
  | fuel + 1 => do
    let first ← item
    if ← at? Mark.comma then
      advance
      let rest ← commaList item fuel
      pure (first :: rest)
    else pure [first]

def parenthesized {α : Type} (p : Parser α) : Parser α := do
  expect Mark.openParen
  let a ← p
  expect Mark.closeParen
  pure a

end Parser

end Kotoba.Syntax
