import Kotoba.Diagnostic.Basic

/-! Reports: diagnostics and other failures as a user reads them, with an excerpt of the source. -/
namespace Kotoba

/-- A failure as it is reported: a plain message or a diagnostic, possibly inside a context whose
text was fixed when the context was added. -/
inductive Report where
  | plain (message : Bytes)
  | diagnostic (d : Diagnostic)
  | within (text : Bytes) (inner : Report)

namespace Report

def text : Report → Bytes
  | plain message => message
  | diagnostic d => d.text
  | within text _ => text

def inContext (context : Bytes) (r : Report) : Report := .within (context ++ ": " ++ r.text) r

def diagnostic? : Report → Option Diagnostic
  | plain _ => none
  | diagnostic d => some d
  | within _ inner => inner.diagnostic?

def locate (span : Span) : Report → Report
  | plain message => plain message
  | diagnostic d => diagnostic (d.locate span)
  | within text inner => within text (inner.locate span)

end Report

namespace Excerpt

/-- A line number in the gutter, right-aligned in four columns. -/
def gutter (n : Nat) : Bytes :=
  let digits := toString n
  Bytes.ofString ("".pushn ' ' (4 - digits.length) ++ digits ++ " | ")

def numbered (lines : List Bytes) (number : Nat) : Bytes :=
  match number with
  | 0 => .empty
  | n + 1 =>
    match lines[n]? with
    | some line => gutter number ++ line ++ "\n"
    | none => .empty

/-- The number of the line to show for `line`: the nearest one the source has. -/
def lineNumber (line : Int) (count : Nat) : Nat := max 1 (min line.toNat count)

def columnNumber (column : Int) : Nat := max 1 column.toNat

/-- How many carets mark `span` from `column` on, up to its end if that is on the same line. -/
def caretCount (span : Span) (column : Nat) : Nat :=
  if span.stop.line = span.start.line ∧ (column : Int) < span.stop.column then
    span.stop.column.toNat - column + 1
  else 1

def text (source : Bytes) (span : Span) : Bytes :=
  let lines := source.lines
  let line := lineNumber span.start.line lines.length
  let column := columnNumber span.start.column
  numbered lines (line - 1) ++ numbered lines line ++
    Bytes.ofString ("     | " ++ "".pushn ' ' (column - 1) ++
      "".pushn '^' (caretCount span column) ++ "\n") ++
    numbered lines (line + 1)

def heading (name source : Bytes) (span : Span) : Bytes :=
  "  --> " ++ name ++ Bytes.ofString
    s!":{lineNumber span.start.line source.lines.length}:{columnNumber span.start.column}\n"

end Excerpt

namespace Report

/-- Without a source or a place there is only the text. -/
def render (r : Report) (name source : Bytes) : Bytes :=
  match r.diagnostic? with
  | none => r.text
  | some d =>
    if d.span.isUnknown || source.isEmpty then r.text
    else
      r.text ++ "\n" ++ (if name.isEmpty then .empty else Excerpt.heading name source d.span) ++
        Excerpt.text source d.span

end Report

end Kotoba
