import Kotoba.Diagnostic.Basic
import Kotoba.Text.Letter
import Kotoba.Token.Basic

/-! Scanning: from characters to tokens. A scan that fails leaves the cursor where it stopped, so
scanning can go on from there. -/
namespace Kotoba.Token

structure Limits where
  identifier : Nat := 64
  string : Nat := 4096

/-- Limits from settings, where a value that is not positive stands for the usual one. -/
def Limits.ofSettings (identifier string : Int) : Limits where
  identifier := if identifier ≤ 0 then 64 else identifier.toNat
  string := if string ≤ 0 then 4096 else string.toNat

def maxInteger : Nat := 9223372036854775807

inductive Reason where
  | unrecognized (c : Char)
  | missingFraction
  | identifierTooLong (limit : Nat)
  | stringTooLong (limit : Nat)
  | unterminated
  | invalidEscape (c : Char)
  | nonPrintable (c : Char)
  | integerOverflow
deriving DecidableEq, Repr

namespace Reason

def kind : Reason → Diagnostic.Kind
  | unrecognized _ => .unrecognizedCharacter
  | missingFraction => .unrecognizedCharacter
  | identifierTooLong _ => .identifierTooLong
  | stringTooLong _ => .stringTooLong
  | unterminated => .unterminatedString
  | invalidEscape _ => .invalidEscape
  | nonPrintable _ => .nonPrintable
  | integerOverflow => .integerOverflow

def message : Reason → String
  | unrecognized c =>
    if Text.isPrintable c then "unrecognized character '" ++ String.singleton c ++ "'"
    else s!"unrecognized character with code {c.toNat}"
  | missingFraction => "invalid float literal: expected a digit after '.'"
  | identifierTooLong limit => s!"identifier exceeds the maximum length of {limit} characters"
  | stringTooLong limit => s!"string exceeds the maximum length of {limit} characters"
  | unterminated => "unterminated string"
  | invalidEscape c => "invalid escape sequence '\\" ++ String.singleton c ++ "'"
  | nonPrintable c => s!"non-printable character with code {c.toNat}"
  | integerOverflow => s!"integer literal exceeds {maxInteger}"

end Reason

structure Fault where
  reason : Reason
  position : Position

def Fault.diagnostic (f : Fault) : Diagnostic where
  stage := .lexical
  kind := some f.reason.kind
  message := f.reason.message
  span := .point f.position

/-- The characters to come, where the next one stands, and where the last one stood. -/
structure Cursor where
  rest : List Char
  here : Position := .start
  last : Position := .start

namespace Cursor

def ofText (text : Bytes) : Cursor := { rest := text.chars }

def next (c : Cursor) : Cursor :=
  match c.rest with
  | [] => c
  | ch :: rest => ⟨rest, c.here.after ch, c.here⟩

def skip (c : Cursor) (n : Nat) : Cursor := Nat.repeat next n c

end Cursor

/-- Between tokens: among blanks, after the first `#` of a comment, in a line comment, in a block
comment, or after a `#` in one. -/
inductive Gap where
  | blanks
  | hash
  | line
  | block
  | blockHash
deriving DecidableEq, Repr

/-- What lies between tokens after `ch`, or `none` if `ch` begins a token. -/
def Gap.after (gap : Gap) (ch : Char) : Option Gap :=
  match gap with
  | .blanks => if Text.isBlank ch then some .blanks else if ch = '#' then some .hash else none
  | .hash => some (if ch = '#' then .block else if ch = '\n' then .blanks else .line)
  | .line => some (if ch = '\n' then .blanks else .line)
  | .block => some (if ch = '#' then .blockHash else .block)
  | .blockHash => some (if ch = '#' then .blanks else .block)

/-- Passes over blanks and comments. A line comment runs to the end of its line, a block comment
to the next `##`, or else to the end of the text. -/
def skipGap (gap : Gap) : (rest : List Char) → (here last : Position) → Cursor
  | [], here, last => ⟨[], here, last⟩
  | ch :: rest, here, last =>
    match gap.after ch with
    | some gap => skipGap gap rest (here.after ch) here
    | none => ⟨ch :: rest, here, last⟩

def digitValue (c : Char) : Nat := c.toNat - 48

/-- Reads the leading digits onto `value`, `count` of them read before. It stops with the count at
the digit that would take the value past the greatest integer. -/
def readInteger (value count : Nat) : List Char → Except Nat (Nat × Nat)
  | [] => .ok (value, count)
  | c :: rest =>
    if c.isDigit then
      if (maxInteger - digitValue c) / 10 < value then .error count
      else readInteger (value * 10 + digitValue c) (count + 1) rest
    else .ok (value, count)

/-- The value of the digits over the power of ten, both in floating point. -/
def fraction (digits : List Char) : Float :=
  let (numerator, denominator) := digits.foldl
    (fun (n, d) c => (n * 10 + Float.ofNat (digitValue c), d * 10)) ((0.0, 1.0) : Float × Float)
  numerator / denominator

def unescape? : Char → Option Char
  | 'n' => some '\n'
  | 't' => some '\t'
  | '"' => some '"'
  | '\\' => some '\\'
  | _ => none

/-- Reads a string literal that began at `start` up to its closing quote. `text` holds the
`length` characters read so far, newest first. -/
def readString (limit : Nat) (start : Position) (length : Nat) (text : List Char) :
    (rest : List Char) → (here last : Position) → Except Fault Lexeme × Cursor
  | [], here, last => (.error ⟨.unterminated, start⟩, ⟨[], here, last⟩)
  | ch :: rest, here, last =>
    if ch = '"' then
      (.ok (.string (String.ofList text.reverse)), ⟨rest, here.after ch, here⟩)
    else if !Text.isPrintable ch then (.error ⟨.nonPrintable ch, here⟩, ⟨ch :: rest, here, last⟩)
    else if limit < length + 1 then
      (.error ⟨.stringTooLong limit, start⟩, ⟨ch :: rest, here, last⟩)
    else if ch = '\\' then
      match rest with
      | [] => (.error ⟨.unterminated, start⟩, ⟨[], here.after ch, here⟩)
      | code :: rest =>
        match unescape? code with
        | none => (.error ⟨.invalidEscape code, here⟩, ⟨code :: rest, here.after ch, here⟩)
        | some c =>
          readString limit start (length + 1) (c :: text) rest ((here.after ch).after code)
            (here.after ch)
    else readString limit start (length + 1) (ch :: text) rest (here.after ch) here

def readWord (limits : Limits) (c : Cursor) : Except Fault Lexeme × Cursor :=
  let letters := c.rest.takeWhile Text.isLetter
  if limits.identifier < letters.length then
    (.error ⟨.identifierTooLong limits.identifier, c.here⟩, c.skip limits.identifier)
  else
    let word := String.ofList letters
    (.ok (match Mark.ofWord? word with
      | some m => .mark m word
      | none => .identifier word), c.skip letters.length)

/-- Reads an integer, or a float if a point follows. -/
def readNumber (c : Cursor) : Except Fault Lexeme × Cursor :=
  match readInteger 0 0 c.rest with
  | .error count => (.error ⟨.integerOverflow, c.here⟩, c.skip count)
  | .ok (value, count) =>
    let whole := c.skip count
    match whole.rest with
    | '.' :: _ =>
      let point := whole.next
      match point.rest.takeWhile Char.isDigit with
      | [] => (.error ⟨.missingFraction, point.here⟩, point)
      | digits =>
        (.ok (.float (Float.ofNat value + fraction digits)), point.skip digits.length)
    | _ => (.ok (.integer value), whole)

def readSign (ch : Char) (c : Cursor) : Except Fault Lexeme × Cursor :=
  let one := c.next
  match Mark.ofChars? ch one.rest.head? with
  | some (m, true) => (.ok (.mark m ""), one.next)
  | some (m, false) => (.ok (.mark m ""), one)
  | none => (.error ⟨.unrecognized ch, c.here⟩, one)

def readLexeme (limits : Limits) (c : Cursor) : Except Fault Lexeme × Cursor :=
  match c.rest with
  | [] => (.ok .endOfInput, c)
  | ch :: _ =>
    if Text.isLetter ch then readWord limits c
    else if ch.isDigit then readNumber c
    else if ch = '"' then
      let opened := c.next
      readString limits.string c.here 0 [] opened.rest opened.here opened.last
    else readSign ch c

/-- Scans the next token. At the end of the text that is the end of input, as often as asked. -/
def scan (limits : Limits) (c : Cursor) : Except Fault Token × Cursor :=
  let c := skipGap .blanks c.rest c.here c.last
  match readLexeme limits c with
  | (.ok .endOfInput, c') => (.ok ⟨.endOfInput, c.here, c.here⟩, c')
  | (.ok lexeme, c') => (.ok ⟨lexeme, c.here, c'.last⟩, c')
  | (.error fault, c') => (.error fault, c')

structure Scan where
  tokens : List Token
  ending : Except Fault Token

/-- A token takes at least one character, so the number of characters left is fuel enough. -/
def scanAll (limits : Limits) : (fuel : Nat) → Cursor → Scan
  | 0, c => ⟨[], .ok ⟨.endOfInput, c.here, c.here⟩⟩
  | fuel + 1, c =>
    match scan limits c with
    | (.error fault, _) => ⟨[], .error fault⟩
    | (.ok token, c) =>
      match token.lexeme with
      | .endOfInput => ⟨[], .ok token⟩
      | _ =>
        let rest := scanAll limits fuel c
        ⟨token :: rest.tokens, rest.ending⟩

def tokenize (limits : Limits) (text : Bytes) : Scan :=
  let c := Cursor.ofText text
  scanAll limits (c.rest.length + 1) c

def Scan.all (s : Scan) : List Token :=
  match s.ending with
  | .ok token => s.tokens ++ [token]
  | .error _ => s.tokens

/-- A reader can look one token ahead. It remembers what it scanned, newest first. -/
structure Reader where
  limits : Limits := {}
  cursor : Cursor := { rest := [] }
  ahead : Option Token := none
  scanned : List Token := []

namespace Reader

def restart (r : Reader) (text : Bytes) : Reader :=
  { r with cursor := .ofText text, ahead := none }

private def scanNext (r : Reader) : Except Fault Token × Reader :=
  match scan r.limits r.cursor with
  | (.ok token, cursor) => (.ok token, { r with cursor, scanned := token :: r.scanned })
  | (.error fault, cursor) => (.error fault, { r with cursor })

def get (r : Reader) : Except Fault Token × Reader :=
  match r.ahead with
  | some token => (.ok token, { r with ahead := none })
  | none => r.scanNext

def peek (r : Reader) : Except Fault Token × Reader :=
  match r.ahead with
  | some token => (.ok token, r)
  | none =>
    match r.scanNext with
    | (.ok token, r) => (.ok token, { r with ahead := some token })
    | (.error fault, r) => (.error fault, r)

end Reader

end Kotoba.Token
