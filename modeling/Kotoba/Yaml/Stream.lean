import Kotoba.Yaml.Property
import Kotoba.Yaml.Scalar.Block
import Kotoba.Yaml.Scalar.Plain
import Kotoba.Yaml.Scalar.Quoted

/-! Tokens read on demand. Whether a token is the key of a mapping shows only at the colon after it,
so a token that may be a key is held back until that is settled; besides, two tokens more than asked
for are always read. What is wrong with a text is found in this order. -/
namespace Kotoba.Yaml

/-- A token that may turn out to be a key; a required one is a fault otherwise. -/
structure Candidate where
  possible : Bool := false
  required : Bool := false
  number : Nat := 0
  left : Nat := 0
  line : Nat := 0
  column : Nat := 0

/-- Whether a colon at `c` comes too late for a key: on another line, or too far away. -/
def Candidate.isStale (k : Candidate) (c : Cursor) : Bool :=
  k.line < c.line || c.left + 1024 < k.left

structure Stream where
  cursor : Cursor
  ending : Option Fault := none
  /-- Whether the text starts with a second byte order mark. -/
  marked : Bool := false
  queue : List Token := []
  taken : Nat := 0
  /-- The column of the innermost block collection, or -1. -/
  indent : Int := -1
  indents : List Int := []
  /-- Whether a key can start here. -/
  keyAllowed : Bool := true
  /-- The candidate inside the innermost open bracket. -/
  key : Candidate := {}
  outer : List Candidate := []

namespace Stream

def inFlow (s : Stream) : Bool := !s.outer.isEmpty

def nextNumber (s : Stream) : Nat := s.taken + s.queue.length

def push (s : Stream) (sign : Sign) (line : Nat) : Stream :=
  { s with queue := s.queue ++ [⟨sign, line⟩] }

def insert (s : Stream) (number : Nat) (sign : Sign) (line : Nat) : Stream :=
  let place := number - s.taken
  { s with queue := s.queue.take place ++ ⟨sign, line⟩ :: s.queue.drop place }

def missingColon (s : Stream) (k : Candidate) : Fault :=
  .lexical .missingColon k.line s.cursor.line

def dropKey (s : Stream) : Except Fault Stream :=
  if s.key.possible && s.key.required then .error (s.missingColon s.key)
  else .ok { s with key := { s.key with possible := false } }

/-- Where block collections have their keys or items the next token has to be a key. -/
def noteKey (s : Stream) : Except Fault Stream :=
  if s.keyAllowed then do
    let s ← s.dropKey
    let c := s.cursor
    .ok { s with
      key := ⟨true, !s.inFlow && s.indent == c.column, s.nextNumber, c.left, c.line, c.column⟩ }
  else .ok s

/-- Opens a block collection at `column`, before the token `number`, if it is indented. -/
def roll (s : Stream) (column number : Nat) (sign : Sign) (line : Nat) : Except Fault Stream :=
  if s.inFlow || (column : Int) ≤ s.indent then .ok s
  else if maxDepth ≤ s.indents.length then .error (.lexical .tooDeep s.key.line s.cursor.line)
  else .ok ({ s with indent := column, indents := s.indent :: s.indents }.insert number sign line)

def unrollFrom (column : Int) (line : Nat) : (indents : List Int) → Stream → Stream
  | [], s => s
  | outer :: indents, s =>
    if column < s.indent then
      unrollFrom column line indents ({ s with indent := outer, indents }.push .blockEnd line)
    else s

/-- Closes the block collections that end before something at `column`. -/
def unroll (s : Stream) (column : Int) (line : Nat) : Stream :=
  if s.inFlow then s else unrollFrom column line s.indents s

/-! ## Between tokens -/

/-- Passes over a comment, and over more comments if only blanks stand between them. -/
def skipComments : (fuel : Nat) → Cursor → Cursor
  | 0, c => c
  | fuel + 1, c =>
    let c := c.skipLine
    let gap := (c.rest.drop 1).takeWhile fun ch => isSpace ch || isBreak ch
    if (c.rest.drop (1 + gap.length)).head? = some '#' && gap.length < 511 then
      skipComments fuel (c.skipBlankLines (1 + gap.length))
    else c

/-- Passes over a byte order mark at the start of the text. Of a text that has one, the first
character of every later line counts as one too, unless the end is near. -/
def skipMark (s : Stream) : Stream :=
  let c := s.cursor
  if s.marked && c.column == 0 && ((c.line == 0) || 4 ≤ c.left) then { s with cursor := c.skip 1 }
  else s

/-- Passes over blanks and comments. Where a key can start tabs are no blanks. After the end of a
line a key can start, except inside brackets. -/
def skipGapFrom : (fuel : Nat) → Stream → Stream
  | 0, s => s
  | fuel + 1, s =>
    let s := s.skipMark
    let c := s.cursor.skipWhile fun ch =>
      ch == ' ' || (ch == '\t' && (s.inFlow || !s.keyAllowed))
    let c := if c.rest.head? = some '#' then skipComments c.left c else c
    match c.lineEnd? with
    | some (_, c) =>
      skipGapFrom fuel { s with cursor := c, keyAllowed := s.keyAllowed || !s.inFlow }
    | none => { s with cursor := c }

def skipGap (s : Stream) : Stream := skipGapFrom (s.cursor.left + 1) s

def skipLineComment (s : Stream) : Stream :=
  let c := s.cursor.skipWhile isSpace
  if c.rest.head? = some '#' then { s with cursor := c.skipLine } else s

/-! ## The tokens -/

/-- A fault that is noticed at the end of the characters at hand is that of what follows them. -/
def atEnd (s : Stream) (f : Fault) : Fault :=
  match f with
  | .lexical .unclosedQuote _ _ => s.ending.getD f
  | _ => f

def take (s : Stream) (sign : Sign) (length : Nat) : Stream :=
  { s.push sign s.cursor.line with cursor := s.cursor.skip length }

def finish (s : Stream) : Except Fault Stream := do
  let c := s.cursor
  let c := if c.column = 0 then c else { c with line := c.line + 1, column := 0 }
  let s ← ({ s with cursor := c }.unroll (-1) c.line).dropKey
  .ok ({ s with keyAllowed := false }.push .streamEnd c.line)

def directive (s : Stream) : Except Fault Stream := do
  let line := s.cursor.line
  let s ← (s.unroll (-1) line).dropKey
  let (sign, cursor) ← Directive.read s.cursor
  .ok ({ s with keyAllowed := false, cursor }.push sign line)

def documentMark (s : Stream) (sign : Sign) : Except Fault Stream := do
  let s ← (s.unroll (-1) s.cursor.line).dropKey
  .ok ({ s with keyAllowed := false }.take sign 3)

def openBracket (s : Stream) (sign : Sign) : Except Fault Stream := do
  let s ← s.noteKey
  if maxDepth ≤ s.outer.length then .error (.lexical .tooDeep s.cursor.line s.cursor.line)
  else .ok ({ s with outer := s.key :: s.outer, key := {}, keyAllowed := true }.take sign 1)

def closeBracket (s : Stream) (sign : Sign) : Except Fault Stream := do
  let s ← s.dropKey
  let s := match s.outer with
    | [] => s
    | key :: outer => { s with key, outer }
  .ok ({ s with keyAllowed := false }.take sign 1)

def comma (s : Stream) : Except Fault Stream := do
  let s ← s.dropKey
  .ok ({ s with keyAllowed := true }.take .comma 1)

def item (s : Stream) : Except Fault Stream := do
  if !s.inFlow && !s.keyAllowed then .error (s.cursor.fault .misplacedItem)
  else
    let s ← s.roll s.cursor.column s.nextNumber .blockSequence s.cursor.line
    let s ← s.dropKey
    .ok ({ s with keyAllowed := true }.take .item 1)

/-- The sign before a key that is no candidate. -/
def keySign (s : Stream) : Except Fault Stream := do
  if !s.inFlow && !s.keyAllowed then .error (s.cursor.fault .misplacedKey)
  else
    let s ← s.roll s.cursor.column s.nextNumber .blockMapping s.cursor.line
    let s ← s.dropKey
    .ok ({ s with keyAllowed := !s.inFlow }.take .key 1)

/-- The colon before a value. It makes a key of the present candidate. -/
def valueSign (s : Stream) : Except Fault Stream := do
  let k := s.key
  if k.possible && !k.isStale s.cursor then
    let s := s.insert k.number .key k.line
    let s ← s.roll k.column k.number .blockMapping k.line
    .ok ({ s with key := { k with possible := false }, keyAllowed := false }.take .value 1)
  else if k.possible && k.required then .error (s.missingColon k)
  else if !s.inFlow && !s.keyAllowed then .error (s.cursor.fault .misplacedValue)
  else
    let s := { s with key := { k with possible := false } }
    let s ← s.roll s.cursor.column s.nextNumber .blockMapping s.cursor.line
    .ok ({ s with keyAllowed := !s.inFlow }.take .value 1)

def name (s : Stream) (sign : String → Sign) : Except Fault Stream := do
  let s ← s.noteKey
  let (name, cursor) ← (s.cursor.skip 1).anchorName
  .ok { s.push (sign name) s.cursor.line with cursor, keyAllowed := false }

def tag (s : Stream) : Except Fault Stream := do
  let s ← s.noteKey
  let (sign, cursor) ← Tag.read s.cursor
  .ok { s.push sign s.cursor.line with cursor, keyAllowed := false }

def blockScalar (s : Stream) (literal : Bool) : Except Fault Stream := do
  let s ← s.dropKey
  let (text, cursor) ← Block.read literal s.indent s.cursor
  .ok { s.push (.scalar text .quoted) s.cursor.line with cursor, keyAllowed := true }

def quotedScalar (s : Stream) (single : Bool) : Except Fault Stream := do
  let s ← s.noteKey
  let (text, cursor) ← (Quoted.read single s.cursor).mapError s.atEnd
  .ok { s.push (.scalar text .quoted) s.cursor.line with cursor, keyAllowed := false }

def plainScalar (s : Stream) : Except Fault Stream := do
  let s ← s.noteKey
  let scalar ← Plain.read s.inFlow (s.indent + 1).toNat s.cursor
  .ok { s.push (.scalar scalar.text .plain) s.cursor.line with
    cursor := scalar.cursor, keyAllowed := scalar.crossed }

def readToken (s : Stream) (ch : Char) (rest : List Char) : Except Fault Stream :=
  match ch with
  | '[' => s.openBracket .flowSequence
  | '\x7b' => s.openBracket .flowMapping
  | ']' => s.closeBracket .flowSequenceEnd
  | '\x7d' => s.closeBracket .flowMappingEnd
  | ',' => s.comma
  | '*' => s.name .reference
  | '&' => s.name .anchor
  | '!' => s.tag
  | '\'' => s.quotedScalar true
  | '"' => s.quotedScalar false
  | _ =>
    if ch == '-' && endsWord rest then s.item
    else if ch == '?' && (s.inFlow || endsWord rest) then s.keySign
    else if ch == ':' && (s.inFlow || endsWord rest) then s.valueSign
    else if ch == '|' && !s.inFlow then s.blockScalar true
    else if ch == '>' && !s.inFlow then s.blockScalar false
    else if Plain.starts s.inFlow (ch :: rest) then s.plainScalar
    else .error (s.cursor.fault .noToken)

/-- Four characters are asked for, or all that there are. -/
def readNext (s : Stream) : Except Fault Stream :=
  let line := s.cursor.line
  let s := s.skipGap
  let s := s.unroll s.cursor.column line
  match s.ending, s.cursor.rest with
  | some fault, [] | some fault, [_] | some fault, [_, _] | some fault, [_, _, _] => .error fault
  | _, [] => s.finish
  | _, ch :: rest =>
    if s.cursor.column == 0 && ch == '%' then s.directive
    else if s.cursor.atMark "---" then s.documentMark .documentStart
    else if s.cursor.atMark "..." then s.documentMark .documentEnd
    else do
      let s ← s.readToken ch rest
      if s.queue.getLast?.any (·.sign == .item) then .ok s else .ok s.skipLineComment

def isReady (s : Stream) : Except Fault Bool :=
  if s.queue.length < 3 then .ok false
  else
    match (s.key :: s.outer).find? fun k => k.possible && k.number == s.taken with
    | none => .ok true
    | some k =>
      if !k.isStale s.cursor then .ok false
      else if k.required then .error (s.missingColon k)
      else .ok true

def fill : (fuel : Nat) → Stream → Except Fault Stream
  | 0, s => .ok s
  | fuel + 1, s => do
    if ← s.isReady then .ok s
    else
      let s ← s.readNext
      fill fuel s

def peek (s : Stream) : Except Fault (Token × Stream) := do
  let s ← s.fill (s.cursor.left + 4)
  .ok (s.queue.headD ⟨.streamEnd, s.cursor.line⟩, s)

def tail (s : Stream) : Stream := { s with queue := s.queue.tail, taken := s.taken + 1 }

end Stream

end Kotoba.Yaml
