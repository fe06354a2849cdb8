import Kotoba.Yaml.Fault
import Kotoba.Yaml.Scalar.Gap

/-! Block scalars: indented lines, kept as they are or folded. -/
namespace Kotoba.Yaml.Block

/-- What happens to the line ends after the last line: none stays, one stays, or all stay. -/
inductive Chomping where
  | strip
  | clip
  | keep
deriving DecidableEq, Repr

/-- The indicators of a block scalar; `depth` is how much deeper than its parent it stands. -/
structure Header where
  chomping : Chomping := .clip
  depth : Option Nat := none

def chomping? : List Char → Option Chomping
  | '+' :: _ => some .keep
  | '-' :: _ => some .strip
  | _ => none

def depth? (line : Nat) : List Char → Except Fault (Option Nat)
  | ch :: _ =>
    if ch == '0' then .error (.lexical .zeroIndentation line line)
    else if ch.isDigit then .ok (some (ch.toNat - 48))
    else .ok none
  | [] => .ok none

def header (c : Cursor) : Except Fault (Header × Cursor) :=
  match chomping? c.rest with
  | some chomping => do
    let c := c.skip 1
    match ← depth? c.line c.rest with
    | some depth => .ok (⟨chomping, some depth⟩, c.skip 1)
    | none => .ok (⟨chomping, none⟩, c)
  | none => do
    match ← depth? c.line c.rest with
    | some depth =>
      let c := c.skip 1
      match chomping? c.rest with
      | some chomping => .ok (⟨chomping, some depth⟩, c.skip 1)
      | none => .ok (⟨.clip, some depth⟩, c)
    | none => .ok ({}, c)

/-- Passes over empty lines and the indentation of the line after them, which has `indent` columns
if that is known; `widest` is the widest indentation so far. Gives the line ends passed. -/
def emptyLines (indent : Option Nat) (start : Nat) :
    (fuel widest : Nat) → (ends : List Char) → Cursor → Except Fault (Nat × List Char × Cursor)
  | 0, widest, ends, c => .ok (widest, ends, c)
  | fuel + 1, widest, ends, c =>
    let spaces := (c.rest.takeWhile (· == ' ')).length
    let c := c.skip (match indent with
      | none => spaces
      | some indent => min spaces (indent - c.column))
    let widest := max widest c.column
    if indent.all (c.column < ·) && c.rest.head? = some '\t' then
      .error (.lexical .tabInBlock start c.line)
    else
      match c.lineEnd? with
      | some (ch, c) => emptyLines indent start fuel widest (ends ++ [ch]) c
      | none => .ok (widest, ends, c)

/-- The lines read so far, newest character first; the end of the last of them; the ends of the
empty lines after it; and whether it starts with a blank. -/
structure Lines where
  text : List Char := []
  last : List Char := []
  empty : List Char
  indented : Bool := false

/-- What joins the lines so far to a next one. Folding turns one line feed between two lines that do
not start with a blank into a space, and drops the first of several. -/
def Lines.joint (lines : Lines) (literal blank : Bool) : List Char :=
  (if !literal && !lines.indented && !blank && lines.last == ['\n'] then
    if lines.empty.isEmpty then [' '] else []
  else lines.last) ++ lines.empty

def readLines (literal : Bool) (indent start : Nat) :
    (fuel : Nat) → Lines → Cursor → Except Fault (Lines × Cursor)
  | 0, lines, c => .ok (lines, c)
  | fuel + 1, lines, c =>
    if c.column ≠ indent ∨ c.rest.isEmpty then .ok (lines, c)
    else do
      let blank := c.rest.head?.any isSpace
      let (line, c) := c.span fun ch => !isBreak ch
      let text := line.reverse ++ (lines.joint literal blank).reverse ++ lines.text
      let (last, c) := match c.lineEnd? with
        | some (ch, c) => ([ch], c)
        | none => ([], c)
      let (_, empty, c) ← emptyLines (some indent) start (c.left + 1) 0 [] c
      readLines literal indent start fuel ⟨text, last, empty, blank⟩ c

/-- The block scalar at a cursor; `parent` is the column of its parent, or -1 without one. -/
def read (literal : Bool) (parent : Int) (c : Cursor) : Except Fault (String × Cursor) := do
  let start := c.line
  let (header, c) ← header (c.skip 1)
  let c ← c.lineRest start
  let given := header.depth.map fun depth => (max parent 0).toNat + depth
  let (widest, empty, c) ← emptyLines given start (c.left + 1) 0 [] c
  let indent := given.getD (max (max widest (parent + 1).toNat) 1)
  let (lines, c) ← readLines literal indent start (c.left + 1) { empty } c
  let tail := match header.chomping with
    | .strip => []
    | .clip => lines.last
    | .keep => lines.last ++ lines.empty
  .ok (String.ofList (lines.text.reverse ++ tail), c)

end Kotoba.Yaml.Block
