/-! Places in a YAML text. -/
namespace Kotoba.Yaml

def isSpace (c : Char) : Bool := c == ' ' || c == '\t'

def isBreak (c : Char) : Bool :=
  c == '\n' || c == '\r' || c == '\x85' || c == '\u2028' || c == '\u2029'

def endsWord : List Char → Bool
  | [] => true
  | c :: _ => isSpace c || isBreak c

def isNameChar (c : Char) : Bool := c.isAlphanum || c == '_' || c == '-'

def hexDigit? (c : Char) : Option Nat :=
  if c.isDigit then some (c.toNat - 48)
  else if 'a' ≤ c ∧ c ≤ 'f' then some (c.toNat - 87)
  else if 'A' ≤ c ∧ c ≤ 'F' then some (c.toNat - 55)
  else none

/-- The characters to come, how many they are, and where the next one stands. Lines and columns
count from zero. -/
structure Cursor where
  rest : List Char
  left : Nat := rest.length
  line : Nat := 0
  column : Nat := 0
  left_eq : left = rest.length := by rfl

namespace Cursor

def skip (c : Cursor) (n : Nat) : Cursor :=
  { c with
    rest := c.rest.drop n, left := c.left - n, column := c.column + n,
    left_eq := by simp [c.left_eq] }

def span (c : Cursor) (p : Char → Bool) : List Char × Cursor :=
  let taken := c.rest.takeWhile p
  (taken, c.skip taken.length)

def skipWhile (c : Cursor) (p : Char → Bool) : Cursor := (c.span p).2

/-- The cursor at the start of the next line, `n` characters further. -/
def newLine (c : Cursor) (n : Nat) : Cursor :=
  ⟨c.rest.drop n, c.left - n, c.line + 1, 0, by simp [c.left_eq]⟩

/-- The end of the line if it comes next, as it stands in a scalar, and the cursor after it. All
line ends but the line and paragraph separators are read as line feeds. -/
def lineEnd? (c : Cursor) : Option (Char × Cursor) :=
  match c.rest with
  | '\r' :: '\n' :: _ => some ('\n', c.newLine 2)
  | ch :: _ =>
    if ch == '\u2028' || ch == '\u2029' then some (ch, c.newLine 1)
    else if isBreak ch then some ('\n', c.newLine 1)
    else none
  | [] => none

def skipLine (c : Cursor) : Cursor := c.skipWhile fun ch => !isBreak ch

def skipBlankLines : (fuel : Nat) → Cursor → Cursor
  | 0, c => c
  | fuel + 1, c =>
    match c.lineEnd? with
    | some (_, c) => skipBlankLines fuel c
    | none => if c.rest.head?.any isSpace then skipBlankLines fuel (c.skip 1) else c

/-- Whether a line starts here with `mark`, alone or before a blank. -/
def atMark (c : Cursor) (mark : String) : Bool :=
  c.column == 0 && mark.toList.isPrefixOf c.rest && endsWord (c.rest.drop 3)

def atAnyMark (c : Cursor) : Bool := c.atMark "---" || c.atMark "..."

end Cursor

end Kotoba.Yaml
