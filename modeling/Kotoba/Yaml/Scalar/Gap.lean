import Kotoba.Yaml.Cursor

/-! What stands between two words of a scalar, and what is left of it when lines are folded. -/
namespace Kotoba.Yaml

/-- Blanks, or the ends of lines with all blanks around them. -/
structure Gap where
  crossed : Bool := false
  blanks : List Char := []
  /-- The line end right after the words before, if it counts. -/
  first : Option Char := none
  /-- The ends of the empty lines that follow. -/
  more : List Char := []

namespace Gap

def addBlank (g : Gap) (ch : Char) : Gap :=
  if g.crossed then g else { g with blanks := g.blanks ++ [ch] }

def addLine (g : Gap) (ch : Char) : Gap :=
  if g.crossed then { g with more := g.more ++ [ch] } else { crossed := true, first := some ch }

/-- One line feed becomes a space, of several all but the first stay. -/
def folded (g : Gap) : List Char :=
  if g.crossed then
    match g.first with
    | none => g.more
    | some '\n' => if g.more.isEmpty then [' '] else g.more
    | some ch => ch :: g.more
  else g.blanks

/-- After the end of a line reading stops at a tab left of column `margin`. -/
def read (margin : Nat) : (fuel : Nat) → Gap → Cursor → Gap × Cursor
  | 0, g, c => (g, c)
  | fuel + 1, g, c =>
    match c.lineEnd? with
    | some (ch, c) => read margin fuel (g.addLine ch) c
    | none =>
      match c.rest with
      | ch :: _ =>
        if isSpace ch && !(g.crossed && ch == '\t' && c.column < margin) then
          read margin fuel (g.addBlank ch) (c.skip 1)
        else (g, c)
      | [] => (g, c)

def readAll (margin : Nat) (g : Gap) (c : Cursor) : Gap × Cursor := read margin c.left g c

end Gap

end Kotoba.Yaml
