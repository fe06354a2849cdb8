/-! Places in a source text. -/
namespace Kotoba

/-- A line and a column, both counted from one. The zero position is unknown. -/
structure Position where
  line : Int := 0
  column : Int := 0
deriving DecidableEq, Repr, Inhabited

namespace Position

def start : Position := ⟨1, 1⟩

def isUnknown (p : Position) : Bool := p.line == 0 && p.column == 0

def after (p : Position) (c : Char) : Position :=
  if c = '\n' then ⟨p.line + 1, 1⟩ else ⟨p.line, p.column + 1⟩

def text (p : Position) : String := s!"{p.line}:{p.column}"

end Position

/-- The text from `start` to `stop`, both included. -/
structure Span where
  start : Position := {}
  stop : Position := {}
deriving DecidableEq, Repr, Inhabited

namespace Span

def point (p : Position) : Span := ⟨p, p⟩

def isUnknown (s : Span) : Bool := s.start.isUnknown && s.stop.isUnknown

/-- Written `L:C`, or `L:C to L:C` when the end is known and differs from the start. -/
def text (s : Span) : String :=
  if s.stop.isUnknown || s.stop == s.start then s.start.text
  else s.start.text ++ " to " ++ s.stop.text

end Span

end Kotoba
