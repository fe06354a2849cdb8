import Kotoba.Yaml.Fault
import Kotoba.Yaml.Scalar.Gap

/-! Plain scalars: words without quotes, possibly over several lines. -/
namespace Kotoba.Yaml.Plain

def starts (inFlow : Bool) : List Char → Bool
  | [] => false
  | ch :: rest =>
    !(isSpace ch || isBreak ch || "-?:,[]\x7b\x7d#&*!|>'\"%@`".toList.contains ch) ||
      (ch == '-' && !rest.head?.any isSpace) ||
      (!inFlow && (ch == '?' || ch == ':') && !endsWord rest)

/-- How many of these characters belong to the present word. A colon before a blank ends a scalar,
and inside brackets their signs do. -/
def wordLength (inFlow : Bool) : List Char → Nat
  | [] => 0
  | ch :: rest =>
    if isSpace ch || isBreak ch || (ch == ':' && endsWord rest) ||
        (inFlow && ",?[]\x7b\x7d".toList.contains ch) then 0
    else wordLength inFlow rest + 1

/-- A scalar that was read; `crossed` tells whether the cursor is past the line it ends in. -/
structure Result where
  text : String
  crossed : Bool
  cursor : Cursor

/-- Reads on in a scalar that starts in line `start`; `text` holds what was read, newest first, and
`gap` what was read since the last word. Outside brackets a line that starts left of `margin` ends
the scalar. -/
def readFrom (inFlow : Bool) (margin start : Nat) :
    (fuel : Nat) → (text : List Char) → Gap → Cursor → Except Fault Result
  | 0, text, gap, c => .ok ⟨String.ofList text.reverse, gap.crossed, c⟩
  | fuel + 1, text, gap, c =>
    let length := wordLength inFlow c.rest
    if c.atAnyMark || c.rest.head? = some '#' || length == 0 then
      .ok ⟨String.ofList text.reverse, gap.crossed, c⟩
    else
      let text := (c.rest.take length).reverse ++ gap.folded.reverse ++ text
      let c := c.skip length
      if c.rest.isEmpty || !endsWord c.rest then .ok ⟨String.ofList text.reverse, false, c⟩
      else
        let (gap, c) := Gap.readAll margin {} c
        if c.rest.head?.any isSpace then .error (.lexical .tabInIndentation start c.line)
        else if !inFlow && c.column < margin then
          .ok ⟨String.ofList text.reverse, gap.crossed, c⟩
        else readFrom inFlow margin start fuel text gap c

def read (inFlow : Bool) (margin : Nat) (c : Cursor) : Except Fault Result :=
  readFrom inFlow margin c.line (c.left + 1) [] {} c

end Kotoba.Yaml.Plain
