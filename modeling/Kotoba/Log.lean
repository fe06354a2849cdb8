import Kotoba.Text.Bytes

/-! The log: what the program says about its own work. -/
namespace Kotoba.Log

inductive Level where
  | verbose
  | info
deriving DecidableEq, Repr

structure Line where
  level : Level
  message : Bytes

/-- The line with the mark of its level in front. -/
def Line.text (l : Line) : Bytes :=
  match l.level with
  | .verbose => "[V] " ++ l.message
  | .info => "[I] " ++ l.message

def infos (messages : List Bytes) : List Line := messages.map (Line.mk .info)

end Kotoba.Log
