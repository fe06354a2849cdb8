import Kotoba.Machine.Interpret
import Kotoba.Syntax.Statement

/-! Sessions: texts that are parsed and interpreted one after the other on one machine. -/
namespace Kotoba.Session

/-- How texts are read: the limits on tokens, and whether tokens and productions are logged. -/
structure Reading where
  limits : Token.Limits
  logged : Bool := false

inductive Answer where
  | unparsed (d : Diagnostic)
  | failed (d : Diagnostic)
  | value (v : Value)
  /-- A loop took more rounds than were allowed for. -/
  | endless

def noteParse (r : Reading) (parse : Syntax.State) (m : Machine) : Machine :=
  { m with log := (Log.infos (parse.log r.logged r.logged)).reverse ++ m.log }

/-- Interprets a tree; without a tree there is nothing to do. -/
def interpret (rounds : Nat) (node : Option Node) (m : Machine) : Answer × Machine :=
  match node with
  | none => (.value .nothing, m)
  | some node =>
    match Machine.interpret rounds node m with
    | .ok v m => (.value v, m)
    | .error failure m => (.failed failure.diagnostic, m)
    | .exhausted => (.endless, m)

/-- A text that cannot be parsed leaves the machine as it is, but for the log. -/
def run (rounds : Nat) (r : Reading)
    (parse : Token.Limits → Bytes → Outcome Syntax.State Diagnostic (Option Node)) (text : Bytes)
    (m : Machine) : Answer × Machine :=
  match parse r.limits text with
  | .ok node s => interpret rounds node (noteParse r s m)
  | .error d s => (.unparsed d, noteParse r s m)
  | .exhausted => (.endless, m)

def enter (rounds : Nat) (r : Reading) (entry : Bytes) (m : Machine) : Answer × Machine :=
  run rounds r Syntax.parseEntry entry m

def parseWhole (limits : Token.Limits) (text : Bytes) :
    Outcome Syntax.State Diagnostic (Option Node) :=
  match Syntax.parseProgram limits text with
  | .ok p s => .ok (some (.program p)) s
  | .error d s => .error d s
  | .exhausted => .exhausted

def execute (rounds : Nat) (r : Reading) (program : Bytes) (m : Machine) : Answer × Machine :=
  run rounds r parseWhole program m

end Kotoba.Session
