import Kotoba.Config.Basic
import Kotoba.Diagnostic.Report
import Kotoba.Machine.Interpret
import Kotoba.Syntax.Statement

/-! Programs in files. -/
namespace Kotoba.Script

inductive Error where
  | unreadable (path : Bytes) (failure : Disk.Failure)
  | diagnostic (d : Diagnostic)
  /-- A loop took more rounds than were allowed for. -/
  | endless

namespace Error

def report : Error → Report
  | unreadable path failure => .plain ("driver: read " ++ path ++ ": " ++ failure.text)
  | diagnostic d => .diagnostic d
  | endless => .plain "driver: too many rounds in a loop"

def isMissing : Error → Bool
  | unreadable _ failure => failure.refusal == .missing
  | _ => false

/-- The error as a user reads it, with an excerpt of the file at `path` if that can be read. -/
def describe (disk : Disk) (path : Bytes) (e : Error) : Bytes :=
  match disk.readFile path with
  | .ok source => e.report.render path source
  | .error _ => e.report.text

end Error

def remark (verbose : Bool) (message : Bytes) : List Log.Line :=
  if verbose then [⟨.verbose, message⟩] else []

def parse (disk : Disk) (path : Bytes) (config : Config) (verbose : Bool) :
    Except Error Program × List Log.Line :=
  match disk.readFile path with
  | .error failure => (.error (.unreadable path failure), [])
  | .ok source =>
    match Syntax.parseProgram config.limits source with
    | .ok p s =>
      (.ok p, Log.infos (s.log config.verboseLexer config.verboseParser) ++
        remark verbose ("driver: parsed " ++ path ++
          Bytes.ofString s!" ({p.functions.length} function(s))"))
    | .error d s =>
      (.error (.diagnostic d), Log.infos (s.log config.verboseLexer config.verboseParser))
    | .exhausted => (.error .endless, [])

structure World where
  disk : Disk
  input : Console.Input := {}
  output : Console.Output := {}

def run (rounds : Nat) (world : World) (path : Bytes) (config : Config) (verbose : Bool) :
    Except Error Value × Machine :=
  let settings := config.settings verbose
  let fresh : Machine :=
    { settings, disk := world.disk, input := world.input, output := world.output }
  match parse world.disk path config verbose with
  | (.error e, log) => (.error e, { fresh with log := log.reverse })
  | (.ok p, log) =>
    let count (m : Machine) : Machine :=
      if m.hits + m.misses = 0 then m
      else { m with log := remark verbose (Bytes.ofString
        s!"driver: call cache {m.hits} hit(s), {m.misses} miss(es)") ++ m.log }
    match Machine.interpret rounds (.program p) { fresh with log := log.reverse } with
    | .ok v m => (.ok v, count m)
    | .error failure m => (.error (.diagnostic failure.diagnostic), count m)
    | .exhausted => (.error .endless, fresh)

end Kotoba.Script
