import Kotoba.Command.Flags
import Kotoba.Command.Repl
import Kotoba.Config.Search
import Kotoba.Script

/-! The command line: what its arguments do to the disk and the streams. -/
namespace Kotoba.Command

/-- What a command works on. Errors and log are kept newest first. -/
structure Terminal where
  disk : Disk
  input : Console.Input := {}
  output : Console.Output := {}
  errors : List Bytes := []
  log : List Log.Line := []
  verbose : Bool := false

namespace Terminal

def errorText (t : Terminal) : Bytes := Bytes.join .empty t.errors.reverse

def say (t : Terminal) (text : Bytes) : Terminal :=
  match t.output.write text with
  | .ok output => { t with output }
  | .error _ => t

def complain (t : Terminal) (text : Bytes) : Terminal := { t with errors := text :: t.errors }

def note (t : Terminal) (lines : List Log.Line) : Terminal :=
  { t with log := lines.reverse ++ t.log }

def beVerbose (t : Terminal) : Terminal :=
  { t with verbose := true }.note (Log.infos ["Log level is now 1 Verbose (was 2 Info)"])

def world (t : Terminal) : Script.World := { disk := t.disk, input := t.input, output := t.output }

def after (t : Terminal) (m : Machine) : Terminal :=
  { t with disk := m.disk, input := m.input, output := m.output, log := m.log ++ t.log }

end Terminal

def version : Bytes := "nyaa 0.1.0-dev\n"

def usage : Bytes :=
  "Usage:\n" ++
  "  nyaa [flags] <file.ny>\n" ++
  "  nyaa run [flags] <file.ny>\n" ++
  "  nyaa repl [flags]\n" ++
  "  nyaa tokens [flags] <file.ny>\n" ++
  "  nyaa ast [flags] <file.ny>\n" ++
  "  nyaa version\n" ++
  "\n" ++
  "Flags:\n" ++
  "  -l, -lexer          log every token\n" ++
  "  -p, -parser         log parser productions\n" ++
  "  -i, -interpreter    log interpreter calls\n" ++
  "  -v                  verbose logging\n" ++
  "  -config <path>      use this nyaa.yml\n" ++
  "  -max-depth <n>      maximum call depth\n" ++
  "  -cache-size <n>     call cache capacity (0 disables)\n"

def Options.apply (o : Options) (c : Config) : Config :=
  { c with
    maxCallDepth := if 0 < o.maxDepth then o.maxDepth else c.maxCallDepth
    callCacheSize := if 0 ≤ o.cacheSize then o.cacheSize else c.callCacheSize
    verboseLexer := c.verboseLexer || o.lexer
    verboseParser := c.verboseParser || o.parser
    verboseInterpreter := c.verboseInterpreter || o.interpreter }

def configure (o : Options) (source : Bytes) (t : Terminal) :
    Except Config.Error Config × Terminal :=
  let found :=
    if o.config.isEmpty then Config.governing t.disk source else Config.load t.disk o.config
  match found with
  | .error e => (.error e, t)
  | .ok c =>
    let c := o.apply c
    let t := if o.verbose || c.isVerbose then t.beVerbose else t
    let t := if c.path.isEmpty then t
      else t.note (Script.remark t.verbose ("using config " ++ c.path))
    (c.validate, t)

def complainFlags (name : String) (p : Flags.Problem) (t : Terminal) : Terminal :=
  match p.message? with
  | some message => t.complain (message ++ "\n" ++ Flags.usage name)
  | none => t.complain (Flags.usage name)

def complainConfig (e : Config.Error) (t : Terminal) : Terminal :=
  t.complain ("failed to load config: " ++ e.message ++ "\n")

/-- Runs `action` on the one program that the arguments of the subcommand `name` mention. -/
def onProgram (name : String) (arguments : List Bytes)
    (action : Bytes → Config → Terminal → Nat × Terminal) (t : Terminal) : Nat × Terminal :=
  match Flags.parse arguments {} with
  | .error .help => (0, complainFlags name .help t)
  | .error p => (2, complainFlags name p t)
  | .ok (o, [path]) =>
    match configure o path t with
    | (.error e, t) => (1, complainConfig e t)
    | (.ok c, t) => action path c t
  | .ok _ =>
    (1, t.complain (Bytes.ofString ("nyaa " ++ name ++ " requires exactly one source file\n") ++
      usage))

def runProgram (rounds : Nat) (path : Bytes) (c : Config) (t : Terminal) : Nat × Terminal :=
  match Script.run rounds t.world path c t.verbose with
  | (.ok _, m) => (0, t.after m)
  | (.error e, m) => (1, (t.after m).complain (e.describe m.disk path ++ "\n"))

/-- Shows the tokens of a program, those before a fault too. -/
def showTokens (path : Bytes) (c : Config) (t : Terminal) : Nat × Terminal :=
  match t.disk.readFile path with
  | .error failure => (1, t.complain ("read " ++ path ++ ": " ++ failure.text ++ "\n"))
  | .ok source =>
    let scan := Token.tokenize c.limits source
    let lines := if c.verboseLexer then scan.all.map fun token => (Syntax.Event.scanned token).line
      else []
    let shown := scan.all.map fun token =>
      Bytes.ofString (token.span.text ++ "\t") ++ token.text ++ "\n"
    let t := (t.note (Log.infos lines)).say (Bytes.join .empty shown)
    match scan.ending with
    | .ok _ => (0, t)
    | .error fault =>
      let e := Script.Error.diagnostic fault.diagnostic
      (1, t.complain (e.describe t.disk path ++ "\n"))

def showTree (path : Bytes) (c : Config) (t : Terminal) : Nat × Terminal :=
  match Script.parse t.disk path c t.verbose with
  | (.error e, log) => (1, (t.note log).complain (e.describe t.disk path ++ "\n"))
  | (.ok p, log) =>
    match p.document.json?, p.document.unwritable? with
    | some text, _ => (0, (t.note log).say (Bytes.ofString (text ++ "\n")))
    | none, reason =>
      (1, (t.note log).complain (Bytes.ofString ("encode ast: " ++ reason.getD "" ++ "\n")))

def runRepl (rounds : Nat) (arguments : List Bytes) (t : Terminal) : Nat × Terminal :=
  match Flags.parse arguments {} with
  | .error p => (2, complainFlags "repl" p t)
  | .ok (o, []) =>
    match configure o "." t with
    | (.error e, t) => (1, complainConfig e t)
    | (.ok c, t) =>
      let machine : Machine :=
        { settings := c.settings t.verbose, disk := t.disk, input := t.input, output := t.output }
      let s := Repl.run rounds ⟨c.limits, c.verboseLexer⟩ machine
      (0, { t.after s.machine with errors := s.errors ++ t.errors })
  | .ok (_, rest) =>
    (1, t.complain ("unexpected arguments: " ++ Bytes.join " " rest ++ "\n"))

/-- A first argument that names no subcommand belongs to a program to run. -/
def run (rounds : Nat) (arguments : List Bytes) (t : Terminal) : Nat × Terminal :=
  match arguments with
  | [] => (1, t.complain usage)
  | first :: rest =>
    let is (words : List String) : Bool := words.any fun w => first == Bytes.ofString w
    if is ["--help", "-h", "help"] then (0, t.complain usage)
    else if is ["--version", "-V", "version"] then (0, t.say version)
    else if is ["run"] then onProgram "run" rest (runProgram rounds) t
    else if is ["repl"] then runRepl rounds rest t
    else if is ["tokens"] then onProgram "tokens" rest showTokens t
    else if is ["ast"] then onProgram "ast" rest showTree t
    else onProgram "run" arguments (runProgram rounds) t

end Kotoba.Command
