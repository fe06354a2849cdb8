import Kotoba.File.Path
import Kotoba.Machine.State
import Kotoba.Token.Scan

/-! Configurations: the limits a program runs under, and what is logged about it. -/
namespace Kotoba

structure Config where
  /-- The file the configuration was read from; empty if it was not read. -/
  path : Bytes := .empty
  maxCallDepth : Int := 1000
  /-- How many call results are remembered; zero means none. -/
  callCacheSize : Int := 1000
  maxIdentifierLength : Int := 64
  maxStringLength : Int := 4096
  verboseLexer : Bool := false
  verboseParser : Bool := false
  verboseInterpreter : Bool := false

namespace Config

def fileName : Bytes := "nyaa.yml"

def isVerbose (c : Config) : Bool := c.verboseLexer || c.verboseParser || c.verboseInterpreter

def limits (c : Config) : Token.Limits := .ofSettings c.maxIdentifierLength c.maxStringLength

/-- The settings of a machine; `verbose` tells whether the log takes lines of that level. -/
def settings (c : Config) (verbose : Bool) : Machine.Settings :=
  .ofLimits c.maxCallDepth c.callCacheSize c.verboseInterpreter verbose

def issues (c : Config) : List Bytes :=
  (if c.maxCallDepth ≤ 0 then
    [Bytes.ofString s!"interpreter.max_call_depth must be positive (got {c.maxCallDepth})"]
    else []) ++
  (if c.callCacheSize < 0 then
    [Bytes.ofString s!"interpreter.call_cache_size must not be negative (got {c.callCacheSize})"]
    else []) ++
  (if c.maxIdentifierLength ≤ 0 then
    [Bytes.ofString s!"lexer.max_identifier_length must be positive (got {c.maxIdentifierLength})"]
    else []) ++
  (if c.maxStringLength ≤ 0 then
    [Bytes.ofString s!"lexer.max_string_length must be positive (got {c.maxStringLength})"]
    else [])

inductive Error where
  | emptyPath
  | unopened (path : Bytes) (failure : Disk.Failure)
  | unreadable (path : Bytes) (failure : Disk.Failure)
  | malformed (path : Bytes) (reason : Bytes)
  | invalid (issues : List Bytes)
  | notFound (start : Bytes)
  | unsearched (failure : Disk.Failure)

namespace Error

def message : Error → Bytes
  | emptyPath => "config: empty path"
  | unopened path failure => "config: open " ++ path ++ ": " ++ failure.text
  | unreadable path failure =>
    "config: parse " ++ path ++ ": yaml: input error: " ++ failure.text
  | malformed path reason => "config: parse " ++ path ++ ": " ++ reason
  | invalid [] => "config: invalid configuration"
  | invalid issues =>
    issues.foldl (fun acc issue => acc ++ "\n- " ++ issue) "config validation failed:"
  | notFound start =>
    "no " ++ fileName ++ " found from " ++ start ++ " upwards: config file not found"
  | unsearched failure => failure.text

def isMissing : Error → Bool
  | unopened _ failure | unreadable _ failure | unsearched failure => failure.refusal == .missing
  | _ => false

end Error

def validate (c : Config) : Except Error Config :=
  if c.issues.isEmpty then .ok c else .error (.invalid c.issues)

end Config

end Kotoba
