import Kotoba.Decimal.Integer
import Kotoba.Text.Quoted

/-! The flags of the command line. -/
namespace Kotoba.Command

structure Options where
  lexer : Bool := false
  parser : Bool := false
  interpreter : Bool := false
  verbose : Bool := false
  config : Bytes := .empty
  /-- A limit on active calls; zero keeps the configured one. -/
  maxDepth : Int := 0
  /-- How many call results to remember; a negative number keeps the configured one. -/
  cacheSize : Int := -1

namespace Flags

inductive Flag where
  | switch (set : Bool → Options → Options)
  | text (set : Bytes → Options → Options)
  | number (set : Int → Options → Options)

def table : List (String × Flag) := [
  ("l", .switch fun b o => { o with lexer := b }),
  ("lexer", .switch fun b o => { o with lexer := b }),
  ("p", .switch fun b o => { o with parser := b }),
  ("parser", .switch fun b o => { o with parser := b }),
  ("i", .switch fun b o => { o with interpreter := b }),
  ("interpreter", .switch fun b o => { o with interpreter := b }),
  ("v", .switch fun b o => { o with verbose := b }),
  ("config", .text fun s o => { o with config := s }),
  ("max-depth", .number fun n o => { o with maxDepth := n }),
  ("cache-size", .number fun n o => { o with cacheSize := n })]

def find? (name : Bytes) : Option Flag :=
  (table.find? fun (n, _) => name == Bytes.ofString n).map Prod.snd

inductive Problem where
  | help
  | malformed (argument : Bytes)
  | undefined (name : Bytes)
  | missingValue (name : Bytes)
  | notNumber (name value : Bytes) (problem : Decimal.Integer.Problem)
  | notBool (name value : Bytes)

def Problem.message? : Problem → Option Bytes
  | help => none
  | malformed argument => some ("bad flag syntax: " ++ argument)
  | undefined name => some ("flag provided but not defined: -" ++ name)
  | missingValue name => some ("flag needs an argument: -" ++ name)
  | notNumber name value problem =>
    let reason : Bytes := match problem with
      | .malformed => "parse error"
      | .outOfRange => "value out of range"
    some ("invalid value " ++ Text.quote value ++ " for flag -" ++ name ++ ": " ++ reason)
  | notBool name value =>
    some ("invalid boolean value " ++ Text.quote value ++ " for -" ++ name ++ ": parse error")

/-- An argument ends the flags, or is one with a name and perhaps a value after an equals sign. -/
inductive Form where
  | operand
  | terminator
  | malformed
  | flag (name : Bytes) (value : Option Bytes)

/-- Splits at the first equals sign, which cannot be the first character. -/
def splitValue (text : Bytes) : Bytes × Option Bytes :=
  match text.indexOf? 0x3d 1 with
  | some i => (text.take i, some (text.drop (i + 1)))
  | none => (text, none)

def form (argument : Bytes) : Form :=
  match argument.toList with
  | 0x2d :: 0x2d :: [] => .terminator
  | 0x2d :: second :: _ =>
    let text := argument.drop (if second = 0x2d then 2 else 1)
    let first := text.data[0]?
    if first = some 0x2d ∨ first = some 0x3d then .malformed
    else
      let (name, value) := splitValue text
      .flag name value
  | _ => .operand

def bool? (value : Bytes) : Option Bool :=
  if ["1", "t", "T", "true", "TRUE", "True"].any fun s => value == Bytes.ofString s then some true
  else if ["0", "f", "F", "false", "FALSE", "False"].any fun s => value == Bytes.ofString s then
    some false
  else none

def take (flag : Flag) (name value : Bytes) (o : Options) : Except Problem Options :=
  match flag with
  | .switch set =>
    match bool? value with
    | some b => .ok (set b o)
    | none => .error (.notBool name value)
  | .text set => .ok (set value o)
  | .number set =>
    match Decimal.Integer.parse value.shown with
    | .ok n => .ok (set n o)
    | .error problem => .error (.notNumber name value problem)

/-- Reads flags up to the first argument that is none; the other arguments are left. -/
def parse : List Bytes → Options → Except Problem (Options × List Bytes)
  | [], o => .ok (o, [])
  | argument :: rest, o =>
    match form argument with
    | .operand => .ok (o, argument :: rest)
    | .terminator => .ok (o, rest)
    | .malformed => .error (.malformed argument)
    | .flag name value =>
      match find? name, value, rest with
      | none, _, _ =>
        if name == Bytes.ofString "help" || name == Bytes.ofString "h" then .error .help
        else .error (.undefined name)
      | some flag, some value, rest => do parse rest (← take flag name value o)
      | some (.switch set), none, rest => parse rest (set true o)
      | some _, none, [] => .error (.missingValue name)
      | some flag, none, value :: rest => do parse rest (← take flag name value o)
termination_by structural arguments => arguments

def usage (name : String) : Bytes :=
  "Usage of " ++ name ++ ":\n" ++
  "  -cache-size int\n" ++
  "    \tcall cache capacity, 0 disables (default from config) (default -1)\n" ++
  "  -config string\n" ++
  "    \tpath to nyaa.yml (default: search upwards from the program)\n" ++
  "  -i\tlog interpreter calls\n" ++
  "  -interpreter\n" ++
  "    \tlog interpreter calls\n" ++
  "  -l\tlog every token\n" ++
  "  -lexer\n" ++
  "    \tlog every token\n" ++
  "  -max-depth int\n" ++
  "    \tmaximum call depth (default from config)\n" ++
  "  -p\tlog parser productions\n" ++
  "  -parser\n" ++
  "    \tlog parser productions\n" ++
  "  -v\tverbose logging\n"

end Flags

end Kotoba.Command
