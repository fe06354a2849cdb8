import Kotoba.Diagnostic.Report
import Kotoba.Session

/-! The interactive mode: entries are read line by line, evaluated, and their values shown. -/
namespace Kotoba.Command.Repl

open Kotoba.Session (Reading)

def exitWord : Bytes := "jaa ne"

/-- A machine in interactive mode, and what was reported on the error stream, newest first. -/
structure State where
  machine : Machine
  errors : List Bytes := []

namespace State

def say (s : State) (text : Bytes) : State :=
  match s.machine.output.write text with
  | .ok output => { s with machine := { s.machine with output } }
  | .error _ => s

def complain (s : State) (d : Diagnostic) (entry : Bytes) : State :=
  let text := ((Report.diagnostic d).render .empty entry).trimRight (· == 0x0a)
  { s with errors := (text ++ "\n") :: s.errors }

def noteParse (s : State) (r : Reading) (parse : Syntax.State) : State :=
  { s with machine := Session.noteParse r parse s.machine }

/-- Takes a line of the input: none at the end, or if the input fails. -/
def takeLine (s : State) : Option Bytes × State :=
  let (line, input) := s.machine.input.takeLine
  let s := { s with machine := { s.machine with input } }
  match line with
  | .error _ => (none, s)
  | .ok line =>
    if line.isEmpty then (none, s)
    else (some (line.trimRight fun b => b == 0x0a || b == 0x0d), s)

def inputFailed (s : State) : Bool := s.machine.input.failure.isSome

end State

/-- Reads an entry that starts with the lines `typed`: line by line, until what was typed is more
than the beginning of something. There is none if the input ends before it starts, or fails. At
most `fuel` lines are read. -/
def readEntry (r : Reading) : (fuel : Nat) → (typed : Bytes) → State → Option Bytes × State
  | 0, _, s => (none, s)
  | fuel + 1, typed, s =>
    match (s.say (if typed.isEmpty then "nyaa> " else "  ... ")).takeLine with
    | (none, s) => (if typed.isEmpty || s.inputFailed then none else some typed, s)
    | (some line, s) =>
      let typed := if typed.isEmpty then line else typed ++ "\n" ++ line
      if typed.trimBlank == exitWord then (some typed, s)
      else match Syntax.parseEntry r.limits typed with
        | .ok _ parse => (some typed, s.noteParse r parse)
        | .error d parse =>
          if d.isIncomplete then readEntry r fuel typed (s.noteParse r parse)
          else (some typed, s.noteParse r parse)
        | .exhausted => (some typed, s)

def evalEntry (rounds : Nat) (r : Reading) (entry : Bytes) (s : State) : State :=
  match Session.enter rounds r entry s.machine with
  | (.unparsed d, machine) | (.failed d, machine) => State.complain { s with machine } d entry
  | (.value .nothing, machine) | (.endless, machine) => { s with machine }
  | (.value v, machine) => State.say { s with machine } (machine.store.format v ++ "\n")

def loop (rounds : Nat) (r : Reading) : (fuel : Nat) → State → State
  | 0, s => s
  | fuel + 1, s =>
    match readEntry r (s.machine.input.pending.size + 1) .empty s with
    | (none, s) => s.say "\n"
    | (some entry, s) =>
      let word := entry.trimBlank
      if word.isEmpty then loop rounds r fuel s
      else if word == exitWord then s
      else loop rounds r fuel (evalEntry rounds r entry s)

/-- Runs the interactive mode on a machine. Every entry but the last takes at least a byte. -/
def run (rounds : Nat) (r : Reading) (machine : Machine) : State :=
  loop rounds r (machine.input.pending.size + 1) { machine }

end Kotoba.Command.Repl
