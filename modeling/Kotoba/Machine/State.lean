import Kotoba.Console
import Kotoba.Log
import Kotoba.Machine.Fault
import Kotoba.Machine.Recall
import Kotoba.Step

/-! The state an evaluation works on, and the steps it is made of. -/
namespace Kotoba

namespace Machine

structure Settings where
  maxDepth : Nat := 1000
  recallSize : Nat := 1000
  traced : Bool := false
  verbose : Bool := false

/-- Settings in which a depth that is not positive stands for the usual one. -/
def Settings.ofLimits (maxDepth recallSize : Int) (traced verbose : Bool) : Settings where
  maxDepth := if maxDepth ≤ 0 then 1000 else maxDepth.toNat
  recallSize := recallSize.toNat
  traced := traced
  verbose := verbose

structure Frame where
  name : String
  span : Span

/-- What a statement may ask of those that follow it. -/
inductive Jump where
  | breaking
  | continuing
  | returning (v : Value)

/-- The jumps that are pending. Each flag is raised and lowered on its own, and the value of a
return outlives the flag until it is cleared. -/
structure Flags where
  breaking : Bool := false
  continuing : Bool := false
  returning : Bool := false
  returnValue : Value := .nothing

namespace Flags

def raise (f : Flags) : Jump → Flags
  | .breaking => { f with breaking := true }
  | .continuing => { f with continuing := true }
  | .returning v => { f with returning := true, returnValue := v }

def isRaised (f : Flags) : Bool := f.breaking || f.continuing || f.returning

/-- The value a call ends with: null unless one is returned. -/
def result (f : Flags) : Value :=
  if f.returning then
    match f.returnValue with
    | .nothing => .null
    | v => v
  else .null

/-- The end of a round of a loop: whether the loop ends with it, and what is still pending. A break
is dealt with first, and leaves a continuation pending. -/
def endRound (f : Flags) : Bool × Flags :=
  if f.breaking then (true, { f with breaking := false })
  else (f.returning, { f with continuing := false })

end Flags

end Machine

/-- A machine: its scopes and calls, what it remembers, and the world it reads and writes. -/
structure Machine where
  settings : Machine.Settings := {}
  arena : Arena := {}
  scope : Int := Arena.global
  frames : Array Machine.Frame := #[]
  flags : Machine.Flags := {}
  memory : Recall := { capacity := settings.recallSize }
  hits : Nat := 0
  misses : Nat := 0
  store : Store := {}
  disk : Disk := {}
  input : Console.Input := {}
  output : Console.Output := {}
  /-- The log, newest line first. -/
  log : List Log.Line := []

namespace Machine

def reset (m : Machine) : Machine :=
  { m with flags := {}, frames := #[], arena := m.arena.reset, scope := Arena.global }

abbrev Eval (α : Type) : Type := Step Machine Failure α

namespace Eval

def fault {α : Type} (fault : Fault) (span : Span) : Eval α := Step.fail ⟨fault, span⟩

def ofExcept {α : Type} (span : Span) : Except Fault α → Eval α
  | .ok a => pure a
  | .error f => fault f span

def define (name : String) (v : Value) : Eval Unit :=
  Step.modify fun m => { m with arena := m.arena.define m.scope name v }

def resolve (name : Ident) : Eval Value := do
  let m ← Step.get
  ofExcept name.span ((m.arena.lookup m.scope name.name).mapError .lookup)

/-- A result as a value: a name that is left is looked up, and none at all is null. -/
def settle (v : Value) (span : Span) : Eval Value :=
  match v with
  | .reference name => resolve ⟨name, span⟩
  | .nothing => pure .null
  | v => pure v

def describe (v : Value) : Eval Bytes := Step.gets fun m => m.store.describe v

def truthy (v : Value) : Eval Bool := Step.gets fun m => m.store.truthy v

def alloc (elements : Array Value) : Eval Value :=
  Step.modifyGet fun m =>
    let (v, store) := m.store.alloc elements
    (v, { m with store })

def trace (message : Bytes) : Eval Unit :=
  Step.modify fun m =>
    if m.settings.traced then { m with log := ⟨.info, "interpreter: " ++ message⟩ :: m.log } else m

def remark (message : Bytes) : Eval Unit :=
  Step.modify fun m =>
    if m.settings.verbose then { m with log := ⟨.verbose, message⟩ :: m.log } else m

def print (data : Bytes) (span : Span) : Eval Unit := do
  let m ← Step.get
  match m.output.write data with
  | .ok output => Step.modify fun m => { m with output }
  | .error cause => fault (.output cause) span

def readInput (span : Span) : Eval Bytes := do
  let m ← Step.get
  let (line, input) := m.input.readLine
  Step.modify fun m => { m with input }
  ofExcept span (line.mapError .input)

structure FileName where
  name : Ident
  index : Nat

def resolveFile (name : Ident) : Eval FileName := do
  let v ← resolve name
  match v with
  | .file index => pure ⟨name, index⟩
  | _ => fault (.notFile name.name (← describe v)) name.span

def handle (file : FileName) : Eval File.Handle := do
  match (← Step.gets fun m => m.store.files[file.index]?) with
  | some h => pure h
  | none => fault (.notFile file.name.name (← describe (.file file.index))) file.name.span

def putHandle (file : FileName) (h : File.Handle) : Eval Unit :=
  Step.modify fun m =>
    { m with store := { m.store with files := m.store.files.setIfInBounds file.index h } }

def readFile {α : Type} (file : FileName) (span : Span)
    (take : Disk → File.Handle → Except File.Fault α × File.Handle) : Eval α := do
  let (result, h) := take (← Step.gets (·.disk)) (← handle file)
  putHandle file h
  ofExcept span (result.mapError .file)

def writeFile (file : FileName) (span : Span)
    (put : Disk → File.Handle → Except File.Fault Unit × File.Handle × Disk) : Eval Unit := do
  let (result, h, disk) := put (← Step.gets (·.disk)) (← handle file)
  putHandle file h
  Step.modify fun m => { m with disk }
  ofExcept span (result.mapError .file)

def openFile (target : Ident) (path mode : Bytes) (span : Span) : Eval Unit := do
  match File.Handle.openAt (← Step.gets (·.disk)) path mode with
  | .error f => fault (.file f) span
  | .ok (h, disk) =>
    trace ("open " ++ path ++ " mode=" ++ mode ++ " as " ++ Bytes.ofString target.name)
    let v ← Step.modifyGet fun m =>
      let (v, store) := m.store.adopt h
      (v, { m with store, disk })
    define target.name v

end Eval

end Machine

end Kotoba
