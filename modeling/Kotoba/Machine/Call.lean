import Kotoba.Machine.State

/-! Calls. A function runs in a scope of its own above the global one. The results of calls are
remembered by the content of that scope, so a call with the same arguments need not run again. -/
namespace Kotoba.Machine

/-- How the body of a called function runs. -/
abbrev Run : Type := Option Body → Eval Unit

def callable (callee : Ident) (given : Nat) (span : Span) : Eval Function := do
  let m ← Step.get
  let f ← Eval.ofExcept callee.span ((m.arena.function m.scope callee.name).mapError .lookup)
  if m.settings.maxDepth ≤ m.frames.size then do
    Step.modify fun m => { m with frames := #[] }
    Eval.fault (.callDepth m.settings.maxDepth f.name) span
  else if given ≠ f.params.length then
    Eval.fault (.arity f.name f.params.length given) span
  else pure f

def enter (f : Function) (span : Span) : Eval Int :=
  Step.modifyGet fun m =>
    let (scope, arena) := m.arena.push f.name Arena.global
    (scope, { m with arena, frames := m.frames.push ⟨f.name, span⟩ })

def leave (scope : Int) : Eval Unit :=
  Step.modify fun m => { m with arena := m.arena.pop scope, frames := m.frames.pop }

def bindParams (function : String) (scope : Int) (span : Span) : List (String × Value) → Eval Unit
  | [] => pure ()
  | (name, v) :: rest => do
    if (← Step.gets fun m => m.arena.localSymbol? scope name).isSome then
      Eval.fault (.duplicateParameter name function) span
    else
      Step.modify fun m => { m with arena := m.arena.define scope name v }
      bindParams function scope span rest

/-- Looks for the result of an earlier call and counts the attempt. -/
def recalled? (key : Digest) : Eval (Option Value) :=
  Step.modifyGet fun m =>
    match m.memory.get? key with
    | some (v, memory) => (some v, { m with memory, hits := m.hits + 1 })
    | none => (none, if m.memory.isEnabled then { m with misses := m.misses + 1 } else m)

def remember (key : Digest) (v : Value) : Eval Unit :=
  Step.modify fun m => { m with memory := m.memory.add key v }

/-- Runs a body in the scope of a call and gives the value it returns, null if it returns none. A
break or a continuation of the caller waits until the body has ended; a return of the body is taken
up by its value. -/
def runIn (run : Run) (scope : Int) (body : Option Body) : Eval Value := do
  let caller ← Step.gets (·.scope)
  let breaking ← Step.gets (·.flags.breaking)
  let continuing ← Step.gets (·.flags.continuing)
  Step.modify fun m =>
    { m with scope, flags := { m.flags with breaking := false, continuing := false } }
  run body
  let result ← Step.gets (·.flags.result)
  Step.modify fun m =>
    { m with scope := caller
             flags := { breaking, continuing, returning := false, returnValue := .nothing } }
  pure result

def call (run : Run) (f : Function) (arguments : List Value) (span : Span) : Eval Value := do
  let scope ← enter f span
  bindParams f.name scope span (f.params.zip arguments)
  let key ← Step.gets fun m => m.arena.digest m.store scope
  let depth ← Step.gets fun m => m.frames.size
  match (← recalled? key) with
  | some v =>
    Eval.remark (Bytes.ofString s!"call cache hit for {f.name} (depth {depth})")
    leave scope
    pure v
  | none =>
    Eval.trace (Bytes.ofString s!"call {f.name} depth={depth}")
    let v ← runIn run scope f.body
    leave scope
    remember key v
    pure v

end Kotoba.Machine
