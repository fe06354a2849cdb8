import Kotoba.Machine.Expression

/-! Execution of statements. -/
namespace Kotoba.Machine

/-- How the bodies of called functions run, and how many rounds a conditional loop may take. -/
structure Context where
  run : Run
  rounds : Nat

def signal (jump : Jump) : Eval Unit :=
  Step.modify fun m => { m with flags := m.flags.raise jump }

/-- Ends a round of a loop and tells whether the loop ends with it. -/
def endRound : Eval Bool :=
  Step.modifyGet fun m => (m.flags.endRound.1, { m with flags := m.flags.endRound.2 })

def whileLoop (condition : Eval Bool) (body : Eval Unit) : (rounds : Nat) → Eval Unit
  | 0 => Step.exhausted
  | rounds + 1 => do
    if (← condition) then do
      body
      if (← endRound) then pure () else whileLoop condition body rounds
    else pure ()

/-- Runs `body` with the counter at `n` and, unless a jump ends the loop or the counter was at
`last`, again with the counter one step on; at most `rounds` times. -/
def rangeLoop (counter : String) (step last : Int64) (body : Eval Unit) :
    (rounds : Nat) → Int64 → Eval Unit
  | 0, _ => Step.exhausted
  | rounds + 1, n => do
    Eval.define counter (.int n)
    body
    let ended ← endRound
    if ended || n == last then pure ()
    else rangeLoop counter step last body rounds (n + step)

/-- Runs `body` with the counter at every integer from `first` to `last`, in either direction. There
is one more of them than `last` is away from `first`. -/
def fullRange (counter : String) (first last : Int64) (body : Eval Unit) : Eval Unit :=
  rangeLoop counter (if last < first then -1 else 1) last body
    ((last.toInt - first.toInt).natAbs + 1) first

def rangeBound (v : Value) (span : Span) : Eval Int64 :=
  match v with
  | .int n => pure n
  | _ => Eval.fault (.rangeBound v.kind) span

def textOf (role : String) (v : Value) (span : Span) : Eval Bytes := do
  match v with
  | .string text => pure text
  | _ => Eval.fault (.notString role (← Eval.describe v)) span

def sizedArray (v : Value) (span : Span) : Eval Value := do
  match v with
  | .int n =>
    if n < 0 then Eval.fault (.arraySize (← Eval.describe v)) span
    else if maxAllocation < n.toNatClampNeg then Eval.fault (.largeArray n) span
    else Eval.alloc (Array.replicate n.toNatClampNeg .null)
  | _ => Eval.fault (.arraySize (← Eval.describe v)) span

def setSlot (array slot : Nat) (v : Value) : Eval Unit :=
  Step.modify fun m => { m with store := m.store.update array slot v }

/-- Remembered results may be those of a function that is replaced, so they are forgotten. -/
def defineFunction (f : FuncDef) : Eval Unit := do
  Eval.trace (Bytes.ofString s!"define {f.name.name}/{f.params.length}")
  Eval.define f.name.name (.function (.ofDef f))
  Step.modify fun m => { m with memory := m.memory.clear }

def holds (c : Context) (condition : Expr) : Eval Bool := do
  Eval.truthy (← evalExpr c.run condition)

def printed (c : Context) (arguments : List Expr) : Eval Bytes := do
  let parts ← arguments.mapM fun e => do
    let v ← evalExpr c.run e
    Step.gets fun m => m.store.format v
  pure (Bytes.join " " parts)

/-- Executes a statement that holds no other statement. -/
def execSimple (c : Context) : Stmt → Eval Unit
  | .giveBack value _ => do
    match value with
    | some value => signal (.returning (← evalExpr c.run value))
    | none => signal (.returning .null)
  | .leave _ => signal .breaking
  | .proceed _ => signal .continuing
  | .assign target value _ => do Eval.define target.name (← evalExpr c.run value)
  | .advance target op span => do
    let v ← Eval.resolve target
    Eval.define target.name (← applied (fun store v => advanced store op.op v) v span)
  | .print arguments newline span => do
    let text ← printed c arguments
    Eval.print (if newline then text ++ "\n" else text) span
  | .openFile target path mode span => do
    let pathText ← textOf "file path" (← evalExpr c.run path) path.span
    let modeText ← textOf "file mode" (← evalExpr c.run mode) mode.span
    Eval.openFile target pathText modeText span
  | .closeFile file span => do
    Eval.writeFile (← Eval.resolveFile file) span fun disk h => h.close disk
  | .write file value newline span => do
    let file ← Eval.resolveFile file
    let v ← evalExpr c.run value
    let text ← Step.gets fun m => m.store.format v
    Eval.writeFile file span fun disk h => h.write disk (if newline then text ++ "\n" else text)
  | .allocate target size _ => do
    let v ← evalExpr c.run size
    Eval.define target.name (← sizedArray v size.span)
  | .collect target elements _ => do
    let vs ← evalAll c.run elements
    Eval.define target.name (← Eval.alloc vs.toArray)
  | .update array index slot value _ => do
    let (a, i) ← slotOf array (evalExpr c.run index) index.span slot
    setSlot a i (← evalExpr c.run value)
  | .split target source separator _ => do
    let text ← textOf "split source" (← evalExpr c.run source) source.span
    let mark ← textOf "split separator" (← evalExpr c.run separator) separator.span
    let parts := (splitText text mark).map Value.string
    Eval.define target.name (← Eval.alloc parts.toArray)
  | .expr value => discard (eval c.run value)
  | .when .. | .loop .. | .range .. => pure ()

mutual

def execStmt (c : Context) : Stmt → Eval Unit
  | .when condition body others otherwise _ => do
    if (← holds c condition) then
      match body with
      | some body => execBody c body
      | none => pure ()
    else
      execOthers c others (match otherwise with
        | some branch => execOtherwise c branch
        | none => pure ())
  | .loop condition body _ =>
    whileLoop (holds c condition) (match body with
      | some body => execBody c body
      | none => pure ()) c.rounds
  | .range counter first last body _ => do
    let start ← rangeBound (← evalExpr c.run first) first.span
    let stop ← rangeBound (← evalExpr c.run last) last.span
    fullRange counter.name start stop (match body with
      | some body => execBody c body
      | none => pure ())
  | s => execSimple c s
termination_by structural s => s

/-- Executes statements in order until a jump is pending. -/
def execAll (c : Context) : List Stmt → Eval Unit
  | [] => pure ()
  | s :: rest => do
    if (← Step.gets fun m => m.flags.isRaised) then pure ()
    else do
      execStmt c s
      execAll c rest
termination_by structural ss => ss

def execBody (c : Context) : Body → Eval Unit
  | ⟨statements, _⟩ => execAll c statements
termination_by structural b => b

def execOthers (c : Context) : List OrWhen → (otherwise : Eval Unit) → Eval Unit
  | [], otherwise => otherwise
  | ⟨condition, body, _⟩ :: rest, otherwise => do
    if (← holds c condition) then
      match body with
      | some body => execBody c body
      | none => pure ()
    else execOthers c rest otherwise
termination_by structural others => others

def execOtherwise (c : Context) : Otherwise → Eval Unit
  | ⟨body, _⟩ =>
    match body with
    | some body => execBody c body
    | none => pure ()
termination_by structural branch => branch

end

end Kotoba.Machine
