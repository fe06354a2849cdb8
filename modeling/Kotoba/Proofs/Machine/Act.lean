import Kotoba.Machine.Interpret

/-! Evaluation over named acts. The order in which a tree is walked is kept apart from the monad
it is walked in, so that one walk can be run, recorded, or compared with another. In the monad of
machines the walk is the evaluation itself. -/
namespace Kotoba.Machine

/-- The rules that make a value from a value and the store. -/
inductive Rule where
  | unary (op : Op)
  | charOf
  | codeOf
  | length
  | advance (op : Op)

def Rule.apply : Rule → Store → Value → Except Fault Value
  | unary op => fun store v => Machine.unary store op v
  | charOf => charOfCode
  | codeOf => codeOfChar
  | length => lengthOf
  | advance op => fun store v => advanced store op v

/-- The single acts of which the evaluation of trees is made, calls apart. -/
inductive Act : Type → Type where
  | resolve (name : Ident) : Act Value
  | apply (rule : Rule) (v : Value) (span : Span) : Act Value
  | combine (op : Op) (left right : Value) (span : Span) : Act Value
  | callable (callee : Ident) (given : Nat) (span : Span) : Act Function
  | print (data : Bytes) (span : Span) : Act Unit
  | readInput (span : Span) : Act Bytes
  /-- The array a name is bound to. -/
  | arrayOf (name : Ident) : Act Nat
  /-- The slot of an array that a value means as an index. -/
  | slotIn (array : Nat) (index : Value) (name : Ident) (indexSpan span : Span) : Act Nat
  | slotValue (array slot : Nat) : Act Value
  | fileOf (name : Ident) : Act Eval.FileName
  | countOf (v : Value) (span : Span) : Act Nat
  | readText (file : Eval.FileName) (count : Option Nat) (span : Span) : Act Bytes
  | readLine (file : Eval.FileName) (span : Span) : Act Bytes
  | atEnd (file : Eval.FileName) (span : Span) : Act Bool
  | signal (jump : Jump) : Act Unit
  | isRaised : Act Bool
  | endRound : Act Bool
  | define (name : String) (v : Value) : Act Unit
  | truthy (v : Value) : Act Bool
  | format (v : Value) : Act Bytes
  | rangeBound (v : Value) (span : Span) : Act Int64
  | textOf (role : String) (v : Value) (span : Span) : Act Bytes
  | openFile (target : Ident) (path mode : Bytes) (span : Span) : Act Unit
  | closeFile (file : Eval.FileName) (span : Span) : Act Unit
  | writeText (file : Eval.FileName) (text : Bytes) (span : Span) : Act Unit
  | sizedArray (v : Value) (span : Span) : Act Value
  | alloc (elements : Array Value) : Act Value
  | setSlot (array slot : Nat) (v : Value) : Act Unit
  | defineFunction (f : FuncDef) : Act Unit
  /-- Gives up for want of rounds. -/
  | exhaust : Act Unit
  /-- Fails on a tree that stands for nothing that can be evaluated. -/
  | refuse (node : Node) : Act Value

namespace Act

def arrayStep (name : Ident) : Eval Nat := do
  let v ← Eval.resolve name
  match v with
  | .array a => pure a
  | _ => Eval.fault (.notArray name.name (← Eval.describe v)) name.span

def slotStep (array : Nat) (index : Value) (name : Ident) (indexSpan span : Span) : Eval Nat := do
  match index with
  | .int n =>
    let size ← Step.gets fun m => (m.store.elements array).size
    if 0 ≤ n ∧ n.toNatClampNeg < size then pure n.toNatClampNeg
    else Eval.fault (.outOfBounds n name.name size) span
  | _ => Eval.fault (.notIndex (← Eval.describe index)) indexSpan

/-- What an act does to a machine. -/
def perform {α : Type} : Act α → Eval α
  | resolve name => Eval.resolve name
  | apply rule v span => applied rule.apply v span
  | combine op left right span => Eval.ofExcept span (binary op left right)
  | callable callee given span => Machine.callable callee given span
  | print data span => Eval.print data span
  | readInput span => Eval.readInput span
  | arrayOf name => arrayStep name
  | slotIn array index name indexSpan span => slotStep array index name indexSpan span
  | slotValue array slot => Machine.slotValue array slot
  | fileOf name => Eval.resolveFile name
  | countOf v span => Machine.countOf v span
  | readText file count span => Eval.readFile file span fun disk h => h.read disk count
  | readLine file span => Eval.readFile file span fun disk h => h.readLine disk
  | atEnd file span => Eval.readFile file span fun disk h => h.atEnd disk
  | signal jump => Machine.signal jump
  | isRaised => Step.gets fun m => m.flags.isRaised
  | endRound => Machine.endRound
  | define name v => Eval.define name v
  | truthy v => Eval.truthy v
  | format v => Step.gets fun m => m.store.format v
  | rangeBound v span => Machine.rangeBound v span
  | textOf role v span => Machine.textOf role v span
  | openFile target path mode span => Eval.openFile target path mode span
  | closeFile file span => Eval.writeFile file span fun disk h => h.close disk
  | writeText file text span => Eval.writeFile file span fun disk h => h.write disk text
  | sizedArray v span => Machine.sizedArray v span
  | alloc elements => Eval.alloc elements
  | setSlot array slot v => Machine.setSlot array slot v
  | defineFunction f => Machine.defineFunction f
  | exhaust => Step.exhausted
  | refuse node => Eval.fault (.notRunnable node.nodeType) node.span

end Act

/-- What can be noticed while a tree is evaluated. -/
inductive Note where
  /-- An expression is about to be evaluated. -/
  | starts (e : Expr)
  /-- An expression had a result. -/
  | ends (e : Expr) (v : Value)
  /-- An expression had a value where one was needed. -/
  | gives (e : Expr) (v : Value)
  | executes (s : Stmt)
  /-- A call has bound its parameters in a scope of its own. -/
  | calls (f : Function) (arguments : List Value) (scope : Int)
  /-- A call was answered by a remembered result. -/
  | answers (f : Function) (key : Digest) (v : Value)
  /-- A call ran the body of the function to its end. -/
  | returns (f : Function) (key : Digest) (v : Value)
  | defines (f : FuncDef)

/-- How steps of a machine are made and notes are taken in a monad. Acts are steps like others,
unless something else is made of them. -/
structure Medium (M : Type → Type) where
  lift : {α : Type} → Eval α → M α
  note : Note → M Unit
  perform : {α : Type} → Act α → M α := fun a => lift a.perform

/-- What a walk over a tree depends on: the medium, and how functions are called in it. -/
structure Host (M : Type → Type) extends Medium M where
  call : Function → List Value → Span → M Value

namespace Host

variable {M : Type → Type} [Monad M]

def act {α : Type} (h : Host M) (a : Act α) : M α := h.perform a

/-- Takes note of the evaluation of an expression. -/
def watched (h : Host M) (e : Expr) (x : M Value) : M Value := do
  h.note (.starts e)
  let v ← x
  h.note (.ends e v)
  pure v

/-- A result as a value. -/
def settle (h : Host M) (v : Value) (span : Span) : M Value :=
  match v with
  | .reference name => h.act (.resolve ⟨name, span⟩)
  | .nothing => pure .null
  | v => pure v

/-- The value of an expression, made of its result. -/
def settled (h : Host M) (e : Expr) (x : M Value) : M Value := do
  let v ← x
  let v ← h.settle v e.span
  h.note (.gives e v)
  pure v

/-- Prints the prompt of an input, if it has one. -/
def prompt (h : Host M) (text : Option Prompt) (span : Span) : M Unit :=
  match text with
  | some prompt => h.act (.print prompt.text span)
  | none => pure ()

mutual

/-- The result of an expression. -/
def eval (h : Host M) (e : Expr) : M Value :=
  h.watched e <| match e with
    | .int n _ => pure (.int n)
    | .float x _ => pure (.float x)
    | .string text _ => pure (.string text)
    | .bool b _ => pure (.bool b)
    | .name ident => pure (.reference ident.name)
    | .group inner _ => h.settled inner (h.eval inner)
    | .single _ inner _ => h.settled inner (h.eval inner)
    | .unary op operand span => do
      let v ← h.settled operand (h.eval operand)
      h.act (.apply (.unary op.op) v span)
    | .binary _ left op right span => do
      let l ← h.settled left (h.eval left)
      let r ← h.settled right (h.eval right)
      h.act (.combine op.op l r span)
    | .call callee arguments span => do
      let f ← h.act (.callable callee arguments.length span)
      let args ← h.exprs arguments
      h.call f args span
    | .input prompt span => do
      h.prompt prompt span
      let text ← h.act (.readInput span)
      pure (.string text)
    | .element array index span => do
      let a ← h.act (.arrayOf array)
      let i ← h.settled index (h.eval index)
      let slot ← h.act (.slotIn a i array index.span span)
      h.act (.slotValue a slot)
    | .charOf code span => do
      let v ← h.settled code (h.eval code)
      h.act (.apply .charOf v span)
    | .codeOf char span => do
      let v ← h.settled char (h.eval char)
      h.act (.apply .codeOf v span)
    | .length value span => do
      let v ← h.settled value (h.eval value)
      h.act (.apply .length v span)
    | .read file count span => do
      let file ← h.act (.fileOf file)
      match count with
      | none => do
        let text ← h.act (.readText file none span)
        pure (.string text)
      | some count => do
        let v ← h.settled count (h.eval count)
        let n ← h.act (.countOf v count.span)
        let text ← h.act (.readText file (some n) span)
        pure (.string text)
    | .readLine file span => do
      let file ← h.act (.fileOf file)
      let text ← h.act (.readLine file span)
      pure (.string text)
    | .atEnd file span => do
      let file ← h.act (.fileOf file)
      let b ← h.act (.atEnd file span)
      pure (.bool b)
termination_by structural e

/-- The values of expressions in order. -/
def exprs (h : Host M) : List Expr → M (List Value)
  | [] => pure []
  | e :: rest => do
    let v ← h.settled e (h.eval e)
    let vs ← h.exprs rest
    pure (v :: vs)
termination_by structural es => es

end

/-- The value of an expression. -/
def expr (h : Host M) (e : Expr) : M Value := h.settled e (h.eval e)

/-- Whether an expression holds. -/
def holds (h : Host M) (condition : Expr) : M Bool := do
  let v ← h.expr condition
  h.act (.truthy v)

/-- The texts of values, evaluated in order. -/
def texts (h : Host M) : List Expr → M (List Bytes)
  | [] => pure []
  | e :: rest => do
    let v ← h.expr e
    let text ← h.act (.format v)
    let more ← h.texts rest
    pure (text :: more)

def printed (h : Host M) (arguments : List Expr) : M Bytes := do
  let parts ← h.texts arguments
  pure (Bytes.join " " parts)

def loop (h : Host M) (condition : M Bool) (body : M Unit) : (rounds : Nat) → M Unit
  | 0 => h.act .exhaust
  | rounds + 1 => do
    if (← condition) then do
      body
      if (← h.act .endRound) then pure () else h.loop condition body rounds
    else pure ()

def range (h : Host M) (counter : String) (step : Int64) (body : M Unit) :
    (more : Nat) → Int64 → M Unit
  | 0, n => do
    h.act (.define counter (.int n))
    body
    let _ ← h.act .endRound
    pure ()
  | more + 1, n => do
    h.act (.define counter (.int n))
    body
    if (← h.act .endRound) then pure () else h.range counter step body more (n + step)

/-- Executes a statement that holds no other statement. -/
def simple (h : Host M) : Stmt → M Unit
  | .giveBack value _ => do
    match value with
    | some value => do
      let v ← h.expr value
      h.act (.signal (.returning v))
    | none => h.act (.signal (.returning .null))
  | .leave _ => h.act (.signal .breaking)
  | .proceed _ => h.act (.signal .continuing)
  | .assign target value _ => do
    let v ← h.expr value
    h.act (.define target.name v)
  | .advance target op span => do
    let v ← h.act (.resolve target)
    let v ← h.act (.apply (.advance op.op) v span)
    h.act (.define target.name v)
  | .print arguments newline span => do
    let text ← h.printed arguments
    h.act (.print (if newline then text ++ "\n" else text) span)
  | .openFile target path mode span => do
    let v ← h.expr path
    let pathText ← h.act (.textOf "file path" v path.span)
    let v ← h.expr mode
    let modeText ← h.act (.textOf "file mode" v mode.span)
    h.act (.openFile target pathText modeText span)
  | .closeFile file span => do
    let file ← h.act (.fileOf file)
    h.act (.closeFile file span)
  | .write file value newline span => do
    let file ← h.act (.fileOf file)
    let v ← h.expr value
    let text ← h.act (.format v)
    h.act (.writeText file (if newline then text ++ "\n" else text) span)
  | .allocate target size _ => do
    let v ← h.expr size
    let a ← h.act (.sizedArray v size.span)
    h.act (.define target.name a)
  | .collect target elements _ => do
    let vs ← h.exprs elements
    let a ← h.act (.alloc vs.toArray)
    h.act (.define target.name a)
  | .update array index slot value _ => do
    let a ← h.act (.arrayOf array)
    let i ← h.expr index
    let place ← h.act (.slotIn a i array index.span slot)
    let v ← h.expr value
    h.act (.setSlot a place v)
  | .split target source separator _ => do
    let v ← h.expr source
    let text ← h.act (.textOf "split source" v source.span)
    let v ← h.expr separator
    let mark ← h.act (.textOf "split separator" v separator.span)
    let a ← h.act (.alloc ((splitText text mark).map Value.string).toArray)
    h.act (.define target.name a)
  | .expr value => do
    let _ ← h.eval value
    pure ()
  | .when .. | .loop .. | .range .. => pure ()

mutual

/-- Executes a statement; a conditional loop takes at most `rounds` rounds. -/
def stmt (h : Host M) (rounds : Nat) (s : Stmt) : M Unit := do
  h.note (.executes s)
  match s with
  | .when condition body others otherwise _ => do
    if (← h.holds condition) then
      match body with
      | some body => h.body rounds body
      | none => pure ()
    else
      h.others rounds others (match otherwise with
        | some branch => h.otherwise rounds branch
        | none => pure ())
  | .loop condition body _ =>
    h.loop (h.holds condition) (match body with
      | some body => h.body rounds body
      | none => pure ()) rounds
  | .range counter first last body _ => do
    let v ← h.expr first
    let start ← h.act (.rangeBound v first.span)
    let v ← h.expr last
    let stop ← h.act (.rangeBound v last.span)
    h.range counter.name (if stop < start then -1 else 1) (match body with
      | some body => h.body rounds body
      | none => pure ()) (stop.toInt - start.toInt).natAbs start
  | s => h.simple s
termination_by structural s

/-- Executes statements in order until a jump is pending. -/
def stmts (h : Host M) (rounds : Nat) : List Stmt → M Unit
  | [] => pure ()
  | s :: rest => do
    if (← h.act .isRaised) then pure ()
    else do
      h.stmt rounds s
      h.stmts rounds rest
termination_by structural ss => ss

def body (h : Host M) (rounds : Nat) : Body → M Unit
  | ⟨statements, _⟩ => h.stmts rounds statements
termination_by structural b => b

/-- Executes the first branch whose condition holds, or else `otherwise`. -/
def others (h : Host M) (rounds : Nat) : List OrWhen → (otherwise : M Unit) → M Unit
  | [], otherwise => otherwise
  | ⟨condition, body, _⟩ :: rest, otherwise => do
    if (← h.holds condition) then
      match body with
      | some body => h.body rounds body
      | none => pure ()
    else h.others rounds rest otherwise
termination_by structural others => others

def otherwise (h : Host M) (rounds : Nat) : Otherwise → M Unit
  | ⟨body, _⟩ =>
    match body with
    | some body => h.body rounds body
    | none => pure ()
termination_by structural branch => branch

end

/-- Executes a body, if there is one. -/
def body? (h : Host M) (rounds : Nat) : Option Body → M Unit
  | some body => h.body rounds body
  | none => pure ()

/-- Binds a function. -/
def defineFunction (h : Host M) (f : FuncDef) : M Unit := do
  h.act (.defineFunction f)
  h.note (.defines f)

/-- Evaluates a tree. Only expressions have a result. -/
def node (h : Host M) (rounds : Nat) : Node → M Value
  | .program p => do
    p.functions.forM h.defineFunction
    h.body? rounds p.body
    pure .nothing
  | .function f => do
    h.defineFunction f
    pure .nothing
  | .body b => do
    h.body rounds b
    pure .nothing
  | .stmt s => do
    h.stmt rounds s
    pure .nothing
  | .expr e => h.eval e
  | node => h.act (.refuse node)

end Host

namespace Medium

variable {M : Type → Type} [Monad M]

/-- Calls a function with its arguments; its body is run by `within`. -/
def call (k : Medium M) (within : (scope : Int) → Option Body → M Value) (f : Function)
    (arguments : List Value) (span : Span) : M Value := do
  let scope ← k.lift (enter f span)
  k.lift (bindParams f.name scope span (f.params.zip arguments))
  k.note (.calls f arguments scope)
  let key ← k.lift (Step.gets fun m => m.arena.digest m.store scope)
  let depth ← k.lift (Step.gets fun m => m.frames.size)
  match (← k.lift (recalled? key)) with
  | some v => do
    k.lift (Eval.remark (Bytes.ofString s!"call cache hit for {f.name} (depth {depth})"))
    k.lift (leave scope)
    k.note (.answers f key v)
    pure v
  | none => do
    k.lift (Eval.trace (Bytes.ofString s!"call {f.name} depth={depth}"))
    let v ← within scope f.body
    k.lift (leave scope)
    k.lift (remember key v)
    k.note (.returns f key v)
    pure v

/-- What a call sets aside of its caller until it ends. -/
structure Saved where
  scope : Int
  breaking : Bool
  continuing : Bool

/-- Takes up the scope of a call, and sets a break or a continuation of the caller aside. -/
def swapIn (scope : Int) : Eval Saved :=
  Step.modifyGet fun m => (⟨m.scope, m.flags.breaking, m.flags.continuing⟩,
    { m with scope, flags := { m.flags with breaking := false, continuing := false } })

/-- Goes back to what was set aside, with the value that was returned. -/
def swapOut (saved : Saved) : Eval Value :=
  Step.modifyGet fun m => (m.flags.result,
    { m with
      scope := saved.scope
      flags := ⟨saved.breaking, saved.continuing, false, .nothing⟩ })

/-- Runs a body in the scope of a call. -/
def within (k : Medium M) (run : Option Body → M Unit) (scope : Int) (body : Option Body) :
    M Value := do
  let saved ← k.lift (swapIn scope)
  run body
  k.lift (swapOut saved)

/-- The host for so many nested calls. -/
def host (k : Medium M) (rounds : Nat) : (depth : Nat) → Host M
  | 0 => { k with call := k.call (k.within fun _ => k.lift Step.exhausted) }
  | depth + 1 => { k with call := k.call (k.within ((k.host rounds depth).body? rounds)) }

theorem host_toMedium (k : Medium M) (rounds depth : Nat) : (k.host rounds depth).toMedium = k := by
  cases depth <;> rfl

end Medium

/-- The medium of the evaluation itself, in which no notes are taken. -/
def plain : Medium Eval where
  lift x := x
  note _ := pure ()

end Kotoba.Machine
