import Kotoba.Proofs.Machine.Keep
import Kotoba.Proofs.Machine.Result
import Kotoba.Proofs.Syntax.Part

/-! Two walks over one tree go together. Every act of a walk is one that some part of the tree asks
for; so what relates the acts that the parts ask for, and the calls, relates the walks as a whole.
It is enough if each input is related as a whole, with the notes of it. -/
namespace Kotoba

/-- Whether an expression is an input. -/
def Expr.isInput : Expr → Bool
  | .input .. => true
  | _ => false

/-- Whether a value is one that an expression may have for its result: a name has a reference to
itself, any other expression a good value. -/
def Expr.Results (good : Value → Prop) : Expr → Value → Prop
  | .name x, v => v = .reference x.name
  | _, v => good v

namespace Machine

/-- A relation of computations in two monads that is kept by composition. Related computations
have the same results, and these have the given property. -/
structure Bridge (M N : Type → Type) [Monad M] [Monad N] where
  Rel : {α : Type} → (α → Prop) → M α → N α → Prop
  pure : ∀ {α : Type} {P : α → Prop} {a : α}, P a → Rel P (Pure.pure a) (Pure.pure a)
  bind : ∀ {α β : Type} {P : α → Prop} {Q : β → Prop} {x : M α} {y : N α} {f : α → M β}
    {g : α → N β}, Rel P x y → (∀ a, P a → Rel Q (f a) (g a)) → Rel Q (x >>= f) (y >>= g)

theorem Bridge.forM {M N : Type → Type} [Monad M] [Monad N] (B : Bridge M N) {α : Type}
    {f : α → M Unit} {g : α → N Unit} (as : List α)
    (h : ∀ a ∈ as, B.Rel (fun _ => True) (f a) (g a)) :
    B.Rel (fun _ => True) (as.forM f) (as.forM g) := by
  induction as with
  | nil => exact B.pure trivial
  | cons a rest ih =>
    simp only [List.mem_cons, forall_eq_or_imp] at h
    exact B.bind h.1 fun _ _ => ih h.2

/-- A result is not changed where only failures are. -/
theorem ofExcept_mapError_ok {α ε : Type} (span : Span) (f : ε → Fault) (a : α) :
    Eval.ofExcept span ((Except.ok a).mapError f) = pure a := rfl

namespace Act

/-- Whether the values an act is given are all good. -/
def Takes (good : Value → Prop) {α : Type} : Act α → Prop
  | apply _ v _ => good v
  | combine _ l r _ => good l ∧ good r
  | slotIn _ i _ _ _ => good i
  | countOf v _ | rangeBound v _ | textOf _ v _ | sizedArray v _ | truthy v | format v => good v
  | define _ v => good v
  | setSlot _ _ v => good v
  | alloc elements => ∀ v ∈ elements, good v
  | signal (.returning v) => good v
  | _ => True

/-- Whether the value an act results in is good, and the function or the file that a name stands
for is as it should be. -/
def Gives (good : Value → Prop) {α : Type} : Act α → α → Prop
  | resolve _ => good
  | apply .. => good
  | combine .. => good
  | callable _ given _ => fun f => good (.function f) ∧ f.params.length = given
  | fileOf x => fun file => file.name = x
  | slotValue .. => good
  | sizedArray .. => good
  | alloc _ => good
  | _ => fun _ => True

theorem callable_ok {callee : Ident} {given : Nat} {span : Span} {m m' : Machine} {f : Function}
    (h : Machine.callable callee given span m = .ok f m') :
    m' = m ∧ m.arena.function m.scope callee.name = .ok f ∧
      m.frames.size < m.settings.maxDepth ∧ f.params.length = given := by
  simp only [Machine.callable, Step.bind_apply, Step.get] at h
  cases hf : m.arena.function m.scope callee.name with
  | error e => rw [hf] at h; cases h
  | ok g =>
    rw [hf] at h
    simp only [ofExcept_mapError_ok, Step.pure_apply] at h
    split at h
    · cases h
    · split at h
      · cases h
      · cases h
        exact ⟨rfl, rfl, by omega, by omega⟩

theorem resolveFile_ok {x : Ident} {m m' : Machine} {file : Eval.FileName}
    (h : Eval.resolveFile x m = .ok file m') : file.name = x := by
  obtain ⟨v, m₁, -, h⟩ := Step.bind_eq_ok h
  cases v with
  | file i =>
    cases h
    rfl
  | _ => cases h

/-- Results are good when every value is. -/
theorem gives_of_ok {α : Type} {a : Act α} {m m' : Machine} {r : α}
    (h : a.perform m = .ok r m') : a.Gives (fun _ => True) r := by
  cases a with
  | callable x given span => exact ⟨trivial, (callable_ok h).2.2.2⟩
  | fileOf x => exact resolveFile_ok h
  | _ => trivial

end Act

/-- Whether a note is taken on the way through a tree, not in a call or at a definition. -/
def Note.isOnWay : Note → Bool
  | starts _ | ends .. | gives .. | executes _ => true
  | calls .. | answers .. | returns .. | defines _ => false

/-- Whether a note tells of the value of an input. -/
def Note.isInput : Note → Bool
  | ends e _ => e.isInput
  | _ => false

/-- Whether all values a note tells of are good. -/
def Note.Bears (good : Value → Prop) : Note → Prop
  | ends e v => e.Results good v
  | gives _ v | answers _ _ v | returns _ _ v => good v
  | calls _ arguments _ => ∀ v ∈ arguments, good v
  | starts _ | executes _ | defines _ => True

/-- Whether a tree is one that can be evaluated. -/
def Runnable : Node → Bool
  | .orWhen _ | .otherwise _ | .operator _ => false
  | _ => true

theorem runnable_of_isWhole {n : Node} (h : n.isWhole) : Runnable n := by
  cases n <;> first | rfl | cases h

/-- The acts that a part of a tree asks for itself. What its own parts ask for is not among them,
nor is the definition of functions. -/
inductive Asks : Node → {α : Type} → Act α → Prop
  | name {x : Ident} : Asks (.expr (.name x)) (.resolve x)
  | unary {op : Operator} {e : Expr} {span : Span} {v : Value} :
    Asks (.expr (.unary op e span)) (.apply (.unary op.op) v span)
  | binary {layer : Layer} {left right : Expr} {op : Operator} {span : Span} {v w : Value} :
    Asks (.expr (.binary layer left op right span)) (.combine op.op v w span)
  | call {callee : Ident} {arguments : List Expr} {span : Span} :
    Asks (.expr (.call callee arguments span)) (.callable callee arguments.length span)
  | prompt {prompt : Prompt} {span : Span} :
    Asks (.expr (.input (some prompt) span)) (.print prompt.text span)
  | input {prompt : Option Prompt} {span : Span} :
    Asks (.expr (.input prompt span)) (.readInput span)
  | elementArray {array : Ident} {index : Expr} {span : Span} :
    Asks (.expr (.element array index span)) (.arrayOf array)
  | elementSlot {array : Ident} {index : Expr} {span : Span} {a : Nat} {v : Value} :
    Asks (.expr (.element array index span)) (.slotIn a v array index.span span)
  | element {array : Ident} {index : Expr} {span : Span} {a slot : Nat} :
    Asks (.expr (.element array index span)) (.slotValue a slot)
  | charOf {e : Expr} {span : Span} {v : Value} :
    Asks (.expr (.charOf e span)) (.apply .charOf v span)
  | codeOf {e : Expr} {span : Span} {v : Value} :
    Asks (.expr (.codeOf e span)) (.apply .codeOf v span)
  | length {e : Expr} {span : Span} {v : Value} :
    Asks (.expr (.length e span)) (.apply .length v span)
  | readFile {file : Ident} {count : Option Expr} {span : Span} :
    Asks (.expr (.read file count span)) (.fileOf file)
  | readCount {file : Ident} {count : Expr} {span : Span} {v : Value} :
    Asks (.expr (.read file (some count) span)) (.countOf v count.span)
  | read {file : Eval.FileName} {count : Option Expr} {n : Option Nat} {span : Span} :
    Asks (.expr (.read file.name count span)) (.readText file n span)
  | readLineFile {file : Ident} {span : Span} :
    Asks (.expr (.readLine file span)) (.fileOf file)
  | readLine {file : Eval.FileName} {span : Span} :
    Asks (.expr (.readLine file.name span)) (.readLine file span)
  | atEndFile {file : Ident} {span : Span} : Asks (.expr (.atEnd file span)) (.fileOf file)
  | atEnd {file : Eval.FileName} {span : Span} :
    Asks (.expr (.atEnd file.name span)) (.atEnd file span)
  | giveBack {value : Option Expr} {span : Span} {v : Value} :
    Asks (.stmt (.giveBack value span)) (.signal (.returning v))
  | leave {span : Span} : Asks (.stmt (.leave span)) (.signal .breaking)
  | proceed {span : Span} : Asks (.stmt (.proceed span)) (.signal .continuing)
  | assign {target : Ident} {value : Expr} {span : Span} {v : Value} :
    Asks (.stmt (.assign target value span)) (.define target.name v)
  | advanceFrom {target : Ident} {op : Operator} {span : Span} :
    Asks (.stmt (.advance target op span)) (.resolve target)
  | advanceBy {target : Ident} {op : Operator} {span : Span} {v : Value} :
    Asks (.stmt (.advance target op span)) (.apply (.advance op.op) v span)
  | advance {target : Ident} {op : Operator} {span : Span} {v : Value} :
    Asks (.stmt (.advance target op span)) (.define target.name v)
  | printText {arguments : List Expr} {newline : Bool} {span : Span} {v : Value} :
    Asks (.stmt (.print arguments newline span)) (.format v)
  | print {arguments : List Expr} {newline : Bool} {span : Span} {data : Bytes} :
    Asks (.stmt (.print arguments newline span)) (.print data span)
  | openPath {target : Ident} {path mode : Expr} {span : Span} {v : Value} :
    Asks (.stmt (.openFile target path mode span)) (.textOf "file path" v path.span)
  | openMode {target : Ident} {path mode : Expr} {span : Span} {v : Value} :
    Asks (.stmt (.openFile target path mode span)) (.textOf "file mode" v mode.span)
  | openFile {target : Ident} {path mode : Expr} {span : Span} {pathText modeText : Bytes} :
    Asks (.stmt (.openFile target path mode span)) (.openFile target pathText modeText span)
  | closeOf {file : Ident} {span : Span} : Asks (.stmt (.closeFile file span)) (.fileOf file)
  | closeFile {file : Eval.FileName} {span : Span} :
    Asks (.stmt (.closeFile file.name span)) (.closeFile file span)
  | writeFile {file : Ident} {value : Expr} {newline : Bool} {span : Span} :
    Asks (.stmt (.write file value newline span)) (.fileOf file)
  | writeText {file : Ident} {value : Expr} {newline : Bool} {span : Span} {v : Value} :
    Asks (.stmt (.write file value newline span)) (.format v)
  | write {file : Eval.FileName} {value : Expr} {newline : Bool} {span : Span} {text : Bytes} :
    Asks (.stmt (.write file.name value newline span)) (.writeText file text span)
  | allocateSize {target : Ident} {size : Expr} {span : Span} {v : Value} :
    Asks (.stmt (.allocate target size span)) (.sizedArray v size.span)
  | allocate {target : Ident} {size : Expr} {span : Span} {v : Value} :
    Asks (.stmt (.allocate target size span)) (.define target.name v)
  | collectAll {target : Ident} {elements : List Expr} {span : Span} {vs : Array Value} :
    Asks (.stmt (.collect target elements span)) (.alloc vs)
  | collect {target : Ident} {elements : List Expr} {span : Span} {v : Value} :
    Asks (.stmt (.collect target elements span)) (.define target.name v)
  | updateArray {array : Ident} {index value : Expr} {slot span : Span} :
    Asks (.stmt (.update array index slot value span)) (.arrayOf array)
  | updateSlot {array : Ident} {index value : Expr} {slot span : Span} {a : Nat} {v : Value} :
    Asks (.stmt (.update array index slot value span)) (.slotIn a v array index.span slot)
  | update {array : Ident} {index value : Expr} {slot span : Span} {a place : Nat} {v : Value} :
    Asks (.stmt (.update array index slot value span)) (.setSlot a place v)
  | splitSource {target : Ident} {source separator : Expr} {span : Span} {v : Value} :
    Asks (.stmt (.split target source separator span)) (.textOf "split source" v source.span)
  | splitSeparator {target : Ident} {source separator : Expr} {span : Span} {v : Value} :
    Asks (.stmt (.split target source separator span))
      (.textOf "split separator" v separator.span)
  | splitParts {target : Ident} {source separator : Expr} {span : Span} {vs : Array Value} :
    Asks (.stmt (.split target source separator span)) (.alloc vs)
  | split {target : Ident} {source separator : Expr} {span : Span} {v : Value} :
    Asks (.stmt (.split target source separator span)) (.define target.name v)
  | when {condition : Expr} {body : Option Body} {others : List OrWhen}
    {otherwise : Option Otherwise} {span : Span} {v : Value} :
    Asks (.stmt (.when condition body others otherwise span)) (.truthy v)
  | orWhen {branch : OrWhen} {v : Value} : Asks (.orWhen branch) (.truthy v)
  | loopCondition {condition : Expr} {body : Option Body} {span : Span} {v : Value} :
    Asks (.stmt (.loop condition body span)) (.truthy v)
  | loopRound {condition : Expr} {body : Option Body} {span : Span} :
    Asks (.stmt (.loop condition body span)) .endRound
  | loopEnd {condition : Expr} {body : Option Body} {span : Span} :
    Asks (.stmt (.loop condition body span)) .exhaust
  | rangeFirst {counter : Ident} {first last : Expr} {body : Option Body} {span : Span}
    {v : Value} : Asks (.stmt (.range counter first last body span)) (.rangeBound v first.span)
  | rangeLast {counter : Ident} {first last : Expr} {body : Option Body} {span : Span}
    {v : Value} : Asks (.stmt (.range counter first last body span)) (.rangeBound v last.span)
  | rangeCounter {counter : Ident} {first last : Expr} {body : Option Body} {span : Span}
    {v : Value} : Asks (.stmt (.range counter first last body span)) (.define counter.name v)
  | rangeRound {counter : Ident} {first last : Expr} {body : Option Body} {span : Span} :
    Asks (.stmt (.range counter first last body span)) .endRound
  | body {b : Body} : Asks (.body b) .isRaised

end Machine

/-- Whether none but such acts are asked for by the parts of a tree. -/
def Node.Within (may : (α : Type) → Machine.Act α → Prop) (n : Node) : Prop :=
  n.Every fun part => ∀ (α : Type) (a : Machine.Act α), Machine.Asks part a → may α a

namespace Node

theorem within_true {n : Node} : n.Within fun _ _ => True := fun _ _ _ _ _ => trivial

namespace Within

variable {may : (α : Type) → Machine.Act α → Prop} {n m : Node}

theorem asks (h : n.Within may) {α : Type} {a : Machine.Act α} (ha : Machine.Asks n a) :
    may α a := h.here α a ha

theorem child (h : n.Within may) (hm : m ∈ n.children := by simp) : m.Within may :=
  Every.child h hm

end Within

end Node

namespace Machine

/-- The hosts of two walks that go together on trees whose parts ask for no other acts than they
may, with values that are all `good`. An input is a single step of both. -/
structure Coupled {M N : Type → Type} [Monad M] [Monad N] (B : Bridge M N) (h : Host M)
    (k : Host N) (good : Value → Prop) (may : (α : Type) → Act α → Prop) : Prop where
  plain : ∀ {v : Value}, v.isPlain → good v
  /-- A name that is met as a value may be looked up. -/
  names : ∀ {x : Ident}, good (.reference x.name) → may _ (.resolve x)
  note : ∀ n, n.isOnWay → n.Bears good → (hinput : n.isInput = false := by rfl) →
    B.Rel (fun _ => True) (h.note n) (k.note n)
  act : ∀ {α : Type} (a : Act α), may α a → a.Takes good →
    (hinput : a.isInput = false := by rfl) → B.Rel (a.Gives good) (h.act a) (k.act a)
  input : ∀ (prompt : Option Prompt) (span : Span), (Node.expr (.input prompt span)).Within may →
    B.Rel good (h.eval (.input prompt span)) (k.eval (.input prompt span))
  /-- The arguments of a call are evaluated between the look-up of the function and the call. -/
  invoke : ∀ (callee : Ident) (given : Nat) (span : Span) {x : M (List Value)}
    {y : N (List Value)}, may _ (.callable callee given span) →
    B.Rel (fun vs => (∀ v ∈ vs, good v) ∧ vs.length = given) x y →
    B.Rel good
      (do let f ← h.act (.callable callee given span); let args ← x; h.call f args span)
      (do let f ← k.act (.callable callee given span); let args ← y; k.call f args span)

namespace Coupled

variable {M N : Type → Type} [Monad M] [Monad N] {B : Bridge M N} {h : Host M} {k : Host N}
  {good : Value → Prop} {may : (α : Type) → Act α → Prop}

private theorem watched (C : Coupled B h k good may) (e : Expr) {x : M Value} {y : N Value}
    (hxy : B.Rel (e.Results good) x y) (he : e.isInput = false := by rfl) :
    B.Rel (e.Results good) (h.watched e x) (k.watched e y) :=
  B.bind (C.note _ rfl trivial) fun _ _ => B.bind hxy fun _ hv =>
    B.bind (C.note _ rfl hv he) fun _ _ => B.pure hv

/-- The result of a name is no more than a reference to it. -/
private theorem watched_name (C : Coupled B h k good may) (x : Ident) {P : Value → Prop}
    (hx : P (.reference x.name)) : B.Rel P (h.eval (.name x)) (k.eval (.name x)) := by
  rw [Host.eval, Host.eval]
  refine B.bind (C.note _ rfl trivial) fun _ _ =>
    B.bind (P := fun v => v = .reference x.name) (B.pure rfl) ?_
  rintro v rfl
  exact B.bind (C.note _ rfl rfl) fun _ _ => B.pure hx

private theorem settle (C : Coupled B h k good may) {v : Value} (hv : good v) (span : Span) :
    B.Rel good (h.settle v span) (k.settle v span) := by
  cases v with
  | reference x => exact C.act (.resolve ⟨x, span⟩) (C.names hv) trivial
  | nothing => exact B.pure (C.plain rfl)
  | _ => exact B.pure hv

/-- What holds of the results of an expression gives the values made of them. -/
private theorem settled (C : Coupled B h k good may) {e : Expr} (hp : (Node.expr e).Within may)
    {x : M Value} {y : N Value} (hxy : B.Rel (e.Results good) x y) :
    B.Rel good (h.settled e x) (k.settled e y) := by
  refine B.bind hxy fun v hv => B.bind (P := good) ?_ fun w hw =>
    B.bind (C.note _ rfl hw) fun _ _ => B.pure hw
  cases e with
  | name x =>
    obtain rfl : v = .reference x.name := hv
    exact C.act (.resolve x) (hp.asks .name) trivial
  | _ => exact C.settle hv _

mutual

theorem eval (C : Coupled B h k good may) (e : Expr) (hp : (Node.expr e).Within may) :
    B.Rel (e.Results good) (h.eval e) (k.eval e) := by
  cases e with
  | int | float | string | bool =>
    rw [Host.eval, Host.eval]
    exact C.watched _ (B.pure (C.plain rfl))
  | name x => exact C.watched_name x rfl
  | group inner span | single _ inner span =>
    rw [Host.eval, Host.eval]
    exact C.watched _ (C.settled hp.child (eval C inner hp.child))
  | unary op operand span =>
    rw [Host.eval, Host.eval]
    exact C.watched _ (B.bind (C.settled hp.child (eval C operand hp.child)) fun v hv =>
      C.act (.apply (.unary op.op) v span) (hp.asks .unary) hv)
  | binary layer left op right span =>
    rw [Host.eval, Host.eval]
    exact C.watched _ (B.bind (C.settled hp.child (eval C left hp.child)) fun l hl =>
      B.bind (C.settled hp.child (eval C right hp.child)) fun r hr =>
      C.act (.combine op.op l r span) (hp.asks .binary) ⟨hl, hr⟩)
  | call callee arguments span =>
    rw [Host.eval, Host.eval]
    exact C.watched _ (C.invoke callee arguments.length span (hp.asks .call)
      (exprs C arguments fun e he => hp.child (by simp [he])))
  | input prompt span => exact C.input prompt span hp
  | element array index span =>
    rw [Host.eval, Host.eval]
    exact C.watched _ (B.bind (C.act (.arrayOf array) (hp.asks .elementArray) trivial) fun a _ =>
      B.bind (C.settled hp.child (eval C index hp.child)) fun i hi =>
      B.bind (C.act (.slotIn a i array index.span span) (hp.asks .elementSlot) hi) fun slot _ =>
      C.act (.slotValue a slot) (hp.asks .element) trivial)
  | charOf inner span =>
    rw [Host.eval, Host.eval]
    exact C.watched _ (B.bind (C.settled hp.child (eval C inner hp.child)) fun v hv =>
      C.act (.apply .charOf v span) (hp.asks .charOf) hv)
  | codeOf inner span =>
    rw [Host.eval, Host.eval]
    exact C.watched _ (B.bind (C.settled hp.child (eval C inner hp.child)) fun v hv =>
      C.act (.apply .codeOf v span) (hp.asks .codeOf) hv)
  | length inner span =>
    rw [Host.eval, Host.eval]
    exact C.watched _ (B.bind (C.settled hp.child (eval C inner hp.child)) fun v hv =>
      C.act (.apply .length v span) (hp.asks .length) hv)
  | read file count span =>
    cases count with
    | none =>
      rw [Host.eval, Host.eval]
      refine C.watched _ (B.bind (C.act (.fileOf file) (hp.asks .readFile) trivial) ?_)
      rintro file rfl
      exact B.bind (C.act (.readText file none span) (hp.asks .read) trivial) fun _ _ =>
        B.pure (C.plain rfl)
    | some count =>
      rw [Host.eval, Host.eval]
      refine C.watched _ (B.bind (C.act (.fileOf file) (hp.asks .readFile) trivial) ?_)
      rintro file rfl
      exact B.bind (C.settled hp.child (eval C count hp.child)) fun v hv =>
        B.bind (C.act (.countOf v count.span) (hp.asks .readCount) hv) fun n _ =>
        B.bind (C.act (.readText file (some n) span) (hp.asks .read) trivial) fun _ _ =>
        B.pure (C.plain rfl)
  | readLine file span =>
    rw [Host.eval, Host.eval]
    refine C.watched _ (B.bind (C.act (.fileOf file) (hp.asks .readLineFile) trivial) ?_)
    rintro file rfl
    exact B.bind (C.act (.readLine file span) (hp.asks .readLine) trivial) fun _ _ =>
      B.pure (C.plain rfl)
  | atEnd file span =>
    rw [Host.eval, Host.eval]
    refine C.watched _ (B.bind (C.act (.fileOf file) (hp.asks .atEndFile) trivial) ?_)
    rintro file rfl
    exact B.bind (C.act (.atEnd file span) (hp.asks .atEnd) trivial) fun _ _ =>
      B.pure (C.plain rfl)

theorem exprs (C : Coupled B h k good may) (es : List Expr)
    (hp : ∀ e ∈ es, (Node.expr e).Within may) :
    B.Rel (fun vs => (∀ v ∈ vs, good v) ∧ vs.length = es.length) (h.exprs es) (k.exprs es) := by
  cases es with
  | nil => rw [Host.exprs, Host.exprs]; exact B.pure (by simp)
  | cons e rest =>
    rw [Host.exprs, Host.exprs]
    obtain ⟨he, hrest⟩ := List.forall_mem_cons.mp hp
    refine B.bind (C.settled he (eval C e he)) fun v hv =>
      B.bind (exprs C rest hrest) fun vs hvs => B.pure ?_
    simpa using ⟨⟨hv, hvs.1⟩, hvs.2⟩

end

variable (C : Coupled B h k good may)
include C

theorem expr (e : Expr) (hp : (Node.expr e).Within may) : B.Rel good (h.expr e) (k.expr e) :=
  C.settled hp (C.eval e hp)

private theorem holds {e : Expr} (hp : (Node.expr e).Within may)
    (ht : ∀ v, may _ (.truthy v)) : B.Rel (fun _ => True) (h.holds e) (k.holds e) :=
  B.bind (C.expr e hp) fun v hv => C.act (.truthy v) (ht v) hv

private theorem texts {es : List Expr} (hp : ∀ e ∈ es, (Node.expr e).Within may)
    (hf : ∀ v, may _ (.format v)) : B.Rel (fun _ => True) (h.texts es) (k.texts es) := by
  induction es with
  | nil => exact B.pure trivial
  | cons e rest ih =>
    obtain ⟨he, hrest⟩ := List.forall_mem_cons.mp hp
    exact B.bind (C.expr e he) fun v hv => B.bind (C.act (.format v) (hf v) hv) fun _ _ =>
      B.bind (ih hrest) fun _ _ => B.pure trivial

/-- Both loops take the same rounds. -/
private theorem loop (hround : may _ .endRound) (hend : may _ .exhaust) {c : M Bool} {d : N Bool}
    {x : M Unit} {y : N Unit} (hc : B.Rel (fun _ => True) c d) (hx : B.Rel (fun _ => True) x y)
    {rounds rounds' : Nat} (hr : rounds = rounds') :
    B.Rel (fun _ => True) (h.loop c x rounds) (k.loop d y rounds') := by
  subst hr
  induction rounds with
  | zero => exact C.act .exhaust hend trivial
  | succ rounds ih =>
    refine B.bind hc fun b _ => ?_
    cases b with
    | false => exact B.pure trivial
    | true =>
      refine B.bind hx fun _ _ => B.bind (C.act .endRound hround trivial) fun stop _ => ?_
      cases stop with
      | false => exact ih
      | true => exact B.pure trivial

private theorem range {counter : String} (hround : may _ .endRound)
    (hcounter : ∀ v, may _ (.define counter v)) (step : Int64) {x : M Unit} {y : N Unit}
    (hx : B.Rel (fun _ => True) x y) (more : Nat) (n : Int64) :
    B.Rel (fun _ => True) (h.range counter step x more n) (k.range counter step y more n) := by
  induction more generalizing n with
  | zero =>
    exact B.bind (C.act (.define counter (.int n)) (hcounter _) (C.plain rfl)) fun _ _ =>
      B.bind hx fun _ _ => B.bind (C.act .endRound hround trivial) fun _ _ => B.pure trivial
  | succ more ih =>
    refine B.bind (C.act (.define counter (.int n)) (hcounter _) (C.plain rfl)) fun _ _ =>
      B.bind hx fun _ _ => B.bind (C.act .endRound hround trivial) fun stop _ => ?_
    cases stop with
    | false => exact ih _
    | true => exact B.pure trivial

theorem simple (s : Stmt) (hp : (Node.stmt s).Within may) :
    B.Rel (fun _ => True) (h.simple s) (k.simple s) := by
  cases s with
  | giveBack value span =>
    cases value with
    | none => exact C.act (.signal (.returning .null)) (hp.asks .giveBack) (C.plain rfl)
    | some value =>
      exact B.bind (C.expr value hp.child) fun v hv =>
        C.act (.signal (.returning v)) (hp.asks .giveBack) hv
  | leave span => exact C.act (.signal .breaking) (hp.asks .leave) trivial
  | proceed span => exact C.act (.signal .continuing) (hp.asks .proceed) trivial
  | assign target value span =>
    exact B.bind (C.expr value hp.child) fun v hv =>
      C.act (.define target.name v) (hp.asks .assign) hv
  | advance target op span =>
    exact B.bind (C.act (.resolve target) (hp.asks .advanceFrom) trivial) fun v hv =>
      B.bind (C.act (.apply (.advance op.op) v span) (hp.asks .advanceBy) hv) fun w hw =>
      C.act (.define target.name w) (hp.asks .advance) hw
  | print arguments newline span =>
    have ha : ∀ e ∈ arguments, (Node.expr e).Within may := fun e he => hp.child (by simp [he])
    exact B.bind (B.bind (C.texts ha fun _ => hp.asks .printText) fun _ _ =>
      B.pure (P := fun _ => True) trivial) fun text _ =>
      C.act (.print (if newline then text ++ "\n" else text) span) (hp.asks .print) trivial
  | openFile target path mode span =>
    exact B.bind (C.expr path hp.child) fun v hv =>
      B.bind (C.act (.textOf "file path" v path.span) (hp.asks .openPath) hv) fun pathText _ =>
      B.bind (C.expr mode hp.child) fun w hw =>
      B.bind (C.act (.textOf "file mode" w mode.span) (hp.asks .openMode) hw) fun modeText _ =>
      C.act (.openFile target pathText modeText span) (hp.asks .openFile) trivial
  | closeFile file span =>
    refine B.bind (C.act (.fileOf file) (hp.asks .closeOf) trivial) ?_
    rintro file rfl
    exact C.act (.closeFile file span) (hp.asks .closeFile) trivial
  | write file value newline span =>
    refine B.bind (C.act (.fileOf file) (hp.asks .writeFile) trivial) ?_
    rintro file rfl
    exact B.bind (C.expr value hp.child) fun v hv =>
      B.bind (C.act (.format v) (hp.asks .writeText) hv) fun text _ =>
      C.act (.writeText file (if newline then text ++ "\n" else text) span) (hp.asks .write) trivial
  | allocate target size span =>
    exact B.bind (C.expr size hp.child) fun v hv =>
      B.bind (C.act (.sizedArray v size.span) (hp.asks .allocateSize) hv) fun a ha =>
      C.act (.define target.name a) (hp.asks .allocate) ha
  | collect target elements span =>
    exact B.bind (C.exprs elements fun e he => hp.child (by simp [he])) fun vs hvs =>
      B.bind (C.act (.alloc vs.toArray) (hp.asks .collectAll) fun v hv =>
        hvs.1 v (by simpa using hv)) fun a ha =>
      C.act (.define target.name a) (hp.asks .collect) ha
  | update array index slot value span =>
    have helement : (Node.expr (.element array index slot)).Within may := hp.child
    exact B.bind (C.act (.arrayOf array) (hp.asks .updateArray) trivial) fun a _ =>
      B.bind (C.expr index helement.child) fun i hi =>
      B.bind (C.act (.slotIn a i array index.span slot) (hp.asks .updateSlot) hi) fun place _ =>
      B.bind (C.expr value hp.child) fun v hv =>
      C.act (.setSlot a place v) (hp.asks .update) hv
  | split target source separator span =>
    have hparts : ∀ text mark : Bytes, ∀ v ∈ ((splitText text mark).map Value.string).toArray,
        good v := by
      intro text mark v hv
      obtain ⟨part, -, rfl⟩ := List.mem_map.mp (List.mem_toArray.mp hv)
      exact C.plain rfl
    exact B.bind (C.expr source hp.child) fun v hv =>
      B.bind (C.act (.textOf "split source" v source.span) (hp.asks .splitSource) hv) fun text _ =>
      B.bind (C.expr separator hp.child) fun w hw =>
      B.bind (C.act (.textOf "split separator" w separator.span) (hp.asks .splitSeparator) hw)
        fun mark _ =>
      B.bind (C.act (.alloc _) (hp.asks .splitParts) (hparts text mark)) fun a ha =>
      C.act (.define target.name a) (hp.asks .split) ha
  | expr value => exact B.bind (C.eval value hp.child) fun _ _ => B.pure trivial
  | «when» | loop | range => exact B.pure trivial

omit C

variable {rounds rounds' : Nat}

mutual

/-- The rounds of both walks need only agree where there are conditional loops. -/
theorem stmt (C : Coupled B h k good may) (hr : may _ .exhaust → rounds = rounds') (s : Stmt)
    (hp : (Node.stmt s).Within may) :
    B.Rel (fun _ => True) (h.stmt rounds s) (k.stmt rounds' s) := by
  rw [Host.stmt.eq_def, Host.stmt.eq_def]
  refine B.bind (C.note _ rfl trivial) fun _ _ => ?_
  cases s with
  | «when» condition body others otherwise span =>
    refine B.bind (C.holds hp.child fun _ => hp.asks .when) fun b _ => ?_
    cases b with
    | true =>
      cases body with
      | none => exact B.pure trivial
      | some body => exact Coupled.body C hr body hp.child
    | false =>
      refine Coupled.others C hr others (fun branch hb => hp.child (by simp [hb])) ?_
      cases otherwise with
      | none => exact B.pure trivial
      | some branch => exact Coupled.otherwise C hr branch hp.child
  | loop condition body span =>
    have hend : may _ .exhaust := hp.asks .loopEnd
    refine C.loop (hp.asks .loopRound) hend
      (C.holds hp.child fun _ => hp.asks .loopCondition) ?_ (hr hend)
    cases body with
    | none => exact B.pure trivial
    | some body => exact Coupled.body C hr body hp.child
  | range counter first last body span =>
    refine B.bind (C.expr first hp.child) fun v hv =>
      B.bind (C.act (.rangeBound v first.span) (hp.asks .rangeFirst) hv) fun start _ =>
      B.bind (C.expr last hp.child) fun w hw =>
      B.bind (C.act (.rangeBound w last.span) (hp.asks .rangeLast) hw) fun stop _ =>
      C.range (hp.asks .rangeRound) (fun _ => hp.asks .rangeCounter) _ ?_ _ _
    cases body with
    | none => exact B.pure trivial
    | some body => exact Coupled.body C hr body hp.child
  | giveBack | leave | proceed | assign | advance | print | openFile | closeFile | write | allocate
  | collect | update | split | expr => exact C.simple _ hp

/-- Statements that stand in a list. -/
theorem stmts (C : Coupled B h k good may) (hr : may _ .exhaust → rounds = rounds')
    (hraised : may _ .isRaised) (ss : List Stmt) (hp : ∀ s ∈ ss, (Node.stmt s).Within may) :
    B.Rel (fun _ => True) (h.stmts rounds ss) (k.stmts rounds' ss) := by
  cases ss with
  | nil => rw [Host.stmts, Host.stmts]; exact B.pure trivial
  | cons s rest =>
    rw [Host.stmts, Host.stmts]
    obtain ⟨hs, hrest⟩ := List.forall_mem_cons.mp hp
    refine B.bind (C.act .isRaised hraised trivial) fun b _ => ?_
    cases b with
    | true => exact B.pure trivial
    | false => exact B.bind (stmt C hr s hs) fun _ _ => stmts C hr hraised rest hrest

theorem body (C : Coupled B h k good may) (hr : may _ .exhaust → rounds = rounds') (b : Body)
    (hp : (Node.body b).Within may) :
    B.Rel (fun _ => True) (h.body rounds b) (k.body rounds' b) := by
  cases b with
  | mk statements span =>
    rw [Host.body, Host.body]
    exact stmts C hr (hp.asks .body) statements fun s hs => hp.child (by simp [hs])

theorem others (C : Coupled B h k good may) (hr : may _ .exhaust → rounds = rounds')
    (branches : List OrWhen) (hp : ∀ branch ∈ branches, (Node.orWhen branch).Within may)
    {x : M Unit} {y : N Unit} (hx : B.Rel (fun _ => True) x y) :
    B.Rel (fun _ => True) (h.others rounds branches x) (k.others rounds' branches y) := by
  cases branches with
  | nil => rw [Host.others, Host.others]; exact hx
  | cons branch rest =>
    obtain ⟨hb, hrest⟩ := List.forall_mem_cons.mp hp
    cases branch with
    | mk condition body span =>
      rw [Host.others.eq_def, Host.others.eq_def]
      refine B.bind (C.holds hb.child fun _ => hb.asks .orWhen) fun b _ => ?_
      cases b with
      | true =>
        cases body with
        | none => exact B.pure trivial
        | some body => exact Coupled.body C hr body hb.child
      | false => exact others C hr rest hrest hx

theorem otherwise (C : Coupled B h k good may) (hr : may _ .exhaust → rounds = rounds')
    (branch : Otherwise) (hp : (Node.otherwise branch).Within may) :
    B.Rel (fun _ => True) (h.otherwise rounds branch) (k.otherwise rounds' branch) := by
  cases branch with
  | mk body span =>
    rw [Host.otherwise.eq_def, Host.otherwise.eq_def]
    cases body with
    | none => exact B.pure trivial
    | some body => exact Coupled.body C hr body hp.child

end

theorem body? (C : Coupled B h k good may) (hr : may _ .exhaust → rounds = rounds')
    (b : Option Body) (hp : ∀ body, b = some body → (Node.body body).Within may) :
    B.Rel (fun _ => True) (h.body? rounds b) (k.body? rounds' b) := by
  cases b with
  | none => exact B.pure trivial
  | some b => exact C.body hr b (hp b rfl)

/-- A whole tree. Only an expression has a result. -/
theorem node (C : Coupled B h k good may) (hr : may _ .exhaust → rounds = rounds') {n : Node}
    (hp : n.Within may)
    (hdefine : ∀ f, n.Part (.function f) →
      B.Rel (fun _ => True) (h.defineFunction f) (k.defineFunction f))
    {P : Value → Prop} (hnothing : P .nothing)
    (hname : ∀ x, n = .expr (.name x) → P (.reference x.name))
    (hvalue : ∀ {x : M Value} {y : N Value}, B.Rel good x y → B.Rel P x y)
    (hrefuse : Runnable n = false → B.Rel P (h.act (.refuse n)) (k.act (.refuse n))) :
    B.Rel P (h.node rounds n) (k.node rounds' n) := by
  cases n with
  | program p =>
    refine B.bind (B.forM p.functions fun f hf => hdefine f (.child .self (by simp [hf])))
      fun _ _ => B.bind (C.body? hr p.body fun b hb => ?_) fun _ _ => B.pure hnothing
    exact hp.child (by simp [hb])
  | function f => exact B.bind (hdefine f .self) fun _ _ => B.pure hnothing
  | body b => exact B.bind (C.body hr b hp) fun _ _ => B.pure hnothing
  | stmt s => exact B.bind (C.stmt hr s hp) fun _ _ => B.pure hnothing
  | expr e =>
    cases e with
    | name x => exact C.watched_name x (hname x rfl)
    | _ => exact hvalue (C.eval _ hp)
  | orWhen | otherwise | operator => exact hrefuse rfl

end Coupled

/-- Calls are related as bodies are, if the steps around them are. -/
theorem Bridge.call {M N : Type → Type} [Monad M] [Monad N] (B : Bridge M N) {k : Medium M}
    {l : Medium N}
    (hlift : ∀ {α : Type} {x : Eval α}, Around x → B.Rel (fun _ => True) (k.lift x) (l.lift x))
    (hnote : ∀ n, n.isInput = false → B.Rel (fun _ => True) (k.note n) (l.note n))
    {r : Int → Option Body → M Value} {s : Int → Option Body → N Value}
    (hw : ∀ scope body, B.Rel (fun _ => True) (r scope body) (s scope body)) (f : Function)
    (args : List Value) (span : Span) :
    B.Rel (fun _ => True) (k.call r f args span) (l.call s f args span) := by
  refine B.bind (hlift (.enter f span)) fun scope _ =>
    B.bind (hlift (.bindParams _ _ _ _)) fun _ _ => B.bind (hnote _ rfl) fun _ _ =>
    B.bind (hlift (.key scope)) fun key _ => B.bind (hlift .depth) fun depth _ =>
    B.bind (hlift (.recalled key)) fun found _ => ?_
  cases found with
  | some v =>
    exact B.bind (hlift (.remark _)) fun _ _ => B.bind (hlift (.leave scope)) fun _ _ =>
      B.bind (hnote _ rfl) fun _ _ => B.pure trivial
  | none =>
    exact B.bind (hlift (.trace _)) fun _ _ => B.bind (hw scope f.body) fun v _ =>
      B.bind (hlift (.leave scope)) fun _ _ => B.bind (hlift (.remember key v)) fun _ _ =>
      B.bind (hnote _ rfl) fun _ _ => B.pure trivial

end Machine

end Kotoba
