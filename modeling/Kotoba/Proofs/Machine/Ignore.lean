import Kotoba.Proofs.Machine.Keep

/-! Computations that come to the same end from a machine that was altered before, but for the
alteration. Nothing but the look-up of a function that is to be called takes notice of the limit on
active calls, and nothing but jumps of the flags. -/
namespace Kotoba

variable {σ ε α β : Type}

/-- The same end in another state. -/
def Outcome.onState (f : σ → σ) : Outcome σ ε α → Outcome σ ε α
  | .ok a s => .ok a (f s)
  | .error e s => .error e (f s)
  | .exhausted => .exhausted

namespace Step

/-- Whether it makes no difference to a computation, but for the state it ends in, that the state
is changed before it begins. -/
def Ignores (f : σ → σ) (x : Step σ ε α) : Prop := ∀ s, x (f s) = (x s).onState f

namespace Ignores

variable {f : σ → σ}

theorem pure (a : α) : Ignores f (Pure.pure a : Step σ ε α) := fun _ => rfl

theorem bind {x : Step σ ε α} {k : α → Step σ ε β} (hx : Ignores f x) (hk : ∀ a, Ignores f (k a)) :
    Ignores f (x >>= k) := by
  intro s
  have h := hx s
  rw [bind_apply, bind_apply, h]
  cases x s with
  | ok a s' => exact hk a s'
  | error e s' => rfl
  | exhausted => rfl

theorem fail (e : ε) : Ignores f (Step.fail e : Step σ ε α) := fun _ => rfl

theorem exhausted : Ignores f (Step.exhausted : Step σ ε α) := fun _ => rfl

/-- Something is read from the state that is the same in both. -/
theorem reads {k : σ → Step σ ε α} (hk : ∀ s, k (f s) = k s) (h : ∀ s, Ignores f (k s)) :
    Ignores f (Step.get >>= k) := by
  intro s
  show k (f s) (f s) = (k s s).onState f
  rw [hk]
  exact h s s

theorem gets {g : σ → α} (hg : ∀ s, g (f s) = g s) : Ignores f (Step.gets g : Step σ ε α) := by
  intro s
  show Outcome.ok (g (f s)) (f s) = .ok (g s) (f s)
  rw [hg]

theorem modify {g : σ → σ} (hg : ∀ s, g (f s) = f (g s)) :
    Ignores f (Step.modify g : Step σ ε Unit) := by
  intro s
  show Outcome.ok () (g (f s)) = .ok () (f (g s))
  rw [hg]

theorem modifyGet {g : σ → α × σ} (hg : ∀ s, g (f s) = ((g s).1, f (g s).2)) :
    Ignores f (Step.modifyGet g : Step σ ε α) := by
  intro s
  show Outcome.ok (g (f s)).1 (g (f s)).2 = .ok (g s).1 (f (g s).2)
  rw [hg]

end Ignores

end Step

namespace Machine

open Step (Ignores)

/-- A machine with another limit on active calls and other flags. -/
def altered (d : Nat → Nat) (g : Flags → Flags) (m : Machine) : Machine :=
  { m with
    settings := { m.settings with maxDepth := d m.settings.maxDepth }
    flags := g m.flags }

section Acts

variable {d : Nat → Nat} {g : Flags → Flags}

theorem ignores_ofExcept (span : Span) (x : Except Fault α) :
    Ignores (altered d g) (Eval.ofExcept span x) := by
  cases x with
  | ok a => exact .pure a
  | error f => exact .fail _

theorem ignores_resolve (x : Ident) : Ignores (altered d g) (Eval.resolve x) :=
  .reads (fun _ => rfl) fun _ => ignores_ofExcept _ _

/-- A failure that describes a value. -/
theorem ignores_described (v : Value) (f : Bytes → Fault) (span : Span) :
    Ignores (altered d g) (do let text ← Eval.describe v; Eval.fault (f text) span : Eval α) :=
  .bind (.gets fun _ => rfl) fun _ => .fail _

theorem ignores_define (name : String) (v : Value) :
    Ignores (altered d g) (Eval.define name v) := .modify fun _ => rfl

theorem ignores_alloc (elements : Array Value) :
    Ignores (altered d g) (Eval.alloc elements) := .modifyGet fun _ => rfl

theorem ignores_trace (message : Bytes) : Ignores (altered d g) (Eval.trace message) := by
  refine .modify fun m => ?_
  have hsame : (m.altered d g).settings.traced = m.settings.traced := rfl
  rw [hsame]
  split <;> rfl

theorem ignores_remark (message : Bytes) : Ignores (altered d g) (Eval.remark message) := by
  refine .modify fun m => ?_
  have hsame : (m.altered d g).settings.verbose = m.settings.verbose := rfl
  rw [hsame]
  split <;> rfl

theorem ignores_print (data : Bytes) (span : Span) :
    Ignores (altered d g) (Eval.print data span) := by
  refine .reads (fun _ => rfl) fun m => ?_
  cases m.output.write data with
  | ok output => exact .modify fun _ => rfl
  | error cause => exact .fail _

theorem ignores_readInput (span : Span) : Ignores (altered d g) (Eval.readInput span) :=
  .reads (fun _ => rfl) fun _ => .bind (.modify fun _ => rfl) fun _ => ignores_ofExcept _ _

theorem ignores_handle (file : Eval.FileName) :
    Ignores (altered d g) (Eval.handle file) := by
  refine .bind (.gets fun _ => rfl) fun h => ?_
  cases h with
  | some h => exact .pure h
  | none => exact ignores_described _ _ _

theorem ignores_putHandle (file : Eval.FileName) (h : File.Handle) :
    Ignores (altered d g) (Eval.putHandle file h) := .modify fun _ => rfl

theorem ignores_readFile (file : Eval.FileName) (span : Span)
    (take : Disk → File.Handle → Except File.Fault α × File.Handle) :
    Ignores (altered d g) (Eval.readFile file span take) :=
  .bind (.gets fun _ => rfl) fun _ => .bind (ignores_handle file) fun _ =>
    .bind (ignores_putHandle file _) fun _ => ignores_ofExcept _ _

theorem ignores_writeFile (file : Eval.FileName) (span : Span)
    (put : Disk → File.Handle → Except File.Fault Unit × File.Handle × Disk) :
    Ignores (altered d g) (Eval.writeFile file span put) :=
  .bind (.gets fun _ => rfl) fun _ => .bind (ignores_handle file) fun _ =>
    .bind (ignores_putHandle file _) fun _ => .bind (.modify fun _ => rfl) fun _ =>
    ignores_ofExcept _ _

theorem ignores_openFile (target : Ident) (path mode : Bytes) (span : Span) :
    Ignores (altered d g) (Eval.openFile target path mode span) := by
  refine .bind (.gets fun _ => rfl) fun disk => ?_
  cases File.Handle.openAt disk path mode with
  | error f => exact .fail _
  | ok opened =>
    exact .bind (ignores_trace _) fun _ => .bind (.modifyGet fun _ => rfl) fun v =>
      ignores_define _ v

theorem ignores_sizedArray (v : Value) (span : Span) :
    Ignores (altered d g) (Machine.sizedArray v span) := by
  cases v with
  | int n =>
    dsimp only [Machine.sizedArray]
    by_cases hneg : n < 0
    · rw [if_pos hneg]
      exact ignores_described _ _ _
    · rw [if_neg hneg]
      by_cases hlarge : maxAllocation < n.toNatClampNeg
      · rw [if_pos hlarge]
        exact .fail _
      · rw [if_neg hlarge]
        exact ignores_alloc _
  | _ => exact ignores_described _ _ _

theorem ignores_defineFunction (f : FuncDef) :
    Ignores (altered d g) (Machine.defineFunction f) :=
  .bind (ignores_trace _) fun _ => .bind (ignores_define _ _) fun _ => .modify fun _ => rfl

theorem ignores_act (a : Act α) (h : a.isHeedful = false) : Ignores (altered d g) a.perform := by
  cases a with
  | callable | signal | isRaised | endRound => cases h
  | resolve x => exact ignores_resolve x
  | apply rule v span => exact .bind (.gets fun _ => rfl) fun _ => ignores_ofExcept _ _
  | combine op l r span => exact ignores_ofExcept _ _
  | print data span => exact ignores_print data span
  | readInput span => exact ignores_readInput span
  | arrayOf x =>
    refine .bind (ignores_resolve x) fun v => ?_
    cases v with
    | array a => exact .pure a
    | _ => exact ignores_described _ _ _
  | slotIn a i x indexSpan span =>
    cases i with
    | int n =>
      refine .bind (.gets fun _ => rfl) fun size => ?_
      by_cases hn : 0 ≤ n ∧ n.toNatClampNeg < size
      · rw [if_pos hn]
        exact .pure _
      · rw [if_neg hn]
        exact .fail _
    | _ => exact ignores_described _ _ _
  | slotValue a slot => exact .gets fun _ => rfl
  | fileOf x =>
    refine .bind (ignores_resolve x) fun v => ?_
    cases v with
    | file i => exact .pure _
    | _ => exact ignores_described _ _ _
  | countOf v span =>
    cases v with
    | int n =>
      show Ignores (altered d g) (if 0 ≤ n then _ else _)
      by_cases hn : 0 ≤ n
      · rw [if_pos hn]
        exact .pure _
      · rw [if_neg hn]
        exact ignores_described _ _ _
    | _ => exact ignores_described _ _ _
  | readText file count span => exact ignores_readFile file span _
  | readLine file span => exact ignores_readFile file span _
  | atEnd file span => exact ignores_readFile file span _
  | define name v => exact ignores_define name v
  | truthy v => exact .gets fun _ => rfl
  | format v => exact .gets fun _ => rfl
  | rangeBound v span =>
    cases v with
    | int n => exact .pure n
    | _ => exact .fail _
  | textOf role v span =>
    cases v with
    | string text => exact .pure text
    | _ => exact ignores_described _ _ _
  | openFile target path mode span => exact ignores_openFile target path mode span
  | closeFile file span => exact ignores_writeFile file span _
  | writeText file text span => exact ignores_writeFile file span _
  | sizedArray v span => exact ignores_sizedArray v span
  | alloc elements => exact ignores_alloc elements
  | setSlot a slot v => exact .modify fun _ => rfl
  | defineFunction f => exact ignores_defineFunction f
  | exhaust => exact .exhausted
  | refuse node => exact .fail _

theorem ignores_bindParams (function : String) (scope : Int) (span : Span)
    (params : List (String × Value)) :
    Ignores (altered d g) (Machine.bindParams function scope span params) := by
  induction params with
  | nil => exact .pure ()
  | cons param rest ih =>
    obtain ⟨name, v⟩ := param
    refine .bind (.gets fun _ => rfl) fun bound => ?_
    by_cases hb : bound.isSome
    · rw [if_pos hb]
      exact .fail _
    · rw [if_neg hb]
      exact .bind (.modify fun _ => rfl) fun _ => ih

theorem ignores_recalled (key : Digest) : Ignores (altered d g) (recalled? key) := by
  refine .modifyGet fun m => ?_
  have hsame : (m.altered d g).memory = m.memory := rfl
  rw [hsame]
  cases m.memory.get? key with
  | some found => rfl
  | none =>
    dsimp only
    by_cases he : m.memory.isEnabled
    · rw [if_pos he, if_pos he]
      rfl
    · rw [if_neg he, if_neg he]

/-- The work around the body of a call takes no notice of either. -/
theorem Around.ignores {x : Eval α} (h : Around x) : Ignores (altered d g) x := by
  cases h with
  | enter => exact .modifyGet fun _ => rfl
  | bindParams => exact ignores_bindParams _ _ _ _
  | key | depth => exact .gets fun _ => rfl
  | recalled key => exact ignores_recalled key
  | remark => exact ignores_remark _
  | trace => exact ignores_trace _
  | leave | remember => exact .modify fun _ => rfl

end Acts

end Machine

end Kotoba
