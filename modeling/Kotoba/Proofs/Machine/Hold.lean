import Kotoba.Proofs.Machine.Key
import Kotoba.Proofs.Machine.Sound

/-! What machines hold. Steps are considered that keep to good values: a machine which holds none
but good values still does so afterwards, whether the step succeeds or fails. -/
namespace Kotoba

namespace Arena

variable {a : Arena} {id place : Int} {x : String} {s : Symbol}

theorem localSymbol?_push {name : String} {parent : Int}
    (h : (a.push name parent).2.localSymbol? place x = some s) :
    a.localSymbol? place x = some s := by
  rw [localSymbol?, scope?_push] at h
  split at h
  · cases h
  · exact h

/-- Dropping scopes binds no names. -/
theorem localSymbol?_pop (h : (a.pop id).localSymbol? place x = some s) :
    a.localSymbol? place x = some s := by
  rw [localSymbol?, scope?_pop] at h
  split at h
  · cases h
  · exact h

theorem localSymbol?_reset (h : a.reset.localSymbol? place x = some s) :
    a.localSymbol? place x = some s := by
  rw [localSymbol?, scope?_reset] at h
  split at h
  · cases h
  · exact h

end Arena

namespace Op

/-- Whether an operator is one of arithmetic. -/
def isArithmetic : Op → Bool
  | add | sub | mul | div | mod => true
  | _ => false

/-- Whether an operator stands between two operands. -/
def isBinary : Op → Bool
  | not | inc | dec | other _ => false
  | _ => true

end Op

namespace Machine

namespace Flags

variable {good : Value → Prop} {f : Flags}

/-- Whether the value of a return is good as long as the return is pending, and none is left
otherwise. -/
def Bears (good : Value → Prop) (f : Flags) : Prop :=
  if f.returning then good f.returnValue else f.returnValue = .nothing

theorem Bears.returned (h : f.Bears good) (hr : f.returning) : good f.returnValue := by
  rwa [Bears, if_pos hr] at h

theorem Bears.raise (h : f.Bears good) {jump : Jump} (hj : ∀ v, jump = .returning v → good v) :
    (f.raise jump).Bears good := by
  cases jump with
  | returning v => exact hj v rfl
  | breaking | continuing => exact h

theorem Bears.endRound (h : f.Bears good) : f.endRound.2.Bears good := by
  unfold Flags.endRound
  split <;> exact h

/-- The result of a call is good, for null is. -/
theorem Bears.result (h : f.Bears good) (hnull : good .null) : good f.result := by
  unfold Flags.result
  split
  · next hr =>
    split
    · exact hnull
    · exact h.returned hr
  · exact hnull

end Flags

/-- A machine that holds none but good values: in its scopes and arrays, among the remembered
results, and as the value that a call is to end with. -/
structure Holds (good : Value → Prop) (m : Machine) : Prop where
  bindings : ∀ id x s, m.arena.localSymbol? id x = some s → good s.value
  elements : ∀ array, ∀ v ∈ m.store.elements array, good v
  results : ∀ e ∈ m.memory.entries, good e.2
  flags : m.flags.Bears good

namespace Holds

variable {good : Value → Prop} {m m' : Machine}

/-- Only scopes, arrays, remembered results and the flags matter. -/
theorem congr (h : Holds good m) (ha : m'.arena = m.arena)
    (he : m'.store.arrays = m.store.arrays) (hr : m'.memory = m.memory)
    (hf : m'.flags = m.flags) : Holds good m' where
  bindings := ha ▸ h.bindings
  elements array := by
    simp only [Store.elements, he]
    exact h.elements array
  results := hr ▸ h.results
  flags := hf ▸ h.flags

theorem withArena (h : Holds good m) {arena : Arena}
    (ha : ∀ id x s, arena.localSymbol? id x = some s → good s.value) :
    Holds good { m with arena := arena } := ⟨ha, h.elements, h.results, h.flags⟩

theorem withStore (h : Holds good m) {store : Store}
    (hs : ∀ array, ∀ v ∈ store.elements array, good v) : Holds good { m with store := store } :=
  ⟨h.bindings, hs, h.results, h.flags⟩

theorem withMemory (h : Holds good m) {memory : Recall} (hr : ∀ e ∈ memory.entries, good e.2) :
    Holds good { m with memory := memory } := ⟨h.bindings, h.elements, hr, h.flags⟩

theorem withFlags (h : Holds good m) {flags : Flags} (hf : flags.Bears good) :
    Holds good { m with flags := flags } := ⟨h.bindings, h.elements, h.results, hf⟩

theorem symbol? (h : Holds good m) {id : Int} {x : String} {s : Symbol}
    (hs : m.arena.symbol? id x = some s) : good s.value := by
  obtain ⟨place, hp⟩ := Arena.exists_localSymbol? hs
  exact h.bindings place x s hp

theorem function (h : Holds good m) {id : Int} {x : String} {f : Function}
    (hf : m.arena.function id x = .ok f) : good (.function f) := by
  obtain ⟨s, hs, hv⟩ := Arena.exists_of_function hf
  exact hv ▸ h.symbol? hs

theorem define (h : Holds good m) (id : Int) (x : String) {v : Value} (hv : good v) :
    Holds good { m with arena := m.arena.define id x v } := by
  refine h.withArena fun place y s hs => ?_
  obtain rfl | hs := Arena.localSymbol?_define hs
  · rwa [Symbol.value_of]
  · exact h.bindings place y s hs

theorem alloc (h : Holds good m) {elements : Array Value} (he : ∀ v ∈ elements, good v) :
    Holds good { m with store := (m.store.alloc elements).2 } := by
  refine h.withStore fun array v hv => ?_
  obtain hv | hv := Store.mem_elements_alloc hv
  · exact he v hv
  · exact h.elements array v hv

theorem update (h : Holds good m) (array slot : Nat) {v : Value} (hv : good v) :
    Holds good { m with store := m.store.update array slot v } := by
  refine h.withStore fun other w hw => ?_
  obtain rfl | hw := Store.mem_elements_update hw
  · exact hv
  · exact h.elements other w hw

theorem reset (h : Holds good m) : Holds good m.reset where
  bindings id x s hs := h.bindings id x s (Arena.localSymbol?_reset hs)
  elements := h.elements
  results := h.results
  flags := rfl

end Holds

/-- How a step ends that keeps to good values: with a result or a failure as given, and in either
case on a machine that holds good values. It gives up only where it may tire. -/
inductive Lands (good : Value → Prop) (fails : Failure → Prop) (tires : Prop) {α : Type}
    (P : α → Prop) : Outcome Machine Failure α → Prop
  | ok {a : α} {m : Machine} (holds : Holds good m) (result : P a) :
    Lands good fails tires P (.ok a m)
  | error {f : Failure} {m : Machine} (holds : Holds good m) (failure : fails f) :
    Lands good fails tires P (.error f m)
  | exhausted (tired : tires) : Lands good fails tires P .exhausted

/-- A step that keeps to good values. -/
def Minds (good : Value → Prop) (fails : Failure → Prop) (tires : Prop) {α : Type} (P : α → Prop)
    (x : Eval α) : Prop :=
  ∀ m, Holds good m → Lands good fails tires P (x m)

/-- Whether a fault stands for trees that no text has. -/
def Fault.isForeign : Fault → Bool
  | unknownOperator _ | notRunnable _ => true
  | _ => false

theorem Fault.isSome_kind? {f : Fault} (h : f.isForeign = false) : f.kind?.isSome := by
  cases f <;> first | rfl | cases h

/-- Whether faults may occur at a place: all but those that stand for trees which no text has. -/
def Open (fails : Failure → Prop) (span : Span) : Prop :=
  ∀ f : Fault, f.isForeign = false → fails ⟨f, span⟩

/-- Whether an operation fails with no faults but those of trees that texts have. -/
def Usual {α : Type} (x : Except Fault α) : Prop := ∀ f, x = .error f → f.isForeign = false

theorem usual_map {α β : Type} {x : Except Fault α} (hx : Usual x) (f : α → β) :
    Usual (x.map f) := by
  intro g hg
  cases x with
  | ok a => cases hg
  | error e =>
    cases hg
    exact hx _ rfl

theorem usual_apply (rule : Rule) (s : Store) (v : Value) : Usual (rule.apply s v) := by
  intro f h
  cases rule with
  | unary op =>
    simp only [Rule.apply, unary] at h
    split at h <;> cases h
    rfl
  | charOf =>
    simp only [Rule.apply, charOfCode] at h
    split at h
    · split at h <;> cases h
      rfl
    · cases h
      rfl
  | codeOf =>
    simp only [Rule.apply, codeOfChar] at h
    split at h
    · split at h <;> cases h
      rfl
    · cases h
      rfl
  | length =>
    simp only [Rule.apply, lengthOf] at h
    split at h <;> cases h
    rfl
  | advance op =>
    simp only [Rule.apply, advanced] at h
    split at h <;> cases h
    rfl

private theorem usual_integerResult {op : Op} (ho : op.isArithmetic) (a b : Int64) :
    Usual (integerResult op a b) := by
  intro f h
  cases op with
  | add | sub | mul => cases h
  | div | mod =>
    simp only [integerResult] at h
    split at h
    · cases h
      rfl
    · cases h
  | _ => cases ho

private theorem usual_floatResult {op : Op} (ho : op.isArithmetic) (x y : Float) :
    Usual (floatResult op x y) := by
  intro f h
  cases op with
  | add | sub | mul => cases h
  | div | mod =>
    simp only [floatResult] at h
    split at h
    · cases h
      rfl
    · cases h
  | _ => cases ho

private theorem usual_repetition (count : Int64) (text : Bytes) :
    Usual (repetition count text) := by
  intro f h
  unfold repetition at h
  split at h
  · cases h
    rfl
  · split at h
    · cases h
    · split at h <;> cases h
      rfl

private theorem usual_operands {α : Type} (op : Op) (l r : Value) :
    Usual (.error (.operands op l.kind r.kind) : Except Fault α) := by
  rintro f ⟨⟩
  rfl

private theorem usual_ok {α : Type} (a : α) : Usual (.ok a) := by
  rintro f ⟨⟩

private theorem usual_arithmetic {op : Op} (ho : op.isArithmetic) (l r : Value) :
    Usual (arithmetic op l r) := by
  unfold arithmetic
  dsimp only
  split
  · exact usual_integerResult ho _ _
  · split
    · exact usual_ok _
    · exact usual_operands _ _ _
  all_goals
    split
    · first | exact usual_repetition _ _ | exact usual_floatResult ho _ _
    · exact usual_operands _ _ _

private theorem usual_equality (op : Op) (l r : Value) : Usual (equality op l r) := by
  unfold equality
  split
  iterate 4 exact usual_ok _
  split
  · exact usual_ok _
  · exact usual_operands _ _ _

private theorem usual_order (op : Op) (l r : Value) : Usual (order op l r) := by
  unfold order
  split
  iterate 2 exact usual_ok _
  split
  · exact usual_ok _
  · exact usual_operands _ _ _

theorem usual_binary {op : Op} (ho : op.isBinary) (l r : Value) : Usual (binary op l r) := by
  cases op with
  | add | sub | mul | div | mod => exact usual_arithmetic rfl l r
  | and | or =>
    simp only [binary]
    split
    · exact usual_ok _
    · exact usual_operands _ _ _
  | eq | ne => exact usual_map (usual_equality _ _ _) _
  | lt | le | gt | ge => exact usual_map (usual_order _ _ _) _
  | not | inc | dec | other => cases ho

/-- Operators that take one operand, or that the language does not have, are refused. -/
theorem binary_unknown {op : Op} (ho : op.isBinary = false) (l r : Value) :
    binary op l r = .error (.unknownOperator op) := by
  cases op <;> first | rfl | cases ho

namespace Minds

section Steps

variable {good : Value → Prop} {fails : Failure → Prop} {tires : Prop} {α β : Type}
  {P : α → Prop} {Q : β → Prop} {span : Span}

theorem pure {a : α} (h : P a) : Minds good fails tires P (Pure.pure a) := fun _ hm => .ok hm h

theorem bind {x : Eval α} {f : α → Eval β} (hx : Minds good fails tires P x)
    (hf : ∀ a, P a → Minds good fails tires Q (f a)) : Minds good fails tires Q (x >>= f) := by
  intro m hm
  have hxm := hx m hm
  rw [Step.bind_apply]
  generalize x m = o at hxm
  cases hxm with
  | ok holds result => exact hf _ result _ holds
  | error holds failure => exact .error holds failure
  | exhausted tired => exact .exhausted tired

theorem mono {R : α → Prop} {x : Eval α} (hx : Minds good fails tires P x) (h : ∀ a, P a → R a) :
    Minds good fails tires R x := by
  intro m hm
  have hxm := hx m hm
  generalize x m = o at hxm
  cases hxm with
  | ok holds result => exact .ok holds (h _ result)
  | error holds failure => exact .error holds failure
  | exhausted tired => exact .exhausted tired

theorem exhausted (tired : tires) : Minds good fails tires P Step.exhausted :=
  fun _ _ => .exhausted tired

theorem gets {f : Machine → α} (h : ∀ m, Holds good m → P (f m)) :
    Minds good fails tires P (Step.gets f) := fun m hm => .ok hm (h m hm)

/-- Whatever is read. -/
theorem reads {f : Machine → α} : Minds good fails tires (fun _ => True) (Step.gets f) :=
  gets fun _ _ => trivial

theorem modify {f : Machine → Machine} (h : ∀ m, Holds good m → Holds good (f m)) :
    Minds good fails tires (fun _ => True) (Step.modify f) := fun m hm => .ok (h m hm) trivial

theorem modifyGet {f : Machine → α × Machine} (h : ∀ m, Holds good m → Holds good (f m).2)
    (hP : ∀ m, Holds good m → P (f m).1) : Minds good fails tires P (Step.modifyGet f) :=
  fun m hm => .ok (h m hm) (hP m hm)

theorem inspect {f : Machine → Eval α} (h : ∀ m, Holds good m → Minds good fails tires P (f m)) :
    Minds good fails tires P (Step.get >>= f) := fun m hm => h m hm m hm

theorem fault (hs : Open fails span) {f : Fault} (hf : f.isForeign = false) :
    Minds good fails tires P (Eval.fault f span) := fun _ hm => .error hm (hs f hf)

/-- A failure that describes a value. -/
theorem described (hs : Open fails span) (v : Value) {f : Bytes → Fault}
    (hf : ∀ text, (f text).isForeign = false) :
    Minds good fails tires P (do let text ← Eval.describe v; Eval.fault (f text) span) :=
  bind reads fun text _ => fault hs (hf text)

theorem ofExcept (hs : Open fails span) {x : Except Fault α} (hx : Usual x)
    (h : ∀ a, x = .ok a → P a) : Minds good fails tires P (Eval.ofExcept span x) := by
  cases x with
  | ok a => exact pure (h a rfl)
  | error f => exact fault hs (hx f rfl)

/-- What is refused for a cause of another sort. -/
theorem ofExcept_mapError {ε : Type} {f : ε → Fault} (hs : Open fails span)
    (hf : ∀ e, (f e).isForeign = false) {x : Except ε α} (h : ∀ a, x = .ok a → P a) :
    Minds good fails tires P (Eval.ofExcept span (x.mapError f)) := by
  cases x with
  | ok a => exact pure (h a rfl)
  | error e => exact fault hs (hf e)

theorem resolve {x : Ident} (hx : Open fails x.span) :
    Minds good fails tires good (Eval.resolve x) := by
  refine inspect fun m hm => ofExcept_mapError hx (fun _ => rfl) fun v hv => ?_
  obtain ⟨s, hs, rfl⟩ := Arena.exists_of_lookup hv
  exact hm.symbol? hs

theorem define {x : String} {v : Value} (hv : good v) :
    Minds good fails tires (fun _ => True) (Eval.define x v) :=
  modify fun m hm => hm.define m.scope x hv

theorem trace (text : Bytes) : Minds good fails tires (fun _ => True) (Eval.trace text) := by
  refine modify fun m hm => ?_
  split
  · exact hm.congr rfl rfl rfl rfl
  · exact hm

theorem remark (text : Bytes) : Minds good fails tires (fun _ => True) (Eval.remark text) := by
  refine modify fun m hm => ?_
  split
  · exact hm.congr rfl rfl rfl rfl
  · exact hm

theorem print (hs : Open fails span) (data : Bytes) :
    Minds good fails tires (fun _ => True) (Eval.print data span) := by
  refine inspect fun m _ => ?_
  cases m.output.write data with
  | ok output => exact modify fun m hm => hm.congr rfl rfl rfl rfl
  | error cause => exact fault hs rfl

theorem readInput (hs : Open fails span) :
    Minds good fails tires (fun _ => True) (Eval.readInput span) :=
  inspect fun _ _ => bind (modify fun _ hm => hm.congr rfl rfl rfl rfl) fun _ _ =>
    ofExcept_mapError hs (fun _ => rfl) fun _ _ => trivial

theorem resolveFile {x : Ident} (hx : Open fails x.span) :
    Minds good fails tires (fun file => file.name = x) (Eval.resolveFile x) := by
  refine bind (resolve hx) fun v _ => ?_
  cases v with
  | file i => exact pure rfl
  | _ => exact described hx _ fun _ => rfl

private theorem handle {file : Eval.FileName} (hx : Open fails file.name.span) :
    Minds good fails tires (fun _ => True) (Eval.handle file) := by
  refine bind reads fun h _ => ?_
  cases h with
  | some h => exact pure trivial
  | none => exact described hx _ fun _ => rfl

private theorem putHandle (file : Eval.FileName) (h : File.Handle) :
    Minds good fails tires (fun _ => True) (Eval.putHandle file h) :=
  modify fun _ hm => hm.congr rfl rfl rfl rfl

theorem readFile {file : Eval.FileName} (hx : Open fails file.name.span) (hs : Open fails span)
    (take : Disk → File.Handle → Except File.Fault α × File.Handle) :
    Minds good fails tires (fun _ => True) (Eval.readFile file span take) :=
  bind reads fun _ _ => bind (handle hx) fun _ _ => bind (putHandle file _) fun _ _ =>
    ofExcept_mapError hs (fun _ => rfl) fun _ _ => trivial

theorem writeFile {file : Eval.FileName} (hx : Open fails file.name.span) (hs : Open fails span)
    (put : Disk → File.Handle → Except File.Fault Unit × File.Handle × Disk) :
    Minds good fails tires (fun _ => True) (Eval.writeFile file span put) :=
  bind reads fun _ _ => bind (handle hx) fun _ _ => bind (putHandle file _) fun _ _ =>
    bind (modify fun _ hm => hm.congr rfl rfl rfl rfl) fun _ _ =>
      ofExcept_mapError hs (fun _ => rfl) fun _ _ => trivial

theorem textOf (hs : Open fails span) (role : String) (v : Value) :
    Minds good fails tires (fun _ => True) (Machine.textOf role v span) := by
  cases v with
  | string text => exact pure trivial
  | _ => exact described hs _ fun _ => rfl

theorem countOf (hs : Open fails span) (v : Value) :
    Minds good fails tires (fun _ => True) (Machine.countOf v span) := by
  cases v with
  | int n =>
    simp only [Machine.countOf]
    split
    · exact pure trivial
    · exact described hs _ fun _ => rfl
  | _ => exact described hs _ fun _ => rfl

theorem rangeBound (hs : Open fails span) (v : Value) :
    Minds good fails tires (fun _ => True) (Machine.rangeBound v span) := by
  cases v with
  | int n => exact pure trivial
  | _ => exact fault hs rfl

theorem arrayStep {array : Ident} (hx : Open fails array.span) :
    Minds good fails tires (fun _ => True) (Act.arrayStep array) := by
  refine bind (resolve hx) fun v _ => ?_
  cases v with
  | array a => exact pure trivial
  | _ => exact described hx _ fun _ => rfl

theorem slotStep (array : Nat) (v : Value) (name : Ident) {indexSpan : Span}
    (hindex : Open fails indexSpan) (hs : Open fails span) :
    Minds good fails tires (fun _ => True) (Act.slotStep array v name indexSpan span) := by
  cases v with
  | int n =>
    refine bind reads fun size _ => ?_
    split
    · exact pure trivial
    · exact fault hs rfl
  | _ => exact described hindex _ fun _ => rfl

theorem signal {jump : Jump} (hj : ∀ v, jump = .returning v → good v) :
    Minds good fails tires (fun _ => True) (Machine.signal jump) :=
  modify fun _ hm => hm.withFlags (hm.flags.raise hj)

theorem endRound : Minds good fails tires (fun _ => True) Machine.endRound :=
  modifyGet (fun _ hm => hm.withFlags hm.flags.endRound) fun _ _ => trivial

theorem callable {callee : Ident} (hx : Open fails callee.span) (hs : Open fails span)
    (given : Nat) :
    Minds good fails tires (fun f => good (.function f) ∧ f.params.length = given)
      (Machine.callable callee given span) := by
  refine inspect fun m hm => ?_
  refine bind (P := fun f => good (.function f))
    (ofExcept_mapError hx (fun _ => rfl) fun f hf => hm.function hf) fun f hf => ?_
  split
  · exact bind (modify fun _ hm => hm.congr rfl rfl rfl rfl) fun _ _ => fault hs rfl
  · split
    · exact fault hs rfl
    · exact pure ⟨hf, by omega⟩

theorem bindParams (hs : Open fails span) (function : String) (scope : Int)
    (params : List (String × Value)) (hp : ∀ p ∈ params, good p.2) :
    Minds good fails tires (fun _ => True) (Machine.bindParams function scope span params) := by
  induction params with
  | nil => exact pure trivial
  | cons p rest ih =>
    obtain ⟨hv, hrest⟩ := List.forall_mem_cons.mp hp
    refine bind reads fun bound _ => ?_
    split
    · exact fault hs rfl
    · exact bind (modify fun m hm => hm.define scope p.1 hv) fun _ _ => ih hrest

theorem recalled? (key : Digest) :
    Minds good fails tires (fun found => ∀ v, found = some v → good v) (Machine.recalled? key) := by
  have hfound : ∀ m, Holds good m → ∀ v, m.memory.entries.lookup key = some v → good v := by
    intro m hm v hv
    obtain ⟨before, after, hsplit, -⟩ := List.lookup_eq_some_iff.mp hv
    exact hm.results (key, v) (by simp [hsplit])
  refine modifyGet (fun m hm => ?_) fun m hm v hv => ?_
  · simp only [Recall.get?]
    cases h : m.memory.entries.lookup key with
    | none =>
      dsimp only [Option.map_none]
      split
      · exact hm.congr rfl rfl rfl rfl
      · exact hm
    | some v =>
      refine (hm.withMemory fun e he => ?_).congr rfl rfl rfl rfl
      obtain _ | ⟨_, he⟩ := he
      · exact hfound m hm v h
      · exact hm.results e (List.mem_of_mem_filter he)
  · simp only [Recall.get?] at hv
    cases h : m.memory.entries.lookup key with
    | none => rw [h] at hv; cases hv
    | some w =>
      rw [h] at hv
      cases hv
      exact hfound m hm v h

theorem remember (key : Digest) {v : Value} (hv : good v) :
    Minds good fails tires (fun _ => True) (Machine.remember key v) := by
  refine modify fun m hm => hm.withMemory fun e he => ?_
  obtain _ | ⟨_, he⟩ := List.mem_of_mem_take he
  · exact hv
  · exact hm.results e (List.mem_of_mem_filter he)

end Steps

end Minds

end Machine

end Kotoba
