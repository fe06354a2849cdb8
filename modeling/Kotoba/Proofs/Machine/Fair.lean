import Kotoba.Proofs.Machine.Guided
import Kotoba.Proofs.Machine.Hold
import Kotoba.Proofs.Machine.Record
import Kotoba.Session

/-! Trees on machines that hold good values only. Whatever a tree does to such a machine, it holds
good values at every moment and afterwards; and every failure is one that may occur at a part of the
tree or of a function that the machine holds. -/
namespace Kotoba

/-- Whether a value is no function, or one whose body has none but fine parts. A name that is still
to be looked up may stand for any. -/
def Value.Runs (fine : Node → Prop) : Value → Prop
  | .function f => ∀ b, f.body = some b → Node.Every fine (.body b)
  | .reference _ => False
  | _ => True

namespace Machine

/-- Which values fine trees may make, and which faults may occur in them. Both go together: a good
function has a body of fine parts, and a definition of fine parts gives a good function. -/
structure Fair (good : Value → Prop) (fine : Node → Prop) (fails : Failure → Prop)
    (tires : Prop) : Prop where
  plain : ∀ {v : Value}, v.isPlain → good v
  settled : ∀ {x : String}, ¬ good (.reference x)
  array : ∀ index, good (.array index)
  file : ∀ index, good (.file index)
  place : ∀ {span : Span}, Stands fine span → Open fails span
  operator : ∀ {layer : Layer} {left right : Expr} {o : Operator} {span : Span},
    fine (.expr (.binary layer left o right span)) → o.op.isBinary = false →
    fails ⟨.unknownOperator o.op, span⟩
  loop : AllowsLoops fine → tires
  body : ∀ {f : Function} {b : Body}, good (.function f) → f.body = some b →
    Node.Every fine (.body b)
  define : ∀ {f : FuncDef}, Node.Every fine (.function f) → good (.function (.ofDef f))

/-- Trees that are fine make no functions but such as have fine bodies. -/
theorem fair_runs {fine : Node → Prop} {fails : Failure → Prop} {tires : Prop}
    (place : ∀ {span : Span}, Stands fine span → Open fails span)
    (operator : ∀ {layer : Layer} {left right : Expr} {o : Operator} {span : Span},
      fine (.expr (.binary layer left o right span)) → o.op.isBinary = false →
      fails ⟨.unknownOperator o.op, span⟩)
    (loop : AllowsLoops fine → tires) : Fair (Value.Runs fine) fine fails tires where
  plain {v} hv := by cases v <;> trivial
  settled := id
  array _ := trivial
  file _ := trivial
  place := place
  operator := operator
  loop := loop
  body hgood hb := hgood _ hb
  define {f} hf b hb :=
    hf.child (by simp [show f.body = some b from hb])

namespace Minds

section Acts

variable {good : Value → Prop} {fails : Failure → Prop} {tires : Prop} {span : Span}

theorem slotValue (hnull : good .null) (array slot : Nat) :
    Minds good fails tires good (Machine.slotValue array slot) := by
  refine gets fun m hm => ?_
  cases hv : (m.store.elements array)[slot]? with
  | none => exact hnull
  | some v => exact hm.elements array v (Array.mem_of_getElem? hv)

theorem alloc (ha : ∀ index, good (.array index)) {elements : Array Value}
    (he : ∀ v ∈ elements, good v) : Minds good fails tires good (Eval.alloc elements) :=
  modifyGet (fun _ hm => hm.alloc he) fun _ _ => ha _

theorem sizedArray (ha : ∀ index, good (.array index)) (hnull : good .null)
    (hs : Open fails span) (v : Value) :
    Minds good fails tires good (Machine.sizedArray v span) := by
  cases v with
  | int n =>
    simp only [Machine.sizedArray]
    split
    · exact described hs _ fun _ => rfl
    · split
      · exact fault hs rfl
      · refine alloc ha fun v hv => ?_
        rw [Array.eq_of_mem_replicate hv]
        exact hnull
  | _ => exact described hs _ fun _ => rfl

theorem openFile (hfile : ∀ index, good (.file index)) (hs : Open fails span) (target : Ident)
    (path mode : Bytes) :
    Minds good fails tires (fun _ => True) (Eval.openFile target path mode span) := by
  refine bind reads fun disk _ => ?_
  cases File.Handle.openAt disk path mode with
  | error f => exact fault hs rfl
  | ok opened =>
    refine bind (trace _) fun _ _ => bind (P := good) ?_ fun v hv => define hv
    exact modifyGet (fun _ hm => hm.congr rfl rfl rfl rfl) fun _ _ => hfile _

theorem applied (hp : ∀ {v : Value}, v.isPlain → good v) (hs : Open fails span) (rule : Rule)
    (v : Value) : Minds good fails tires good (Machine.applied rule.apply v span) :=
  bind reads fun store _ =>
    ofExcept hs (usual_apply rule store v) fun _ hw => hp (isPlain_of_apply hw)

theorem defineFunction {f : FuncDef} (h : good (.function (.ofDef f))) :
    Minds good fails tires (fun _ => True) (Machine.defineFunction f) :=
  bind (trace _) fun _ _ => bind (define h) fun _ _ =>
    modify fun _ hm => hm.withMemory (by rintro e ⟨⟩)

theorem enter (f : Function) : Minds good fails tires (fun _ => True) (Machine.enter f span) := by
  refine modifyGet (fun m hm => ?_) fun _ _ => trivial
  exact (hm.withArena fun id x s hx =>
    hm.bindings id x s (Arena.localSymbol?_push hx)).congr rfl rfl rfl rfl

theorem leave (scope : Int) : Minds good fails tires (fun _ => True) (Machine.leave scope) := by
  refine modify fun m hm => ?_
  exact (hm.withArena fun id x s hx =>
    hm.bindings id x s (Arena.localSymbol?_pop hx)).congr rfl rfl rfl rfl

theorem swapIn (scope : Int) :
    Minds good fails tires (fun _ => True) (Medium.swapIn scope) :=
  modifyGet (fun _ hm => ⟨hm.bindings, hm.elements, hm.results, hm.flags⟩) fun _ _ => trivial

theorem swapOut (hnull : good .null) (saved : Medium.Saved) :
    Minds good fails tires good (Medium.swapOut saved) :=
  modifyGet (fun _ hm => ⟨hm.bindings, hm.elements, hm.results, rfl⟩) fun _ hm =>
    hm.flags.result hnull

variable {fine : Node → Prop} (F : Fair good fine fails tires)
include F

/-- Acts for which there is a fine part keep to good values. -/
theorem act {α : Type} (a : Act α) (hs : a.Suits fine) (ht : a.Takes good) :
    Minds good fails tires (a.Gives good) a.perform := by
  have named : ∀ {x : Ident}, fine x.node → Open fails x.span := fun h => F.place ⟨_, h, rfl, rfl⟩
  cases a with
  | resolve x => exact resolve (F.place hs)
  | apply rule v span => exact applied F.plain (F.place hs) rule v
  | combine op l r span =>
    obtain ⟨layer, left, o, right, hfine, rfl⟩ := hs
    cases ho : o.op.isBinary with
    | true =>
      exact ofExcept (F.place ⟨_, hfine, rfl, rfl⟩) (usual_binary ho l r) fun _ hw =>
        F.plain (isPlain_of_binary hw)
    | false =>
      rw [Act.perform, binary_unknown ho]
      exact fun _ hm => .error hm (F.operator hfine ho)
  | callable x given span => exact callable (named hs.1) (F.place hs.2) given
  | print data span => exact print (F.place hs) data
  | readInput span => exact readInput (F.place hs)
  | arrayOf x => exact arrayStep (named hs)
  | slotIn a v x indexSpan span => exact slotStep a v x (F.place hs.1) (F.place hs.2)
  | slotValue a slot => exact slotValue (F.plain rfl) a slot
  | fileOf x => exact resolveFile (named hs)
  | countOf v span => exact countOf (F.place hs) v
  | readText file count span => exact readFile (named hs.1) (F.place hs.2) _
  | readLine file span => exact readFile (named hs.1) (F.place hs.2) _
  | atEnd file span => exact readFile (named hs.1) (F.place hs.2) _
  | signal jump =>
    refine signal ?_
    rintro v rfl
    exact ht
  | isRaised => exact reads
  | endRound => exact endRound
  | define name v => exact define ht
  | truthy v => exact reads
  | format v => exact reads
  | rangeBound v span => exact rangeBound (F.place hs) v
  | textOf role v span => exact textOf (F.place hs) role v
  | openFile target path mode span => exact openFile F.file (F.place hs) target path mode
  | closeFile file span => exact writeFile (named hs.1) (F.place hs.2) _
  | writeText file text span => exact writeFile (named hs.1) (F.place hs.2) _
  | sizedArray v span => exact sizedArray F.array (F.plain rfl) (F.place hs) v
  | alloc elements => exact alloc F.array ht
  | setSlot a slot v => exact modify fun _ hm => hm.update a slot ht
  | defineFunction f => exact defineFunction (F.define hs)
  | exhaust => exact exhausted (F.loop hs)
  | refuse n => cases hs

end Acts

end Minds

section Walks

variable {α : Type} {good : Value → Prop} {fails : Failure → Prop} {P : α → Prop}

/-- Whether a machine holds none but good values at a moment, and none but such are noticed. -/
def Moment.Bears (good : Value → Prop) (moment : Moment) : Prop :=
  Holds good moment.machine ∧ moment.note.Bears good

/-- A way to do acts that agrees with what machines do wherever the values given are good. -/
def Agrees (good : Value → Prop) (perform : (α : Type) → Act α → Recorded α) : Prop :=
  ∀ {α : Type} (a : Act α), a.Takes good → perform α a = recorded.lift a.perform

theorem agrees_lift (good : Value → Prop) : Agrees good fun _ a => recorded.lift a.perform :=
  fun _ _ => rfl

/-- A recorded step that keeps to good values, at every moment, and one that is the same on machines
which hold such. -/
def Tends (good : Value → Prop) (fails : Failure → Prop) {α : Type} (P : α → Prop)
    (x y : Recorded α) : Prop :=
  ∀ m, Holds good m →
    Lands good fails True P (x m).1 ∧ (∀ moment ∈ (x m).2, moment.Bears good) ∧ y m = x m

namespace Tends

variable {β : Type} {Q : β → Prop} {x y : Recorded α}

theorem mono {R : α → Prop} (hx : Tends good fails P x y) (h : ∀ a, P a → R a) :
    Tends good fails R x y := by
  intro m hm
  obtain ⟨hl, hall, hy⟩ := hx m hm
  refine ⟨?_, hall, hy⟩
  generalize (x m).1 = o at hl
  cases hl with
  | ok holds result => exact .ok holds (h _ result)
  | error holds failure => exact .error holds failure
  | exhausted => exact .exhausted trivial

theorem pure {a : α} (ha : P a) : Tends good fails P (Pure.pure a) (Pure.pure a) :=
  fun _ hm => ⟨.ok hm ha, by simp, rfl⟩

theorem bind {f g : α → Recorded β} (hx : Tends good fails P x y)
    (hf : ∀ a, P a → Tends good fails Q (f a) (g a)) :
    Tends good fails Q (x >>= f) (y >>= g) := by
  intro m hm
  obtain ⟨hl, hall, hy⟩ := hx m hm
  rw [Recorded.bind_apply, Recorded.bind_apply, hy]
  rcases hxm : x m with ⟨o, past⟩
  rw [hxm] at hl hall
  cases hl with
  | ok holds result =>
    obtain ⟨hf, hmore, hg⟩ := hf _ result _ holds
    exact ⟨hf, List.forall_mem_append.mpr ⟨hall, hmore⟩, by dsimp only; rw [hg]⟩
  | error holds failure => exact ⟨.error holds failure, hall, rfl⟩
  | exhausted => exact ⟨.exhausted trivial, hall, rfl⟩

theorem lift {x : Eval α} (hx : Minds good fails True P x) :
    Tends good fails P (recorded.lift x) (recorded.lift x) :=
  fun m hm => ⟨hx m hm, by simp [recorded], rfl⟩

theorem note {n : Note} (hn : n.Bears good) :
    Tends good fails (fun _ => True) (recorded.note n) (recorded.note n) :=
  fun m hm => ⟨.ok hm trivial, by simpa [recorded] using ⟨hm, hn⟩, rfl⟩

section Calls

variable {perform : (α : Type) → Act α → Recorded α}

theorem within (hnull : good .null) {run run' : Option Body → Recorded Unit} (scope : Int)
    {body : Option Body} (hr : Tends good fails (fun _ => True) (run body) (run' body)) :
    Tends good fails good (recorded.within run scope body)
      ({ recorded with perform := perform _ }.within run' scope body) :=
  bind (lift (.swapIn scope)) fun saved _ => bind hr fun _ _ => lift (.swapOut hnull saved)

theorem call {run run' : Int → Option Body → Recorded Value} {f : Function}
    {arguments : List Value} {span : Span} (hs : Open fails span) (ha : ∀ v ∈ arguments, good v)
    (hr : ∀ scope, Tends good fails good (run scope f.body) (run' scope f.body)) :
    Tends good fails good (recorded.call run f arguments span)
      ({ recorded with perform := perform _ }.call run' f arguments span) := by
  have hparams : ∀ p ∈ f.params.zip arguments, good p.2 := fun p hp =>
    ha p.2 (List.of_mem_zip hp).2
  refine bind (lift (.enter f)) fun scope _ =>
    bind (lift (.bindParams hs f.name scope _ hparams)) fun _ _ => bind (note ha) fun _ _ =>
    bind (lift .reads) fun key _ => bind (lift .reads) fun depth _ =>
    bind (lift (.recalled? key)) fun found hfound => ?_
  cases found with
  | some v =>
    have hv : good v := hfound v rfl
    exact bind (lift (.remark _)) fun _ _ => bind (lift (.leave scope)) fun _ _ =>
      bind (note hv) fun _ _ => pure hv
  | none =>
    exact bind (lift (.trace _)) fun _ _ => bind (hr scope) fun v hv =>
      bind (lift (.leave scope)) fun _ _ => bind (lift (.remember key hv)) fun _ _ =>
      bind (note hv) fun _ _ => pure hv

end Calls

end Tends

/-- Steps that keep to good values. -/
def tending (good : Value → Prop) (fails : Failure → Prop) : Bridge Recorded Recorded where
  Rel := Tends good fails
  pure := .pure
  bind := .bind

variable {fine : Node → Prop} (F : Fair good fine fails True)
include F

section Acts

variable {perform : (α : Type) → Act α → Recorded α} (hperform : Agrees good perform)
include hperform

private theorem tends_act {α : Type} (a : Act α) (hs : a.Suits fine) (ht : a.Takes good) :
    Tends good fails (a.Gives good) (recorded.lift a.perform) (perform α a) := by
  rw [hperform a ht]
  exact .lift (.act F a hs ht)

/-- A call needs to keep to good values for good functions only. -/
private theorem guided_of_call {call call' : Function → List Value → Span → Recorded Value}
    (hc : ∀ f args span, good (.function f) → (∀ v ∈ args, good v) → Open fails span →
      Tends good fails good (call f args span) (call' f args span)) :
    Guided (tending good fails) { recorded with call := call }
      { { recorded with perform := perform _ } with call := call' } good fine where
  plain := F.plain
  settled := F.settled
  note _ hn := .note hn
  act a hs ht := tends_act F hperform a hs ht
  invoke callee given span _ _ hx hspan hxy :=
    .bind (tends_act F hperform (.callable callee given span) ⟨hx, hspan⟩ trivial) fun f hf =>
      .bind hxy fun args ha => hc f args span hf.1 ha.1 (F.place hspan)

theorem Fair.guided (rounds depth : Nat) :
    Guided (tending good fails) (recorded.host rounds depth)
      ({ recorded with perform := perform _ }.host rounds depth) good fine := by
  induction depth with
  | zero =>
    exact guided_of_call F hperform fun f args span _ ha hs => Tends.call hs ha fun scope =>
      Tends.within (F.plain rfl) scope (.lift (.exhausted trivial))
  | succ depth ih =>
    exact guided_of_call F hperform fun f args span hf ha hs => Tends.call hs ha fun scope =>
      Tends.within (F.plain rfl) scope (ih.body? (fun _ => rfl) f.body fun b hb => F.body hf hb)

/-- A machine that holds good values does so at every moment of the evaluation of a fine tree, and
the result is good, unless it is none or the tree is no more than a name. It makes no difference what
acts would do with other values. -/
theorem Fair.walkBy (rounds : Nat) {n : Node} (hn : Runnable n) (h : n.Every fine) :
    Tends good fails
      (fun v => v = .nothing ∨ (∃ x, n = .expr (.name x) ∧ v = .reference x.name) ∨ good v)
      (walk rounds n) (walkBy perform rounds n) := fun m hm =>
  (F.guided hperform rounds (m.settings.maxDepth + 1)).node (fun _ => rfl) hn h (.inl rfl)
    (fun x hx => .inr (.inl ⟨x, hx, rfl⟩)) (fun hx => hx.mono fun _ hv => .inr (.inr hv)) m hm

end Acts

/-- The result that is left at the end is good, or none. -/
private theorem Minds.conclude {n : Node} (h : n.Every fine) {v : Value}
    (hv : v = .nothing ∨ (∃ x, n = .expr (.name x) ∧ v = .reference x.name) ∨ good v) :
    Minds good fails True (fun v => v = .nothing ∨ good v) (Machine.conclude n.span v) := by
  intro m hm
  have hclear : Holds good { m with flags := {} } := hm.withFlags rfl
  have hkept : ∀ w, good w → Lands good fails True (fun v => v = .nothing ∨ good v)
      (Machine.conclude n.span w { m with flags := {} }) := by
    intro w hw
    cases w with
    | reference x => exact absurd hw F.settled
    | _ => exact .ok hclear (.inr hw)
  rw [conclude_lowered]
  split
  case isTrue hr => exact hkept _ (hm.flags.returned hr)
  case isFalse hr =>
    obtain rfl | ⟨x, rfl, rfl⟩ | hgood := hv
    · exact .ok hclear (.inl rfl)
    · exact (resolve (F.place h.atExpr)).mono (fun _ => .inr) _ hclear
    · exact hkept v hgood

/-- A machine that holds good values still does after the interpretation of a fine tree, and a
failure is one that may occur. -/
theorem Minds.interpret (rounds : Nat) {n : Node} (hn : Runnable n) (h : n.Every fine) :
    Minds good fails True (fun v => v = .nothing ∨ good v) (Machine.interpret rounds n) := by
  intro m hm
  obtain ⟨hl, -⟩ := F.walkBy (agrees_lift good) rounds hn h m hm
  rw [← concluded_walk]
  generalize (Machine.walk rounds n m).1 = o at hl
  cases hl with
  | ok holds result => exact conclude F h result _ holds
  | error holds failure => exact .error holds.reset failure
  | exhausted => exact .exhausted trivial

end Walks

/-- A machine that was not used yet holds nothing. -/
theorem holds_fresh (good : Value → Prop) (m : Machine) (ha : m.arena = {})
    (hs : m.store.arrays = #[]) (hr : m.memory.entries = []) (hf : m.flags = {}) :
    Holds good m where
  bindings id x s h := by
    rw [ha] at h
    cases id with
    | negSucc n => cases h
    | ofNat n => cases n <;> cases h
  elements array v hv := by
    rw [Store.elements, hs] at hv
    simp at hv
  results e he := by
    rw [hr] at he
    cases he
  flags := by rw [hf]; rfl

end Machine

/-- A machine that holds good values still does after a text is run that is parsed as a fine tree,
and a value which that gives is good. -/
theorem Session.run_fair {good : Value → Prop} {fine : Node → Prop}
    {fails : Machine.Failure → Prop} (F : Machine.Fair good fine fails True) (rounds : Nat)
    (r : Reading) {text : Bytes}
    {parse : Token.Limits → Bytes → Outcome Syntax.State Diagnostic (Option Node)}
    (hparse : ∀ n s, parse r.limits text = .ok (some n) s → Machine.Runnable n ∧ n.Every fine)
    {m : Machine} (h : Machine.Holds good m) :
    Machine.Holds good (run rounds r parse text m).2 ∧
      ∀ v, (run rounds r parse text m).1 = .value v → v = .nothing ∨ good v := by
  have hlogged : ∀ s, Machine.Holds good (noteParse r s m) := fun s => h.congr rfl rfl rfl rfl
  unfold run
  cases hp : parse r.limits text with
  | ok node s =>
    cases node with
    | none =>
      refine ⟨hlogged s, ?_⟩
      rintro v ⟨⟩
      exact .inl rfl
    | some n =>
      obtain ⟨hn, hfine⟩ := hparse n s hp
      have hend := Machine.Minds.interpret F rounds hn hfine (noteParse r s m) (hlogged s)
      simp only [interpret]
      generalize Machine.interpret rounds n (noteParse r s m) = o at hend
      cases hend with
      | ok holds result =>
        refine ⟨holds, ?_⟩
        rintro v ⟨⟩
        exact result
      | error holds => exact ⟨holds, by rintro v ⟨⟩⟩
      | exhausted => exact ⟨hlogged s, by rintro v ⟨⟩⟩
  | error d s => exact ⟨hlogged s, by rintro v ⟨⟩⟩
  | exhausted => exact ⟨h, by rintro v ⟨⟩⟩

end Kotoba
