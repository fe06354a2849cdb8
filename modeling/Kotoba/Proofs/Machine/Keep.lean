import Kotoba.Proofs.Machine.Act

/-! Parts of a machine that acts leave as they are. -/
namespace Kotoba

namespace Step

variable {σ ε α β γ : Type} {part : σ → γ}

/-- Whether a part of the state is as it was, however the computation ends. -/
def Keeps (part : σ → γ) (x : Step σ ε α) : Prop :=
  ∀ s, match x s with
    | .ok _ s' => part s' = part s
    | .error _ s' => part s' = part s
    | .exhausted => True

namespace Keeps

theorem pure (a : α) : Keeps part (Pure.pure a : Step σ ε α) := fun _ => rfl

theorem bind {x : Step σ ε α} {f : α → Step σ ε β} (hx : Keeps part x)
    (hf : ∀ a, Keeps part (f a)) : Keeps part (x >>= f) := by
  intro s
  have h := hx s
  rw [bind_apply]
  cases hxs : x s with
  | ok a t =>
    rw [hxs] at h
    have h' := hf a t
    simp only
    cases hft : f a t with
    | ok b u => rw [hft] at h'; exact h'.trans h
    | error e u => rw [hft] at h'; exact h'.trans h
    | exhausted => trivial
  | error e t => rw [hxs] at h; exact h
  | exhausted => trivial

theorem fail (e : ε) : Keeps part (Step.fail e : Step σ ε α) := fun _ => rfl

theorem exhausted : Keeps part (Step.exhausted : Step σ ε α) := fun _ => trivial

theorem get : Keeps part (Step.get : Step σ ε σ) := fun _ => rfl

theorem gets (f : σ → α) : Keeps part (Step.gets f : Step σ ε α) := fun _ => rfl

theorem modify {f : σ → σ} (hf : ∀ s, part (f s) = part s) :
    Keeps part (Step.modify f : Step σ ε Unit) := hf

theorem modifyGet {f : σ → α × σ} (hf : ∀ s, part (f s).2 = part s) :
    Keeps part (Step.modifyGet f : Step σ ε α) := hf

/-- What is kept after a success. -/
theorem of_ok {x : Step σ ε α} (hx : Keeps part x) {s s' : σ} {a : α} (h : x s = .ok a s') :
    part s' = part s := by
  have hs := hx s
  rw [h] at hs
  exact hs

/-- What is kept after a failure. -/
theorem of_error {x : Step σ ε α} (hx : Keeps part x) {s s' : σ} {e : ε} (h : x s = .error e s') :
    part s' = part s := by
  have hs := hx s
  rw [h] at hs
  exact hs

end Keeps

end Step

namespace Machine

open Step (Keeps)

variable {α β : Type} {part : Machine → β}

/-- Whether an act neither jumps nor calls nor defines a function. -/
def Act.isOrdinary : Act α → Bool
  | callable .. | signal _ | endRound | defineFunction _ => false
  | _ => true

/-- Whether an act binds a name. -/
def Act.isBinding : Act α → Bool
  | define .. | openFile .. => true
  | _ => false

/-- Whether an act looks up a function that is to be called. -/
def Act.isLookUp : Act α → Bool
  | callable .. => true
  | _ => false

/-- Whether an act reads a line of the input. -/
def Act.isInput : Act α → Bool
  | readInput _ => true
  | _ => false

/-- Whether an act takes notice of the limit on active calls or of the flags. -/
def Act.isHeedful : Act α → Bool
  | callable .. | signal _ | isRaised | endRound => true
  | _ => false

/-- Whether an act makes or writes an array. -/
def Act.isArray : Act α → Bool
  | sizedArray .. | alloc _ | setSlot .. => true
  | _ => false

/-- Acts do not touch a part of the machine when they neither make or write arrays nor read the
input nor bind a name nor jump nor call nor define a function. -/
structure Aloof (part : Machine → β) : Prop where
  files : ∀ m files, part { m with store := { m.store with files := files } } = part m
  disk : ∀ m disk, part { m with disk := disk } = part m
  output : ∀ m output, part { m with output := output } = part m
  log : ∀ m log, part { m with log := log } = part m

/-- Acts do not touch a part of the machine when they neither read the input nor bind a name nor
jump nor call nor define a function. -/
structure Offline (part : Machine → β) : Prop where
  store : ∀ m store, part { m with store := store } = part m
  disk : ∀ m disk, part { m with disk := disk } = part m
  output : ∀ m output, part { m with output := output } = part m
  log : ∀ m log, part { m with log := log } = part m

/-- Acts do not touch a part of the machine when they neither bind a name nor jump nor call nor
define a function. -/
structure Aside (part : Machine → β) : Prop extends Offline part where
  input : ∀ m input, part { m with input := input } = part m

/-- Ordinary acts do not touch a part of the machine. -/
structure Apart (part : Machine → β) : Prop extends Aside part where
  bind : ∀ m scope name v, part { m with arena := m.arena.define scope name v } = part m

/-- Neither ordinary acts nor jumps touch a part of the machine, and it does not matter to it which
results of calls are remembered. -/
structure Steady (part : Machine → β) : Prop extends Apart part where
  flags : ∀ m flags, part { m with flags := flags } = part m
  memory : ∀ m memory hits misses,
    part { m with memory := memory, hits := hits, misses := misses } = part m

/-- Calls do not touch a part of the machine either. -/
structure Remote (part : Machine → β) : Prop extends Apart part where
  arena : ∀ m arena, part { m with arena := arena } = part m
  frames : ∀ m frames, part { m with frames := frames } = part m

/-- The work around the body of a call does not touch a part of the machine. -/
structure Beside (part : Machine → β) : Prop extends Aloof part where
  arena : ∀ m arena, part { m with arena := arena } = part m
  frames : ∀ m frames, part { m with frames := frames } = part m
  memory : ∀ m memory hits misses,
    part { m with memory := memory, hits := hits, misses := misses } = part m

theorem remote_flags : Remote (·.flags) := by
  refine ⟨⟨⟨?_, fun _ _ => rfl⟩, fun _ _ _ _ => rfl⟩, fun _ _ => rfl, fun _ _ => rfl⟩
  constructor <;> intros <;> rfl

theorem remote_memory : Remote (·.memory) := by
  refine ⟨⟨⟨?_, fun _ _ => rfl⟩, fun _ _ _ _ => rfl⟩, fun _ _ => rfl, fun _ _ => rfl⟩
  constructor <;> intros <;> rfl

theorem keeps_fault (f : Fault) (span : Span) : Keeps part (Eval.fault f span : Eval α) :=
  Keeps.fail _

theorem keeps_ofExcept (span : Span) (x : Except Fault α) : Keeps part (Eval.ofExcept span x) := by
  cases x with
  | ok a => exact Keeps.pure a
  | error f => exact keeps_fault f span

theorem keeps_resolve (x : Ident) : Keeps part (Eval.resolve x) :=
  Keeps.bind Keeps.get fun _ => keeps_ofExcept _ _

/-- A failure that describes a value. -/
theorem keeps_described (v : Value) (f : Bytes → Fault) (span : Span) :
    Keeps part (do let text ← Eval.describe v; Eval.fault (f text) span : Eval α) :=
  Keeps.bind (Keeps.gets _) fun _ => keeps_fault _ _

namespace Aloof

theorem trace (ha : Aloof part) (message : Bytes) : Keeps part (Eval.trace message) := by
  refine Keeps.modify fun m => ?_
  split
  · exact ha.log m _
  · rfl

theorem remark (ha : Aloof part) (message : Bytes) : Keeps part (Eval.remark message) := by
  refine Keeps.modify fun m => ?_
  split
  · exact ha.log m _
  · rfl

private theorem print (ha : Aloof part) (data : Bytes) (span : Span) :
    Keeps part (Eval.print data span) := by
  refine Keeps.bind Keeps.get fun m => ?_
  cases m.output.write data with
  | ok output => exact Keeps.modify fun m => ha.output m _
  | error cause => exact keeps_fault _ _

private theorem handle (file : Eval.FileName) : Keeps part (Eval.handle file) := by
  refine Keeps.bind (Keeps.gets _) fun h => ?_
  cases h with
  | some h => exact Keeps.pure h
  | none => exact keeps_described _ _ _

private theorem putHandle (ha : Aloof part) (file : Eval.FileName) (h : File.Handle) :
    Keeps part (Eval.putHandle file h) := Keeps.modify fun m => ha.files m _

private theorem readFile (ha : Aloof part) (file : Eval.FileName) (span : Span)
    (take : Disk → File.Handle → Except File.Fault α × File.Handle) :
    Keeps part (Eval.readFile file span take) :=
  Keeps.bind (Keeps.gets _) fun _ => Keeps.bind (handle file) fun _ =>
    Keeps.bind (ha.putHandle file _) fun _ => keeps_ofExcept _ _

private theorem writeFile (ha : Aloof part) (file : Eval.FileName) (span : Span)
    (put : Disk → File.Handle → Except File.Fault Unit × File.Handle × Disk) :
    Keeps part (Eval.writeFile file span put) :=
  Keeps.bind (Keeps.gets _) fun _ => Keeps.bind (handle file) fun _ =>
    Keeps.bind (ha.putHandle file _) fun _ =>
    Keeps.bind (Keeps.modify fun m => ha.disk m _) fun _ => keeps_ofExcept _ _

private theorem openFile (ha : Aloof part)
    (hd : ∀ name v, Keeps part (Eval.define name v)) (target : Ident) (path mode : Bytes)
    (span : Span) : Keeps part (Eval.openFile target path mode span) := by
  refine Keeps.bind (Keeps.gets _) fun disk => ?_
  cases File.Handle.openAt disk path mode with
  | error f => exact keeps_fault _ _
  | ok opened =>
    refine Keeps.bind (ha.trace _) fun _ => Keeps.bind (Keeps.modifyGet fun m => ?_) fun v =>
      hd _ v
    exact (ha.disk { m with store := (m.store.adopt opened.1).2 } opened.2).trans (ha.files m _)

/-- An act that binds a name keeps what binding a name keeps. -/
theorem act (ha : Aloof part) (a : Act α) (h : a.isOrdinary) (hinput : a.isInput = false)
    (harray : a.isArray = false) (hd : a.isBinding → ∀ name v, Keeps part (Eval.define name v)) :
    Keeps part a.perform := by
  cases a with
  | resolve x => exact keeps_resolve x
  | apply rule v span => exact Keeps.bind (Keeps.gets _) fun _ => keeps_ofExcept _ _
  | combine op l r span => exact keeps_ofExcept _ _
  | print data span => exact ha.print data span
  | readInput => cases hinput
  | arrayOf x =>
    refine Keeps.bind (keeps_resolve x) fun v => ?_
    cases v with
    | array a => exact Keeps.pure a
    | _ => exact keeps_described _ _ _
  | slotIn a i x indexSpan span =>
    cases i with
    | int n =>
      refine Keeps.bind (Keeps.gets _) fun size => ?_
      split
      · exact Keeps.pure _
      · exact keeps_fault _ _
    | _ => exact keeps_described _ _ _
  | slotValue a slot => exact Keeps.gets _
  | fileOf x =>
    refine Keeps.bind (keeps_resolve x) fun v => ?_
    cases v with
    | file i => exact Keeps.pure _
    | _ => exact keeps_described _ _ _
  | countOf v span =>
    cases v with
    | int n =>
      simp only [Act.perform, countOf]
      split
      · exact Keeps.pure _
      · exact keeps_described _ _ _
    | _ => exact keeps_described _ _ _
  | readText file count span => exact ha.readFile file span _
  | readLine file span => exact ha.readFile file span _
  | atEnd file span => exact ha.readFile file span _
  | isRaised => exact Keeps.gets _
  | define name v => exact hd rfl name v
  | truthy v => exact Keeps.gets _
  | format v => exact Keeps.gets _
  | rangeBound v span =>
    cases v with
    | int n => exact Keeps.pure n
    | _ => exact keeps_fault _ _
  | textOf role v span =>
    cases v with
    | string text => exact Keeps.pure text
    | _ => exact keeps_described _ _ _
  | openFile target path mode span => exact ha.openFile (hd rfl) target path mode span
  | closeFile file span => exact ha.writeFile file span _
  | writeText file text span => exact ha.writeFile file span _
  | exhaust => exact Keeps.exhausted
  | refuse node => exact keeps_fault _ _
  | sizedArray | alloc | setSlot => cases harray
  | callable | signal | endRound | defineFunction => simp [Act.isOrdinary] at h

end Aloof

namespace Offline

theorem aloof (ha : Offline part) : Aloof part where
  files m _ := ha.store m _
  disk := ha.disk
  output := ha.output
  log := ha.log

theorem alloc (ha : Offline part) (elements : Array Value) : Keeps part (Eval.alloc elements) :=
  Keeps.modifyGet fun m => ha.store m _

theorem trace (ha : Offline part) (message : Bytes) : Keeps part (Eval.trace message) :=
  ha.aloof.trace message

theorem remark (ha : Offline part) (message : Bytes) : Keeps part (Eval.remark message) :=
  ha.aloof.remark message

private theorem sizedArray (ha : Offline part) (v : Value) (span : Span) :
    Keeps part (Machine.sizedArray v span) := by
  cases v with
  | int n =>
    simp only [Machine.sizedArray]
    split
    · exact keeps_described _ _ _
    · split
      · exact keeps_fault _ _
      · exact ha.alloc _
  | _ => exact keeps_described _ _ _

/-- An act that binds a name keeps what binding a name keeps. -/
theorem act (ha : Offline part) (a : Act α) (h : a.isOrdinary) (hinput : a.isInput = false)
    (hd : a.isBinding → ∀ name v, Keeps part (Eval.define name v)) : Keeps part a.perform := by
  cases a with
  | sizedArray v span => exact ha.sizedArray v span
  | alloc elements => exact ha.alloc elements
  | setSlot a slot v => exact Keeps.modify fun m => ha.store m _
  | _ => exact ha.aloof.act _ h hinput rfl hd

end Offline

namespace Aside

private theorem readInput (ha : Aside part) (span : Span) : Keeps part (Eval.readInput span) :=
  Keeps.bind Keeps.get fun _ => Keeps.bind (Keeps.modify fun m => ha.input m _) fun _ =>
    keeps_ofExcept _ _

theorem act (ha : Aside part) (a : Act α) (h : a.isOrdinary)
    (hd : a.isBinding → ∀ name v, Keeps part (Eval.define name v)) : Keeps part a.perform := by
  cases a with
  | readInput span => exact ha.readInput span
  | _ => exact ha.toOffline.act _ h rfl hd

end Aside

/-- To bind parameters is no more than to bind names. -/
theorem keeps_bindParams (hb : ∀ m scope name v,
      part { m with arena := m.arena.define scope name v } = part m) (function : String)
    (scope : Int) (span : Span) (params : List (String × Value)) :
    Keeps part (Machine.bindParams function scope span params) := by
  induction params with
  | nil => exact Keeps.pure ()
  | cons param rest ih =>
    obtain ⟨name, v⟩ := param
    refine Keeps.bind (Keeps.gets _) fun bound => ?_
    split
    · exact keeps_fault _ _
    · exact Keeps.bind (Keeps.modify fun m => hb m _ _ _) fun _ => ih

namespace Apart

theorem define (ha : Apart part) (name : String) (v : Value) : Keeps part (Eval.define name v) :=
  Keeps.modify fun m => ha.bind m _ _ _

theorem act (ha : Apart part) (a : Act α) (h : a.isOrdinary) : Keeps part a.perform :=
  ha.toAside.act a h fun _ => ha.define

theorem bindParams (ha : Apart part) (function : String) (scope : Int) (span : Span)
    (params : List (String × Value)) :
    Keeps part (Machine.bindParams function scope span params) :=
  keeps_bindParams ha.bind function scope span params

end Apart

/-- A call that is refused may drop the frames, and leaves the rest as it is. -/
theorem keeps_callable (hf : ∀ m frames, part { m with frames := frames } = part m)
    (callee : Ident) (given : Nat) (span : Span) :
    Keeps part (Machine.callable callee given span) := by
  refine Keeps.bind Keeps.get fun m => Keeps.bind (keeps_ofExcept _ _) fun f => ?_
  split
  · exact Keeps.bind (Keeps.modify fun m => hf m _) fun _ => keeps_fault _ _
  · split
    · exact keeps_fault _ _
    · exact Keeps.pure f

theorem keeps_signal (hf : ∀ m flags, part { m with flags := flags } = part m) (jump : Jump) :
    Keeps part (Machine.signal jump) := Keeps.modify fun m => hf m _

/-- At the end of a round no more is dealt with than a jump. -/
theorem keeps_endRound (hf : ∀ m flags, part { m with flags := flags } = part m) :
    Keeps part Machine.endRound := Keeps.modifyGet fun m => hf m _

/-- A look-up of a result is counted, and changes the order in which results are kept. -/
theorem keeps_recalled (hm : ∀ m memory hits misses,
      part { m with memory := memory, hits := hits, misses := misses } = part m) (key : Digest) :
    Keeps part (recalled? key) := by
  refine Keeps.modifyGet fun m => ?_
  cases m.memory.get? key with
  | some found => exact hm m found.2 (m.hits + 1) m.misses
  | none =>
    dsimp only
    split
    · exact hm m m.memory m.hits (m.misses + 1)
    · rfl

namespace Steady

theorem recalled (hs : Steady part) (key : Digest) : Keeps part (recalled? key) :=
  keeps_recalled hs.memory key

theorem remember (hs : Steady part) (key : Digest) (v : Value) :
    Keeps part (Machine.remember key v) :=
  Keeps.modify fun m => hs.memory m _ _ _

theorem defineFunction (hs : Steady part) (f : FuncDef) : Keeps part (Machine.defineFunction f) :=
  Keeps.bind (hs.trace _) fun _ => Keeps.bind (hs.define _ _) fun _ =>
    Keeps.modify fun m => hs.memory m _ _ _

/-- Only where a function is looked up the frames may be dropped. -/
theorem act (hs : Steady part) {a : Act α} (h : a.isLookUp = false) : Keeps part a.perform := by
  cases a with
  | callable => cases h
  | signal jump => exact keeps_signal hs.flags jump
  | endRound => exact keeps_endRound hs.flags
  | defineFunction f => exact hs.defineFunction f
  | _ => exact hs.toApart.act _ rfl

end Steady

theorem keeps_enter (harena : ∀ m arena, part { m with arena := arena } = part m)
    (hframes : ∀ m frames, part { m with frames := frames } = part m) (f : Function)
    (span : Span) : Keeps part (Machine.enter f span) :=
  Keeps.modifyGet fun m => by
    let pushed := m.arena.push f.name Arena.global
    exact (hframes { m with arena := pushed.2 } _).trans (harena m _)

theorem keeps_leave (harena : ∀ m arena, part { m with arena := arena } = part m)
    (hframes : ∀ m frames, part { m with frames := frames } = part m) (scope : Int) :
    Keeps part (Machine.leave scope) :=
  Keeps.modify fun m =>
    (hframes { m with arena := m.arena.pop scope } _).trans (harena m _)

namespace Remote

theorem enter (ha : Remote part) (f : Function) (span : Span) : Keeps part (Machine.enter f span) :=
  keeps_enter ha.arena ha.frames f span

theorem leave (ha : Remote part) (scope : Int) : Keeps part (Machine.leave scope) :=
  keeps_leave ha.arena ha.frames scope

end Remote

/-- The steps that a call is made of, but for the body of the function. -/
inductive Around : {α : Type} → Eval α → Prop
  | enter (f : Function) (span : Span) : Around (Machine.enter f span)
  | bindParams (function : String) (scope : Int) (span : Span) (params : List (String × Value)) :
    Around (Machine.bindParams function scope span params)
  | key (scope : Int) : Around (Step.gets fun m => m.arena.digest m.store scope)
  | depth : Around (Step.gets fun m => m.frames.size)
  | recalled (key : Digest) : Around (recalled? key)
  | remark (message : Bytes) : Around (Eval.remark message)
  | trace (message : Bytes) : Around (Eval.trace message)
  | leave (scope : Int) : Around (Machine.leave scope)
  | remember (key : Digest) (v : Value) : Around (Machine.remember key v)

theorem Around.keeps (hb : Beside part) {x : Eval α} (h : Around x) : Keeps part x := by
  cases h with
  | enter f span => exact keeps_enter hb.arena hb.frames f span
  | bindParams => exact keeps_bindParams (fun m _ _ _ => hb.arena m _) _ _ _ _
  | key | depth => exact Keeps.gets _
  | recalled key => exact keeps_recalled hb.memory key
  | remark message => exact hb.remark message
  | trace message => exact hb.trace message
  | leave scope => exact keeps_leave hb.arena hb.frames scope
  | remember => exact Keeps.modify fun m => hb.memory m _ _ _

end Machine

end Kotoba
