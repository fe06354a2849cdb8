import Kotoba.Proofs.Machine.Fair
import Kotoba.Session

/-! Programs without conditional loops come to an end. The limit on active calls bounds how deeply
they nest, and a loop over a range takes as many rounds as there are integers in it. -/
namespace Kotoba

namespace Node

/-- Whether a tree is a conditional loop. -/
def isLoop : Node → Bool
  | stmt (.loop ..) => true
  | _ => false

/-- Whether a tree has no conditional loop in it. -/
def Loopless (n : Node) : Prop := n.Every fun m => m.isLoop = false

/-- Whether a tree that is so high has none but parts as given. -/
def all (p : Node → Bool) : (height : Nat) → Node → Bool
  | 0, _ => false
  | height + 1, n => p n && n.children.all (all p height)

theorem every_of_all {p : Node → Bool} {height : Nat} {n : Node} (h : n.all p height) :
    n.Every fun m => p m := by
  induction height generalizing n with
  | zero => cases h
  | succ height ih =>
    rw [all, Bool.and_eq_true, List.all_eq_true] at h
    exact .node h.1 fun m hm => ih (h.2 m hm)

end Node

namespace Machine

variable {α β : Type}

/-- The settings, and the number of active calls. -/
def roster (m : Machine) : Settings × Nat := (m.settings, m.frames.size)

theorem steady_roster : Steady roster := by
  refine ⟨⟨⟨?_, fun _ _ => rfl⟩, fun _ _ _ _ => rfl⟩, fun _ _ => rfl, fun _ _ _ _ => rfl⟩
  constructor <;> intros <;> rfl

/-- An act that succeeds leaves as many calls active as there were. -/
theorem roster_of_ok {a : Act α} {m m' : Machine} {r : α} (h : a.perform m = .ok r m') :
    roster m' = roster m := by
  cases a with
  | callable callee given span => rw [(Act.callable_ok h).1]
  | _ => exact (steady_roster.act rfl).of_ok h

/-- A machine on which so many calls are active, and which holds good values only. -/
structure Poised (settings : Settings) (good : Value → Prop) (n : Nat) (m : Machine) : Prop where
  holds : Holds good m
  roster : roster m = (settings, n)

/-- Two computations that come to the same end. They begin with `n` active calls, and if they
succeed, `k` calls are active and the result is as given. They do not give up. -/
def Ends (settings : Settings) (good : Value → Prop) (n k : Nat) (P : α → Prop) (x y : Eval α) :
    Prop :=
  ∀ m, Poised settings good n m → x m = y m ∧
    match x m with
    | .ok a m' => P a ∧ Poised settings good k m'
    | .error _ _ => True
    | .exhausted => False

section Levels

variable {settings : Settings} {good : Value → Prop} {n k l : Nat} {P : α → Prop} {Q : β → Prop}

namespace Ends

theorem pure {a : α} (ha : P a) : Ends settings good n n P (Pure.pure a) (Pure.pure a) :=
  fun _ hm => ⟨rfl, ha, hm⟩

theorem bind {x y : Eval α} {f g : α → Eval β} (hx : Ends settings good n k P x y)
    (hf : ∀ a, P a → Ends settings good k l Q (f a) (g a)) :
    Ends settings good n l Q (x >>= f) (y >>= g) := by
  intro m hm
  obtain ⟨heq, hend⟩ := hx m hm
  rw [Step.bind_apply, Step.bind_apply, ← heq]
  generalize x m = o at hend
  cases o with
  | ok a m' => exact hf a hend.1 m' hend.2
  | error e m' => exact ⟨rfl, trivial⟩
  | exhausted => exact hend.elim

theorem mono {R : α → Prop} {x y : Eval α} (hx : Ends settings good n k P x y)
    (h : ∀ a, P a → R a) : Ends settings good n k R x y := by
  intro m hm
  obtain ⟨heq, hend⟩ := hx m hm
  refine ⟨heq, ?_⟩
  generalize x m = o at hend
  cases o with
  | ok a m' => exact ⟨h a hend.1, hend.2⟩
  | error e m' => trivial
  | exhausted => exact hend

theorem of_minds {x : Eval α} (hx : Minds good (fun _ => True) False P x)
    (hr : ∀ m a m', x m = .ok a m' → roster m = (settings, n) → roster m' = (settings, k)) :
    Ends settings good n k P x x := by
  intro m hm
  have hend := hx m hm.holds
  have hroster := hr m
  refine ⟨rfl, ?_⟩
  generalize x m = o at hend hroster
  cases hend with
  | ok holds result => exact ⟨result, holds, hroster _ _ rfl hm.roster⟩
  | error => trivial
  | exhausted tired => exact tired

theorem of_keeps {x : Eval α} (hx : Minds good (fun _ => True) False P x)
    (hr : Step.Keeps roster x) : Ends settings good n n P x x :=
  of_minds hx fun _ _ _ h hm => (hr.of_ok h).trans hm

theorem act {a : Act α} (ha : Minds good (fun _ => True) False P a.perform) :
    Ends settings good n n P a.perform a.perform :=
  of_minds ha fun _ _ _ h hm => (roster_of_ok h).trans hm

theorem enter (f : Function) (span : Span) :
    Ends settings good n (n + 1) (fun _ => True) (Machine.enter f span)
      (Machine.enter f span) := by
  refine of_minds (.enter f) fun m scope m' h hm => ?_
  obtain ⟨hs, hn⟩ := Prod.mk.inj hm
  cases h
  simp [Machine.roster, hs, hn]

theorem leave (scope : Int) :
    Ends settings good (n + 1) n (fun _ => True) (Machine.leave scope) (Machine.leave scope) := by
  refine of_minds (.leave scope) fun m a m' h hm => ?_
  obtain ⟨hs, hn⟩ := Prod.mk.inj hm
  cases h
  simp [Machine.roster, hs, hn]

private theorem within (hnull : good .null) (scope : Int) {r s : Option Body → Eval Unit}
    {body : Option Body} (hr : Ends settings good n n (fun _ => True) (r body) (s body)) :
    Ends settings good n n good (plain.within r scope body) (plain.within s scope body) := by
  have hin : Step.Keeps roster (Medium.swapIn scope) := .modifyGet fun _ => rfl
  have hout : ∀ saved, Step.Keeps roster (Medium.swapOut saved) := fun _ => .modifyGet fun _ => rfl
  exact bind (of_keeps (.swapIn scope) hin) fun saved _ => bind hr fun _ _ =>
    of_keeps (.swapOut hnull saved) (hout saved)

/-- A call ends as the function does, whose body runs with one more active call. -/
private theorem call (hnull : good .null) {r s : Option Body → Eval Unit} {f : Function}
    {arguments : List Value} {span : Span} (ha : ∀ v ∈ arguments, good v)
    (hr : Ends settings good (n + 1) (n + 1) (fun _ => True) (r f.body) (s f.body)) :
    Ends settings good n n good (plain.call (plain.within r) f arguments span)
      (plain.call (plain.within s) f arguments span) := by
  have hparams : ∀ p ∈ f.params.zip arguments, good p.2 := fun p hp =>
    ha p.2 (List.of_mem_zip hp).2
  have hbound : ∀ scope, Ends settings good (n + 1) (n + 1) (fun _ => True)
      (bindParams f.name scope span (f.params.zip arguments))
      (bindParams f.name scope span (f.params.zip arguments)) := fun scope =>
    of_keeps (.bindParams (fun _ _ => trivial) f.name scope _ hparams)
      (steady_roster.bindParams _ _ _ _)
  have hrecalled : ∀ key, Ends settings good (n + 1) (n + 1)
      (fun found => ∀ v, found = some v → good v) (recalled? key) (recalled? key) := fun key =>
    of_keeps (.recalled? key) (steady_roster.recalled key)
  have hremembered : ∀ key v, good v → Ends settings good n n (fun _ => True) (remember key v)
      (remember key v) := fun key v hv =>
    of_keeps (.remember key hv) (steady_roster.remember key v)
  have hnote : ∀ k, Ends settings good k k (fun _ => True) (Pure.pure ()) (Pure.pure ()) :=
    fun _ => pure trivial
  -- the scope of the call is entered, and its parameters are bound
  refine bind (enter f span) fun scope _ => bind (hbound scope) fun _ _ =>
    bind (hnote _) fun _ _ => ?_
  -- it is looked up whether the result is remembered
  refine bind (of_keeps .reads (.gets _)) fun key _ => bind (of_keeps .reads (.gets _)) fun depth _ =>
    bind (hrecalled key) fun found hfound => ?_
  cases found with
  | some v =>
    refine bind (of_keeps (.remark _) (steady_roster.remark _)) fun _ _ =>
      bind (leave scope) fun _ _ => bind (hnote _) fun _ _ => ?_
    exact pure (hfound v rfl)
  | none =>
    refine bind (of_keeps (.trace _) (steady_roster.trace _)) fun _ _ =>
      bind (within hnull scope hr) fun v hv => ?_
    refine bind (leave scope) fun _ _ => bind (hremembered key v hv) fun _ _ =>
      bind (hnote _) fun _ _ => ?_
    exact pure hv

end Ends

/-- Computations with `n` active calls that come to the same end. -/
def finishing (settings : Settings) (good : Value → Prop) (n : Nat) : Bridge Eval Eval where
  Rel P x y := Ends settings good n n P x y
  pure := .pure
  bind := .bind

end Levels

section Walks

variable {settings : Settings} {good : Value → Prop} {fine : Node → Prop} {n : Nat}
  (F : Fair good fine (fun _ => True) False)
include F

/-- A function is called only where there is room for it. -/
private theorem ends_callable {callee : Ident} (hc : fine callee.node) {span : Span}
    (hs : Stands fine span) (given : Nat) :
    Ends settings good n n (fun f => good (.function f) ∧ n < settings.maxDepth)
      (callable callee given span) (callable callee given span) := by
  intro m hm
  obtain ⟨-, hend⟩ := Ends.act (.act F (.callable callee given span) ⟨hc, hs⟩ trivial) m hm
  refine ⟨rfl, ?_⟩
  rw [Act.perform] at hend
  cases hcall : callable callee given span m with
  | ok f m' =>
    rw [hcall] at hend
    obtain ⟨-, -, hroom, -⟩ := Act.callable_ok hcall
    obtain ⟨rfl, rfl⟩ := Prod.mk.inj hm.roster
    exact ⟨⟨hend.1.1, hroom⟩, hend.2⟩
  | error => trivial
  | exhausted =>
    rw [hcall] at hend
    exact hend

private theorem guided_of_room {c d : Function → List Value → Span → Eval Value}
    (hc : ∀ f args span, n < settings.maxDepth → good (.function f) → (∀ v ∈ args, good v) →
      Ends settings good n n good (c f args span) (d f args span)) :
    Guided (finishing settings good n) { plain with call := c } { plain with call := d } good
      fine where
  plain := F.plain
  settled := F.settled
  note _ _ := fun _ hm => ⟨rfl, trivial, hm⟩
  act a hs ht := .act (.act F a hs ht)
  invoke _ given span _ _ hcallee hspan hxy :=
    .bind (ends_callable F hcallee hspan given) fun f hf => .bind hxy fun args ha =>
      hc f args span hf.2 hf.1 ha.1

/-- How many rounds conditional loops may take does not matter where there are none, nor how deeply
calls may be nested beyond what the machine allows. -/
theorem guided_finishing {rounds rounds' : Nat} (hr : AllowsLoops fine → rounds = rounds')
    {d d' : Nat} (hd : settings.maxDepth ≤ n + d) (hd' : settings.maxDepth ≤ n + d') :
    Guided (finishing settings good n) (plain.host rounds d) (plain.host rounds' d') good fine := by
  induction d generalizing n d' with
  | zero =>
    have hfull : ¬ n < settings.maxDepth := by omega
    cases d' <;> exact guided_of_room F fun _ _ _ hroom => absurd hroom hfull
  | succ d ih =>
    cases d' with
    | zero =>
      have hfull : ¬ n < settings.maxDepth := by omega
      exact guided_of_room F fun _ _ _ hroom => absurd hroom hfull
    | succ d' =>
      refine guided_of_room F fun f args span hroom hf ha => .call (F.plain rfl) ha ?_
      exact (ih (by omega) (by omega)).body? hr f.body fun b hb => F.body hf hb

end Walks

/-- A tree without conditional loops comes to an end, on a machine that holds no function with one
and on which no call is active. However many rounds loops may take, and however deeply calls may be
nested, if only as deeply as the machine allows, the end is the same. -/
theorem evalNode_loopless {n : Node} (hn : Runnable n) (h : n.Loopless) {m : Machine}
    (hm : Holds (Value.Runs fun n => n.isLoop = false) m) (hframes : m.frames.size = 0)
    (rounds rounds' : Nat) {d d' : Nat} (hd : m.settings.maxDepth ≤ d)
    (hd' : m.settings.maxDepth ≤ d') :
    evalNode ⟨runBody rounds d, rounds⟩ n m = evalNode ⟨runBody rounds' d', rounds'⟩ n m ∧
      evalNode ⟨runBody rounds d, rounds⟩ n m ≠ .exhausted := by
  have hloops : ¬ AllowsLoops fun n => n.isLoop = false := by
    rintro ⟨condition, body, span, h⟩
    cases h
  have F : Fair (Value.Runs fun n => n.isLoop = false) (fun n => n.isLoop = false)
      (fun _ => True) False := fair_runs (fun _ _ _ => trivial) (fun _ _ => trivial) hloops
  have hwalk : Ends m.settings (Value.Runs fun n => n.isLoop = false) 0 0 (fun _ => True)
      ((plain.host rounds d).node rounds n) ((plain.host rounds' d').node rounds' n) :=
    (guided_finishing F (fun h => absurd h hloops) (by omega) (by omega)).node
      (fun h => absurd h hloops) hn h trivial (fun _ _ => trivial) fun hx => hx.mono fun _ _ => trivial
  have hnode : ∀ rounds d, (plain.host rounds d).node rounds n =
      evalNode ⟨runBody rounds d, rounds⟩ n := fun rounds d => by
    rw [host_plain]
    exact node_plainHost ⟨runBody rounds d, rounds⟩ n
  obtain ⟨heq, hend⟩ := hwalk m ⟨hm, by rw [roster, hframes]⟩
  rw [hnode, hnode] at heq
  rw [hnode] at hend
  refine ⟨heq, fun hexhausted => ?_⟩
  rw [hexhausted] at hend
  exact hend

/-- The interpretation of such a tree comes to the same end, however many rounds are allowed for. -/
theorem interpret_loopless {n : Node} (hn : Runnable n) (h : n.Loopless) {m : Machine}
    (hm : Holds (Value.Runs fun n => n.isLoop = false) m) (hframes : m.frames.size = 0)
    (rounds rounds' : Nat) :
    interpret rounds n m = interpret rounds' n m ∧ interpret rounds n m ≠ .exhausted := by
  have hdepth : m.settings.maxDepth ≤ m.settings.maxDepth + 1 := Nat.le_succ _
  obtain ⟨heq, hlive⟩ : evalNode (context m.settings rounds) n m =
      evalNode (context m.settings rounds') n m ∧
      evalNode (context m.settings rounds) n m ≠ .exhausted :=
    evalNode_loopless hn h hm hframes rounds rounds' hdepth hdepth
  simp only [interpret, ← heq, true_and]
  generalize evalNode (context m.settings rounds) n m = o at hlive
  cases o with
  | ok v m' =>
    obtain ⟨w, hend⟩ | ⟨e, hend⟩ := conclude_cases n.span v m' <;> simp [hend]
  | error e m' => rintro ⟨⟩
  | exhausted => exact absurd rfl hlive

end Machine

namespace Session

open Syntax (parseProgram)

/-- A program without conditional loops comes to an end, in a value or a failure, whatever limits
there are on active calls and on remembered results, and whatever is read or printed. How many
rounds conditional loops may take does not matter, and neither does how deeply calls may be nested,
if only as deeply as the machine allows. -/
theorem loopless_ends (settings : Machine.Settings) (disk : Disk) (input : Console.Input)
    (output : Console.Output) (r : Reading) {text : Bytes} {p : Program} {s : Syntax.State}
    (hparse : parseProgram r.limits text = .ok p s) (hloop : (Node.program p).Loopless) :
    (∃ answer m, ((∃ v, answer = .value v) ∨ ∃ d, answer = .failed d) ∧
      ∀ rounds, execute rounds r text { settings, disk, input, output } = (answer, m)) ∧
    ∃ o, o ≠ .exhausted ∧ ∀ rounds depth, settings.maxDepth ≤ depth →
      Machine.evalNode ⟨Machine.runBody rounds depth, rounds⟩ (.program p)
        (noteParse r s { settings, disk, input, output }) = o := by
  let m := noteParse r s { settings, disk, input, output }
  have hholds : Machine.Holds (Value.Runs fun n => n.isLoop = false) m :=
    Machine.holds_fresh _ m rfl rfl rfl rfl
  constructor
  · have hexecute : ∀ rounds, execute rounds r text { settings, disk, input, output } =
        interpret rounds (some (.program p)) m := fun rounds => by
      simp only [execute, run, parseWhole, hparse]
      rfl
    have hend := fun rounds => Machine.interpret_loopless rfl hloop hholds rfl rounds 0
    cases hresult : Machine.interpret 0 (.program p) m with
    | ok v m' =>
      refine ⟨.value v, m', .inl ⟨v, rfl⟩, fun rounds => ?_⟩
      rw [hexecute, interpret, (hend rounds).1, hresult]
    | error f m' =>
      refine ⟨.failed f.diagnostic, m', .inr ⟨_, rfl⟩, fun rounds => ?_⟩
      rw [hexecute, interpret, (hend rounds).1, hresult]
    | exhausted => exact absurd hresult (hend 0).2
  · have hend := fun rounds depth (hd : settings.maxDepth ≤ depth) =>
      Machine.evalNode_loopless rfl hloop hholds rfl rounds 0 hd (Nat.le_refl settings.maxDepth)
    exact ⟨_, (hend 0 _ (Nat.le_refl _)).2, fun rounds depth hd => (hend rounds depth hd).1⟩

/-- Whether a text is a program without conditional loops. -/
private def isLoopless (limits : Token.Limits) (text : Bytes) : Bool :=
  match parseProgram limits text with
  | .ok p _ => (Node.program p).all (fun n => !n.isLoop) 20
  | _ => false

private theorem exists_of_isLoopless {limits : Token.Limits} {text : Bytes}
    (h : isLoopless limits text) :
    ∃ p s, parseProgram limits text = .ok p s ∧ (Node.program p).Loopless := by
  unfold isLoopless at h
  split at h
  · next p s hp => exact ⟨p, s, hp, fun m hm => by simpa using Node.every_of_all h m hm⟩
  · cases h

/-- A function that calls itself without end is stopped. -/
theorem loopless_ends_recursion : ∃ p s,
    parseProgram {} "kawaii f(n) => modoru f(n + 1);\nuWu_nyaa() => yomu(f(0));" = .ok p s ∧
    (Node.program p).Loopless ∧
    (∃ answer m, ((∃ v, answer = .value v) ∨ ∃ d, answer = .failed d) ∧
      ∀ rounds, execute rounds ⟨{}, false⟩
        "kawaii f(n) => modoru f(n + 1);\nuWu_nyaa() => yomu(f(0));"
        { settings := { maxDepth := 50 } } = (answer, m)) := by
  obtain ⟨p, s, hparse, hloop⟩ := exists_of_isLoopless (show isLoopless {}
    "kawaii f(n) => modoru f(n + 1);\nuWu_nyaa() => yomu(f(0));" from by decide +kernel)
  exact ⟨p, s, hparse, hloop,
    (loopless_ends { maxDepth := 50 } {} {} {} ⟨{}, false⟩ hparse hloop).1⟩

end Session

end Kotoba
