import Kotoba.Proofs.Machine.Coupled
import Kotoba.Proofs.Syntax.Use

/-! Walks over trees that make none but certain uses of the machine. They go in lockstep if the acts
are related that stay within those uses. -/
namespace Kotoba

namespace Machine

namespace Act

/-- Whether an act stays within the given uses. -/
def Allowed (ok : Use → Prop) {α : Type} : Act α → Prop
  | resolve x => ok (.mentions x.name)
  | callable x _ _ => ok (.mentions x.name)
  | print .. => ok .prints ∨ ok .asks
  | readInput _ => ok .asks
  | arrayOf x => ok .arrays ∧ ok (.mentions x.name)
  | slotIn .. | slotValue .. | sizedArray .. | setSlot .. => ok .arrays
  | alloc _ => ok .arrays ∨ ok .splits
  | fileOf x => ok .files ∧ ok (.mentions x.name)
  | countOf .. | readText .. | readLine .. | atEnd .. | closeFile .. | writeText .. => ok .files
  | textOf .. => ok .files ∨ ok .splits
  | format _ => ok .prints ∨ ok .files
  | openFile x _ _ _ => ok .files ∧ ok (.binds x.name)
  | define name _ => ok (.binds name)
  | defineFunction _ => False
  | signal _ | endRound => ok .jumps
  | apply .. | combine .. | isRaised | truthy _ | rangeBound .. | exhaust | refuse _ => True

theorem keeps_memory {α : Type} {ok : Use → Prop} {a : Act α} (ha : a.Allowed ok) :
    Step.Keeps (·.memory) a.perform := by
  cases a with
  | signal jump => exact keeps_signal (fun _ _ => rfl) jump
  | endRound => exact keeps_endRound fun _ _ => rfl
  | callable x given span => exact keeps_callable remote_memory.frames x given span
  | defineFunction => exact absurd ha id
  | _ => exact remote_memory.act _ rfl

end Act

/-- The acts that a part of a tree asks for stay within the uses the part makes. -/
theorem Asks.allowed {ok : Use → Prop} {n : Node} {α : Type} {a : Act α} (h : Asks n a)
    (hu : ∀ u ∈ n.uses, ok u) : a.Allowed ok := by
  cases h with
  | @read file count => cases count <;> exact hu .files (by simp [Node.uses, Expr.uses])
  | @readFile file count =>
    cases count <;>
      exact ⟨hu _ (by simp [Node.uses, Expr.uses]), hu _ (by simp [Node.uses, Expr.uses])⟩
  | @giveBack value => cases value <;> exact hu _ (by simp [Node.uses, Stmt.uses])
  | _ => simp_all [Act.Allowed, Node.uses, Expr.uses, Stmt.uses]

end Machine

theorem Node.within_of_uses {ok : Use → Prop} {n : Node} (hu : ∀ u ∈ n.uses, ok u) :
    n.Within fun _ a => a.Allowed ok :=
  fun _ hpart _ _ ha => ha.allowed fun u h => hu u (hpart.mem_uses h)

namespace Machine

/-- The hosts of two walks that go in lockstep on trees which make no other use than `ok`, with
values that are all `good`. -/
structure Lockstep {M N : Type → Type} [Monad M] [Monad N] (B : Bridge M N) (h : Host M)
    (k : Host N) (good : Value → Prop) (ok : Use → Prop) : Prop where
  plain : ∀ {v : Value}, v.isPlain → good v
  /-- A name that is met as a value may be looked up. -/
  names : ∀ {x : String}, good (.reference x) → ok (.mentions x)
  note : ∀ n, n.isOnWay → B.Rel (fun _ => True) (h.note n) (k.note n)
  act : ∀ {α : Type} (a : Act α), a.Allowed ok → a.Takes good →
    B.Rel (a.Gives good) (h.act a) (k.act a)
  /-- The arguments of a call are evaluated between the look-up of the function and the call. -/
  invoke : ∀ (callee : Ident) (given : Nat) (span : Span) {x : M (List Value)}
    {y : N (List Value)}, ok (.mentions callee.name) →
    B.Rel (fun vs => (∀ v ∈ vs, good v) ∧ vs.length = given) x y →
    B.Rel good
      (do let f ← h.act (.callable callee given span); let args ← x; h.call f args span)
      (do let f ← k.act (.callable callee given span); let args ← y; k.call f args span)

namespace Lockstep

variable {M N : Type → Type} [Monad M] [Monad N] {B : Bridge M N} {h : Host M} {k : Host N}
  {good : Value → Prop} {ok : Use → Prop}

/-- Calls of any function go in lockstep. -/
theorem of_call (plain : ∀ {v : Value}, v.isPlain → good v)
    (names : ∀ {x : String}, good (.reference x) → ok (.mentions x))
    (note : ∀ n, n.isOnWay → B.Rel (fun _ => True) (h.note n) (k.note n))
    (act : ∀ {α : Type} (a : Act α), a.Allowed ok → a.Takes good →
      B.Rel (a.Gives good) (h.act a) (k.act a))
    (call : ∀ f args span, good (.function f) → (∀ v ∈ args, good v) →
      args.length = f.params.length → B.Rel good (h.call f args span) (k.call f args span)) :
    Lockstep B h k good ok where
  plain := plain
  names := names
  note := note
  act := act
  invoke callee given span _ _ hc hxy := by
    refine B.bind (act (.callable callee given span) hc trivial) fun f hf =>
      B.bind hxy fun args hargs => ?_
    exact call f args span hf.1 hargs.1 (hargs.2.trans hf.2.symm)

/-- An input goes in lockstep as its acts and notes do. -/
theorem coupled (L : Lockstep B h k good ok) : Coupled B h k good fun _ a => a.Allowed ok where
  plain := L.plain
  names := L.names
  note n hn _ _ := L.note n hn
  act a ha ht _ := L.act a ha ht
  invoke := L.invoke
  input prompt span hp := by
    rw [Host.eval, Host.eval]
    refine B.bind (L.note _ rfl) fun _ _ => B.bind (P := good) ?_ fun _ hv =>
      B.bind (L.note _ rfl) fun _ _ => B.pure hv
    refine B.bind (P := fun _ => True) ?_ fun _ _ =>
      B.bind (L.act (.readInput span) (hp.asks .input) trivial) fun _ _ => B.pure (L.plain rfl)
    cases prompt with
    | none => exact B.pure trivial
    | some prompt => exact L.act (.print prompt.text span) (hp.asks .prompt) trivial

variable (L : Lockstep B h k good ok)
include L

theorem eval (e : Expr) (hu : ∀ u ∈ e.uses, ok u) :
    B.Rel (e.Results good) (h.eval e) (k.eval e) := L.coupled.eval e (Node.within_of_uses hu)

theorem expr (e : Expr) (hu : ∀ u ∈ e.uses, ok u) : B.Rel good (h.expr e) (k.expr e) :=
  L.coupled.expr e (Node.within_of_uses hu)

theorem simple (s : Stmt) (hu : ∀ u ∈ s.uses, ok u) :
    B.Rel (fun _ => True) (h.simple s) (k.simple s) :=
  L.coupled.simple s (Node.within_of_uses hu)

theorem stmt (rounds : Nat) (s : Stmt) (hu : ∀ u ∈ s.uses, ok u) :
    B.Rel (fun _ => True) (h.stmt rounds s) (k.stmt rounds s) :=
  L.coupled.stmt (fun _ => rfl) s (Node.within_of_uses hu)

theorem body (rounds : Nat) (b : Body) (hu : ∀ u ∈ b.uses, ok u) :
    B.Rel (fun _ => True) (h.body rounds b) (k.body rounds b) :=
  L.coupled.body (fun _ => rfl) b (Node.within_of_uses hu)

theorem body? (rounds : Nat) (b : Option Body) (hu : ∀ u ∈ Body.uses? b, ok u) :
    B.Rel (fun _ => True) (h.body? rounds b) (k.body? rounds b) := by
  refine L.coupled.body? (fun _ => rfl) b fun body hb => Node.within_of_uses ?_
  subst hb
  exact fun u h => hu u (by simpa [Node.uses, Body.uses?] using h)

omit L

/-- Whole trees go in lockstep if there is nothing that they must not do. -/
theorem node (L : Lockstep B h k (fun _ => True) (fun _ => True))
    (hd : ∀ f, B.Rel (fun _ => True) (h.defineFunction f) (k.defineFunction f)) (rounds : Nat)
    (node : Node) : B.Rel (fun _ => True) (h.node rounds node) (k.node rounds node) :=
  L.coupled.node (fun _ => rfl) (Node.within_of_uses fun _ _ => trivial) (fun f _ => hd f) trivial
    (fun _ _ => trivial) id fun _ => L.act (.refuse node) trivial trivial

end Lockstep

end Machine

end Kotoba
