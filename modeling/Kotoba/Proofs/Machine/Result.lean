import Kotoba.Proofs.Machine.Act

/-! The results of expressions and the values made of them. Operators, rules and inputs give values
at once; only a name, an element and a call leave something to settle. -/
namespace Kotoba

/-- Values that hold nothing but themselves. -/
def Value.isPlain : Value → Bool
  | .null | .int _ | .float _ | .string _ | .bool _ => true
  | _ => false

/-- Whether a value is a real one: not none at all, and not a name that is still to be looked up. -/
def Value.isConcrete : Value → Bool
  | .nothing | .reference _ => false
  | _ => true

theorem Value.isConcrete_of_isPlain {v : Value} (h : v.isPlain) : v.isConcrete := by
  cases v <;> first | rfl | cases h

namespace Machine

section Rules

variable {v w : Value}

/-- Rules give values that hold nothing but themselves. -/
theorem isPlain_of_apply {rule : Rule} {s : Store} (h : rule.apply s v = .ok w) : w.isPlain := by
  cases rule with
  | unary op =>
    simp only [Rule.apply, unary] at h
    split at h <;> cases h <;> rfl
  | charOf =>
    simp only [Rule.apply, charOfCode] at h
    split at h
    · split at h <;> cases h
      rfl
    · cases h
  | codeOf =>
    simp only [Rule.apply, codeOfChar] at h
    split at h
    · split at h <;> cases h
      rfl
    · cases h
  | length =>
    simp only [Rule.apply, lengthOf] at h
    split at h <;> cases h <;> rfl
  | advance op =>
    simp only [Rule.apply, advanced] at h
    split at h <;> cases h <;> rfl

private theorem isPlain_of_arithmetic {op : Op} {l r : Value} (h : arithmetic op l r = .ok w) :
    w.isPlain := by
  unfold arithmetic at h
  dsimp only at h
  split at h
  · unfold integerResult at h
    split at h <;> (try split at h) <;> cases h <;> rfl
  · split at h <;> cases h
    rfl
  all_goals
    first
    | split at h
      · unfold repetition at h
        split at h
        · cases h
        · split at h
          · cases h; rfl
          · split at h <;> cases h
            rfl
      · cases h
    | split at h
      · unfold floatResult at h
        split at h <;> (try split at h) <;> cases h <;> rfl
      · cases h

private theorem isPlain_of_map {α : Type} {x : Except Fault α} {f : α → Bool}
    (h : x.map (fun a => Value.bool (f a)) = .ok w) : w.isPlain := by
  cases x with
  | ok a => cases h; rfl
  | error e => cases h

/-- Operators give values that hold nothing but themselves. -/
theorem isPlain_of_binary {op : Op} {l r : Value} (h : binary op l r = .ok w) : w.isPlain := by
  unfold binary at h
  split at h
  case h_8 | h_9 | h_10 | h_11 | h_12 | h_13 => exact isPlain_of_map h
  case h_6 | h_7 => split at h <;> cases h; rfl
  all_goals first | exact isPlain_of_arithmetic h | cases h

end Rules

section Settling

variable {v : Value} {span span' : Span}

/-- What is a value already is left as it is. -/
theorem settle_of_isConcrete (h : v.isConcrete) : Eval.settle v span = pure v := by
  cases v <;> first | rfl | cases h

theorem settled_ofExcept {x : Except Fault Value} (h : ∀ w, x = .ok w → w.isPlain) :
    settled span (Eval.ofExcept span' x) = Eval.ofExcept span' x := by
  cases x with
  | ok w => exact settle_of_isConcrete (Value.isConcrete_of_isPlain (h w rfl))
  | error f => rfl

theorem settled_applied (rule : Rule) :
    settled span (applied rule.apply v span') = applied rule.apply v span' := by
  funext m
  exact congrFun (settled_ofExcept fun _ => isPlain_of_apply) m

theorem settled_bind {α : Type} (x : Eval α) (f : α → Eval Value) :
    settled span (x >>= f) = x >>= fun a => settled span (f a) := bind_assoc x f _

theorem settled_bind_applied (rule : Rule) (x : Eval Value) :
    settled span (do applied rule.apply (← x) span') = (do applied rule.apply (← x) span') := by
  rw [settled_bind]
  congr 1
  funext v
  exact settled_applied rule

end Settling

section Values

variable (run : Run) (span : Span)

variable {run} in
/-- A result that is a value already is the value of the expression. -/
theorem evalExpr_of_eval {e : Expr} {m m' : Machine} {v : Value} (h : eval run e m = .ok v m')
    (hv : v.isConcrete) : evalExpr run e m = .ok v m' := by
  rw [evalExpr, settled, Step.bind_apply, h]
  exact congrFun (settle_of_isConcrete hv) m'

theorem evalExpr_binary (layer : Layer) (left : Expr) (op : Operator) (right : Expr) :
    evalExpr run (.binary layer left op right span) = (do
      let l ← evalExpr run left
      let r ← evalExpr run right
      Eval.ofExcept span (binary op.op l r)) := by
  rw [evalExpr, eval, settled_bind]
  congr 1
  funext l
  rw [settled_bind]
  congr 1
  funext r
  exact settled_ofExcept fun _ => isPlain_of_binary

theorem evalExpr_charOf (e : Expr) :
    evalExpr run (.charOf e span) = (do applied charOfCode (← evalExpr run e) span) :=
  settled_bind_applied .charOf _

theorem evalExpr_codeOf (e : Expr) :
    evalExpr run (.codeOf e span) = (do applied codeOfChar (← evalExpr run e) span) :=
  settled_bind_applied .codeOf _

theorem evalExpr_length (e : Expr) :
    evalExpr run (.length e span) = (do applied lengthOf (← evalExpr run e) span) :=
  settled_bind_applied .length _

end Values

end Machine

end Kotoba
