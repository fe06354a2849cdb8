/-! Computations that thread a state, may fail in it, and may run out of fuel. -/
namespace Kotoba

/-- How a computation ends: with a result, with a failure, or without fuel. The state in which
it succeeded or failed is kept. -/
inductive Outcome (σ ε α : Type) where
  | ok (value : α) (state : σ)
  | error (failure : ε) (state : σ)
  | exhausted

/-- A computation over states `σ` that may fail with `ε`. -/
def Step (σ ε α : Type) : Type := σ → Outcome σ ε α

namespace Step

variable {σ ε α β : Type}

@[always_inline, inline]
protected def pure (a : α) : Step σ ε α := fun s => .ok a s

@[always_inline, inline]
protected def bind (x : Step σ ε α) (f : α → Step σ ε β) : Step σ ε β := fun s =>
  match x s with
  | .ok a s => f a s
  | .error e s => .error e s
  | .exhausted => .exhausted

@[always_inline]
instance : Monad (Step σ ε) where
  pure := Step.pure
  bind := Step.bind

@[always_inline, inline]
def fail (e : ε) : Step σ ε α := fun s => .error e s

/-- Gives up for want of fuel. -/
@[always_inline, inline]
def exhausted : Step σ ε α := fun _ => .exhausted

@[always_inline, inline]
def get : Step σ ε σ := fun s => .ok s s

@[always_inline, inline]
def gets (f : σ → α) : Step σ ε α := fun s => .ok (f s) s

@[always_inline, inline]
def modify (f : σ → σ) : Step σ ε Unit := fun s => .ok () (f s)

@[always_inline, inline]
def modifyGet (f : σ → α × σ) : Step σ ε α := fun s => let (a, s) := f s; .ok a s

@[simp] theorem pure_apply (a : α) (s : σ) : (pure a : Step σ ε α) s = .ok a s := rfl

@[simp] theorem bind_apply (x : Step σ ε α) (f : α → Step σ ε β) (s : σ) :
    (x >>= f) s = match x s with
      | .ok a s => f a s
      | .error e s => .error e s
      | .exhausted => .exhausted := rfl

theorem bind_eq_ok {x : Step σ ε α} {f : α → Step σ ε β} {s s' : σ} {b : β}
    (h : (x >>= f) s = .ok b s') : ∃ a s₁, x s = .ok a s₁ ∧ f a s₁ = .ok b s' := by
  rw [bind_apply] at h
  cases hx : x s with
  | ok a s₁ =>
    rw [hx] at h
    exact ⟨a, s₁, rfl, h⟩
  | error e s₁ =>
    rw [hx] at h
    cases h
  | exhausted =>
    rw [hx] at h
    cases h

instance : LawfulMonad (Step σ ε) :=
  LawfulMonad.mk' _
    (fun x => by funext s; simp only [Functor.map, Step.bind]; cases x s <;> rfl)
    (fun _ _ => rfl)
    (fun x _ _ => by funext s; simp only [bind, Step.bind]; cases x s <;> rfl)

end Step

end Kotoba
