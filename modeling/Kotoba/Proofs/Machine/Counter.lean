import Kotoba.Machine.Statement
import Mathlib.Tactic.Ring

/-! Counters of loops over ranges. A counter goes from the first integer of a range to the last one
in steps of one, up or down, and is compared with the last one before it is moved. So it does not
leave the range, and does not wrap around even where the range reaches to the least or the greatest
integer. -/
namespace Kotoba.Machine

/-- The last integer of a range lies so many steps ahead, and a step goes one up or one down. -/
structure Ahead (step last : Int64) (more : Nat) (n : Int64) : Prop where
  unit : step = 1 ∨ step = -1
  eq : last.toInt = n.toInt + more * step.toInt

/-- The direction of a range. -/
def stride (first last : Int64) : Int64 := if last < first then -1 else 1

theorem toInt_stride (first last : Int64) :
    (stride first last).toInt = if last.toInt < first.toInt then -1 else 1 := by
  unfold stride
  rw [apply_ite Int64.toInt]
  simp only [Int64.lt_iff_toInt_lt]
  rfl

theorem ahead_first (first last : Int64) :
    Ahead (stride first last) last (last.toInt - first.toInt).natAbs first where
  unit := by
    unfold stride
    split
    · exact .inr rfl
    · exact .inl rfl
  eq := by
    rw [toInt_stride]
    split <;> omega

namespace Ahead

variable {step last n : Int64} {more : Nat}

theorem toInt_step (h : Ahead step last more n) : step.toInt = 1 ∨ step.toInt = -1 := by
  rcases h.unit with rfl | rfl
  · exact .inl rfl
  · exact .inr rfl

/-- A step that does not lead past the last integer does not wrap around. -/
theorem toInt_add (h : Ahead step last (more + 1) n) :
    (n + step).toInt = n.toInt + step.toInt := by
  have hlast := h.eq
  have hlow := last.le_toInt
  have hhigh := last.toInt_lt
  have hnlow := n.le_toInt
  have hnhigh := n.toInt_lt
  rw [Int64.toInt_add]
  apply Int.bmod_eq_of_le
  all_goals
    rcases h.toInt_step with hstep | hstep <;> rw [hstep] at hlast ⊢ <;> push_cast at hlast <;> omega

theorem next (h : Ahead step last (more + 1) n) : Ahead step last more (n + step) where
  unit := h.unit
  eq := by
    have hlast := h.eq
    rw [h.toInt_add]
    push_cast at hlast
    rw [hlast]
    ring

/-- The last integer is reached when no step is left, and not before. -/
theorem eq_last_iff (h : Ahead step last more n) : n = last ↔ more = 0 := by
  have hlast := h.eq
  rw [← Int64.toInt_inj]
  rcases h.toInt_step with hstep | hstep <;> rw [hstep] at hlast <;> omega

end Ahead

end Kotoba.Machine
