/-! The exact value of a binary64 number, and its exact remainder. -/
namespace Kotoba.Decimal

/-- A finite binary64 number: the value is `mantissa * 2 ^ exponent`, negated if `negative`. -/
structure Binary64 where
  negative : Bool
  mantissa : Nat
  exponent : Int
deriving DecidableEq, Repr

namespace Binary64

def ofFloat? (x : Float) : Option Binary64 :=
  let bits := x.toBits.toNat
  let fraction : Nat := bits % Nat.pow 2 52
  let biased : Nat := bits / Nat.pow 2 52 % Nat.pow 2 11
  if biased = 2047 then none
  else if biased = 0 then some ⟨decide (Nat.pow 2 63 ≤ bits), fraction, -1074⟩
  else some ⟨decide (Nat.pow 2 63 ≤ bits), fraction + Nat.pow 2 52, (biased : Int) - 1075⟩

def toFloat (b : Binary64) : Float :=
  let magnitude := (Float.ofNat b.mantissa).scaleB b.exponent
  if b.negative then -magnitude else magnitude

/-- The remainder of `x` by a non-zero `y`: exact, with the sign of `x`. -/
def remainder (x y : Binary64) : Binary64 :=
  let exponent := min x.exponent y.exponent
  let scaled (b : Binary64) : Nat := b.mantissa * Nat.pow 2 (b.exponent - exponent).toNat
  ⟨x.negative, scaled x % scaled y, exponent⟩

end Binary64

/-- The remainder of a division that truncates, without rounding; `x` for an infinite `y`. -/
def remainder (x y : Float) : Float :=
  match Binary64.ofFloat? x, Binary64.ofFloat? y with
  | some a, some b => if b.mantissa = 0 then 0.0 / 0.0 else (a.remainder b).toFloat
  | some _, none => if y.isNaN then y else x
  | none, _ => 0.0 / 0.0

end Kotoba.Decimal
