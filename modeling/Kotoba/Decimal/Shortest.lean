import Kotoba.Decimal.Binary64

/-! The shortest decimal that reads back as a given binary64 number. -/
namespace Kotoba.Decimal

/-- A decimal number `0.d₁d₂…dₙ * 10 ^ point`, without leading or trailing zero digits. -/
structure Digits where
  digits : List Nat
  point : Int
deriving DecidableEq, Repr

def digitsOf (n : Nat) : List Nat :=
  if n = 0 then [] else (Nat.toDigits 10 n).map fun c => c.toNat - 48

def Digits.ofScaled (n : Nat) (exponent : Int) : Digits :=
  let all := digitsOf n
  ⟨(all.reverse.dropWhile (· == 0)).reverse, exponent + all.length⟩

/-- The reals that round to one number, in units of `1 / denominator`: from `low` to `high`, the
ends included if `closed`, around the number itself, `exact`. -/
structure Interval where
  low : Nat
  exact : Nat
  high : Nat
  denominator : Nat
  closed : Bool
deriving Repr

namespace Interval

/-- The reals that round to the positive `b`; those below a power of two are half as far apart. -/
def ofBinary64 (b : Binary64) : Interval :=
  let numerator := Nat.pow 2 (b.exponent - 2).toNat
  let denominator := Nat.pow 2 (2 - b.exponent).toNat
  let gap := if b.mantissa = Nat.pow 2 52 ∧ -1074 < b.exponent then 1 else 2
  ⟨(4 * b.mantissa - gap) * numerator, 4 * b.mantissa * numerator,
    (4 * b.mantissa + 2) * numerator, denominator, b.mantissa % 2 = 0⟩

def contains (i : Interval) (n : Nat) : Bool :=
  if i.closed then i.low ≤ n && n ≤ i.high else i.low < n && n < i.high

def leadingZeros (exact denominator : Nat) : (fuel k : Nat) → Nat
  | 0, k => k
  | fuel + 1, k =>
    if denominator ≤ exact * Nat.pow 10 k then k else leadingZeros exact denominator fuel (k + 1)

/-- The place of the leading digit: `10 ^ place ≤ exact < 10 ^ (place + 1)`. -/
def place (i : Interval) : Int :=
  if i.denominator ≤ i.exact then (digitsOf (i.exact / i.denominator)).length - 1
  else -(leadingZeros i.exact i.denominator 400 1 : Nat)

/-- The multiple of `10 ^ unit` in the interval that is nearest to the exact value, if one of its
two neighbours on that grid is in the interval. -/
def onGrid? (i : Interval) (unit : Int) : Option Nat :=
  let scale := Nat.pow 10 (-unit).toNat
  let grid := i.denominator * Nat.pow 10 unit.toNat
  let scaled : Interval := ⟨i.low * scale, i.exact * scale, i.high * scale, grid, i.closed⟩
  let below := scaled.exact / grid
  let lower := scaled.contains (below * grid)
  let upper := scaled.contains ((below + 1) * grid)
  match lower, upper with
  | false, false => none
  | true, false => some below
  | false, true => some (below + 1)
  | true, true =>
    let rest := 2 * (scaled.exact % grid)
    if rest < grid then some below
    else if grid < rest then some (below + 1)
    else some (below + below % 2)

def search (i : Interval) (place : Int) : (fuel count : Nat) → Digits
  | 0, _ => ⟨[], 0⟩
  | fuel + 1, count =>
    let unit := place - count
    match i.onGrid? unit with
    | some n => Digits.ofScaled n unit
    | none => search i place fuel (count + 1)

end Interval

/-- The decimal with the fewest digits that rounds to the finite `b`, and of those the nearest. -/
def shortest (b : Binary64) : Digits :=
  if b.mantissa = 0 then ⟨[], 0⟩
  else
    let i := Interval.ofBinary64 b
    i.search i.place 17 0

end Kotoba.Decimal
