import Kotoba.Decimal.Shortest

/-! Decimal numbers as text. -/
namespace Kotoba.Decimal

/-- How a number is laid out: positionally while its leading digit stands at a place that is at
least `least` and below `bound`, and otherwise with an exponent of at least `width` digits. -/
structure Layout where
  least : Option Int := none
  bound : Option Int := none
  width : Nat := 2

namespace Layout

def isPositional (l : Layout) (place : Int) : Bool :=
  l.least.all (· ≤ place) && l.bound.all (place < ·)

end Layout

private def digitString (ds : List Nat) : String := String.ofList (ds.map Nat.digitChar)

/-- Digits around a point, none of them dropped: `0.05`, `12.5`, `1200`. -/
def Digits.positional (d : Digits) : String :=
  if d.point ≤ 0 then
    if d.digits.isEmpty then "0"
    else "0." ++ "".pushn '0' (-d.point).toNat ++ digitString d.digits
  else
    let whole := d.point.toNat
    digitString (d.digits.take whole) ++ "".pushn '0' (whole - d.digits.length) ++
      (if d.digits.length ≤ whole then "" else "." ++ digitString (d.digits.drop whole))

/-- One digit before the point, and an exponent: `1e-05`, `1.25e+07`. -/
def Digits.scientific (d : Digits) (width : Nat) : String :=
  let exponent := if d.digits.isEmpty then 0 else d.point - 1
  let size := toString exponent.natAbs
  digitString (d.digits.take 1) ++
    (if d.digits.length ≤ 1 then "" else "." ++ digitString (d.digits.drop 1)) ++
    (if exponent < 0 then "e-" else "e+") ++ "".pushn '0' (width - size.length) ++ size

def Layout.text (l : Layout) (x : Float) : String :=
  match Binary64.ofFloat? x with
  | none => if x.isNaN then "NaN" else if x < 0 then "-Inf" else "+Inf"
  | some b =>
    let d := shortest b
    let place := if d.digits.isEmpty then 0 else d.point - 1
    (if b.negative then "-" else "") ++
      (if l.isPositional place then d.positional else d.scientific l.width)

/-- Reads `digits[.digits][e[±]digits]` with an optional sign, rounding to the nearest number. -/
def parse? (s : String) : Option Float := do
  let cs := s.toList
  let (negative, cs) := match cs with
    | '-' :: cs => (true, cs)
    | '+' :: cs => (false, cs)
    | cs => (false, cs)
  let whole := cs.takeWhile Char.isDigit
  let (fraction, cs) := match cs.dropWhile Char.isDigit with
    | '.' :: cs => (cs.takeWhile Char.isDigit, cs.dropWhile Char.isDigit)
    | cs => ([], cs)
  if whole.isEmpty && fraction.isEmpty then none
  let exponent ← match cs with
    | [] => some (0 : Int)
    | e :: cs =>
      if e != 'e' && e != 'E' then none
      else
        let (sign, cs) := match cs with
          | '-' :: cs => ((-1 : Int), cs)
          | '+' :: cs => (1, cs)
          | cs => (1, cs)
        if cs.isEmpty || !cs.all Char.isDigit then none
        else (String.ofList cs).toNat?.map fun n => sign * (n : Int)
  let mantissa := (whole ++ fraction).foldl (fun n c => n * 10 + (c.toNat - 48)) 0
  -- Numbers beyond these scales are infinite or zero anyway.
  let reach : Int := 1100 + (whole ++ fraction).length
  let scale := max (-reach) (min reach (exponent - fraction.length))
  let magnitude := Float.ofScientific mantissa (scale < 0) scale.natAbs
  some (if negative then -magnitude else magnitude)

end Kotoba.Decimal
