/-! Points in time as plain scalars write them: a date, alone or with a time of day. -/
namespace Kotoba.Yaml.Timestamp

/-- A number of one or two digits within bounds, and what follows it. -/
def number? (low high : Nat) (cs : List Char) : Option (Nat × List Char) :=
  let digits := (cs.take 2).takeWhile Char.isDigit
  let n := digits.foldl (fun n d => 10 * n + (d.toNat - 48)) 0
  if !digits.isEmpty && low ≤ n && n ≤ high then some (n, cs.drop digits.length) else none

def after? (c : Char) : List Char → Option (List Char)
  | [] => none
  | d :: rest => if d = c then some rest else none

def daysIn (year month : Nat) : Nat :=
  if month = 2 then
    if year % 4 = 0 ∧ (year % 100 ≠ 0 ∨ year % 400 = 0) then 29 else 28
  else if [4, 6, 9, 11].contains month then 30
  else 31

def date? (cs : List Char) : Option (List Char) := do
  let digits := cs.takeWhile Char.isDigit
  if digits.length ≠ 4 then none
  else
    let year := digits.foldl (fun n d => 10 * n + (d.toNat - 48)) 0
    let (month, cs) ← number? 1 12 (← after? '-' (cs.drop 4))
    let (_, cs) ← number? 1 (daysIn year month) (← after? '-' cs)
    some cs

def fraction (cs : List Char) : List Char :=
  match cs with
  | c :: d :: rest =>
    if (c == '.' || c == ',') && d.isDigit then rest.dropWhile Char.isDigit else cs
  | _ => cs

def clock? (cs : List Char) : Option (List Char) := do
  let (_, cs) ← number? 0 23 cs
  let (_, cs) ← number? 0 59 (← after? ':' cs)
  let (_, cs) ← number? 0 59 (← after? ':' cs)
  some (fraction cs)

def isPair (high : Nat) (a b : Char) : Bool :=
  a.isDigit && b.isDigit && 10 * (a.toNat - 48) + (b.toNat - 48) ≤ high

/-- Whether a text is a time zone: `Z`, or an offset in hours and minutes. -/
def isZone : List Char → Bool
  | ['Z'] => true
  | [sign, a, b, ':', c, d] => (sign == '+' || sign == '-') && isPair 24 a b && isPair 60 c d
  | _ => false

/-- Whether a text is a date, a date and a time in a zone, or a date and a time without one. -/
def isTimestamp (s : String) : Bool :=
  match date? s.toList with
  | none => false
  | some [] => true
  | some (c :: cs) =>
    if c == 'T' || c == 't' then ((clock? cs).map isZone).getD false
    else if c == ' ' then clock? (cs.dropWhile (· == ' ')) == some []
    else false

end Kotoba.Yaml.Timestamp
