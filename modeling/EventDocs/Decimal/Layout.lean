import EventDocs.Decimal.Shortest

/-
Decimal text of a binary64 number. Numbers of ordinary size are written
positionally, always with a decimal point; others in exponent form with one
digit before the point. What differs between output formats is one field.
-/

namespace EventDocs

/-- How an output format writes numbers. -/
structure NumberLayout where
  /-- Is a positive exponent written with a plus sign? -/
  plusInExponent : Bool
deriving DecidableEq, Repr

namespace NumberLayout

/-- Digits of a natural number, in base ten. -/
def natural (n : Nat) : List Char := Nat.toDigits 10 n

/-- Digits of an integer, with a minus sign if it is negative. -/
def integer : Int → List Char
  | .ofNat n => natural n
  | .negSucc n => '-' :: natural (n + 1)

/-- The exponent, with its sign as the layout wants it. -/
def exponent (layout : NumberLayout) (e : Int) : List Char :=
  if e < 0 then '-' :: natural e.natAbs
  else if layout.plusInExponent then '+' :: natural e.natAbs
  else natural e.natAbs

/-- Positional for points above -5 and up to 16, exponent form otherwise. -/
def decimal (layout : NumberLayout) (d : ShortDecimal) : List Char :=
  let digits := natural d.digits
  let point := d.point.toNat
  if 16 < d.point ∨ d.point ≤ -5 then
    match digits with
    | [] => []
    | [first] => first :: 'e' :: layout.exponent (d.point - 1)
    | first :: more => first :: '.' :: more ++ 'e' :: layout.exponent (d.point - 1)
  else if d.point ≤ 0 then
    '0' :: '.' :: List.replicate (-d.point).toNat '0' ++ digits
  else if d.count ≤ point then
    digits ++ List.replicate (point - d.count) '0' ++ ['.', '0']
  else digits.take point ++ '.' :: digits.drop point

/-- A number with its sign. -/
def float (layout : NumberLayout) (negative : Bool) (x : Binary64) : List Char :=
  let unsigned := if x.isZero then ['0', '.', '0'] else layout.decimal x.shortest
  if negative then '-' :: unsigned else unsigned

end NumberLayout

end EventDocs
