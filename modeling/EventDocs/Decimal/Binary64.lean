/-
Finite, non-negative numbers of the binary64 format, exactly: a mantissa below
2^53 times a power of two. Every operation computes the exact rational result
and rounds it once, to the nearest number of the format and to the even one of
two that are equally near. A result too large for the format is no number.
-/

namespace EventDocs

/-- The number `mantissa * 2 ^ exponent`. -/
structure Binary64 where
  mantissa : Nat
  exponent : Int
deriving DecidableEq, Repr, Inhabited

namespace Binary64

-- ============================================================ rounding

/-- `num / den` rounded to the nearest integer, a half to the even one. -/
def roundQuotient (num den : Nat) : Nat :=
  let q := num / den
  let twice := 2 * (num % den)
  if twice < den then q
  else if den < twice then q + 1
  else if q % 2 = 0 then q else q + 1

/-- The fraction `num / den / 2 ^ e`. -/
def scaled (num den : Nat) (e : Int) : Nat × Nat :=
  (num * Nat.pow 2 (-e).toNat, den * Nat.pow 2 e.toNat)

/-- The greatest `b` with `2 ^ b ≤ num / den`, for positive `num` and `den`. -/
def magnitude (num den : Nat) : Int :=
  let b : Int := num.log2 - den.log2
  let (n, d) := scaled num den b
  if d ≤ n then b else b - 1

/-- The least exponent of the format. -/
def minExponent : Int := -1074

/-- The number of the format nearest to `num / den`, unless it is too large. -/
def round? (num den : Nat) : Option Binary64 :=
  if num = 0 then some ⟨0, minExponent⟩
  else
    let e := max (magnitude num den - 52) minExponent
    let (n, d) := scaled num den e
    let q := roundQuotient n d
    let rounded : Binary64 := if q = Nat.pow 2 53 then ⟨Nat.pow 2 52, e + 1⟩ else ⟨q, e⟩
    if 971 < rounded.exponent then none else some rounded

-- ============================================================ operations

/-- The number as a fraction of integers. -/
def fraction (x : Binary64) : Nat × Nat :=
  (x.mantissa * Nat.pow 2 x.exponent.toNat, Nat.pow 2 (-x.exponent).toNat)

def isZero (x : Binary64) : Bool := x.mantissa = 0

def zero : Binary64 := ⟨0, minExponent⟩

/-- The nearest number to an integer. -/
def ofNat? (n : Nat) : Option Binary64 := round? n 1

def mul? (x y : Binary64) : Option Binary64 :=
  round? (x.fraction.1 * y.fraction.1) (x.fraction.2 * y.fraction.2)

/-- The quotient by a number other than zero. -/
def div? (x y : Binary64) : Option Binary64 :=
  round? (x.fraction.1 * y.fraction.2) (x.fraction.2 * y.fraction.1)

/-- The greatest power of ten of the format. -/
def maxPower : Nat := 308

/-- Divide by a power of ten, in steps that the format has. -/
def divPower? (x : Binary64) (k : Nat) : Option Binary64 :=
  if k ≤ maxPower then do x.div? (← ofNat? (Nat.pow 10 k))
  else if x.isZero then some x
  else do (← x.div? (← ofNat? (Nat.pow 10 maxPower))).divPower? (k - maxPower)
  termination_by k
  decreasing_by simp only [maxPower] at *; omega

/-- The value of `significand * 10 ^ exponent` in two roundings: the significand
first, then its product or quotient with the power of ten. -/
def ofScientific? (significand : Nat) (exponent : Int) : Option Binary64 := do
  let x ← ofNat? significand
  if exponent < 0 then x.divPower? exponent.natAbs
  else if x.isZero then some x
  else if exponent.natAbs ≤ maxPower then x.mul? (← ofNat? (Nat.pow 10 exponent.natAbs))
  else none

end Binary64

end EventDocs
