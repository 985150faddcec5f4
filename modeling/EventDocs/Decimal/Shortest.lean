import EventDocs.Decimal.Binary64

/-
The fewest decimal digits that read back as a given binary64 number, and of
those the nearest to it. For one digit, two digits and so on, the two
neighbours of the number on the decimal grid of that many digits are tried;
seventeen digits always suffice. Everything is exact arithmetic on naturals.
-/

namespace EventDocs

/-- The decimal number `0.d₁d₂… * 10 ^ point`, its digits being those of
`digits` in base ten. -/
structure ShortDecimal where
  digits : Nat
  /-- How many digits `digits` has. -/
  count : Nat
  /-- Where the decimal point stands, counted in digits from the first. -/
  point : Int
deriving DecidableEq, Repr, Inhabited

namespace Binary64

/-- The number and the ends of the interval that rounds to it, in units of
`2 ^ (exponent - 2)`. Below a power of two the format is twice as fine. -/
def interval (x : Binary64) : Nat × Nat × Nat :=
  let m := 4 * x.mantissa
  let below := if x.mantissa = Nat.pow 2 52 ∧ minExponent < x.exponent then 1 else 2
  (m - below, m, m + 2)

/-- The point of the decimal expansion: `10 ^ (point - 1) ≤ x < 10 ^ point`,
found from an estimate by at most a few steps. -/
def pointFrom (num den : Nat) (estimate : Int) : Nat → Int
  | 0 => estimate
  | fuel + 1 =>
    let low := if 0 ≤ estimate - 1 then num ≥ den * Nat.pow 10 (estimate - 1).toNat
      else num * Nat.pow 10 (1 - estimate).toNat ≥ den
    let high := if 0 ≤ estimate then num < den * Nat.pow 10 estimate.toNat
      else num * Nat.pow 10 (-estimate).toNat < den
    if !low then pointFrom num den (estimate - 1) fuel
    else if !high then pointFrom num den (estimate + 1) fuel
    else estimate

/-- The point of a positive number. -/
def point (x : Binary64) : Int :=
  let b := magnitude x.fraction.1 x.fraction.2
  pointFrom x.fraction.1 x.fraction.2 (b * 30103 / 100000 + 1) 4

/-- Does the candidate `d * 10 ^ s` lie in the interval that rounds to the
number? The ends belong to it exactly if the mantissa is even. -/
def admits (x : Binary64) (s : Int) (d : Nat) : Bool :=
  let (low, _, high) := x.interval
  let e := x.exponent - 2
  -- compare d * 10^s with low * 2^e and high * 2^e over a common denominator
  let candidate := d * Nat.pow 10 s.toNat * Nat.pow 2 (-e).toNat
  let unit := Nat.pow 2 e.toNat * Nat.pow 10 (-s).toNat
  if x.mantissa % 2 = 0 then low * unit ≤ candidate && candidate ≤ high * unit
  else low * unit < candidate && candidate < high * unit

/-- The neighbours of the number on the grid of step `10 ^ s`: the multiple at
or below it, and whether the next one is nearer (or as near, and even). -/
def gridBelow (x : Binary64) (s : Int) : Nat × Bool :=
  let num := x.fraction.1 * Nat.pow 10 (-s).toNat
  let den := x.fraction.2 * Nat.pow 10 s.toNat
  let d := num / den
  let twice := 2 * (num % den)
  (d, decide (den < twice) || (decide (den = twice) && d % 2 = 1))

/-- The better admitted neighbour with `n` digits, if there is one. -/
def candidate? (x : Binary64) (n : Nat) : Option Nat :=
  let s := x.point - n
  let (d, upIsNearer) := x.gridBelow s
  match x.admits s d, x.admits s (d + 1) with
  | true, true => some (if upIsNearer then d + 1 else d)
  | true, false => some d
  | false, true => some (d + 1)
  | false, false => none

/-- Try `n` digits, then more, `fuel` times in all. -/
def shortestFrom (x : Binary64) (n : Nat) : Nat → ShortDecimal
  | 0 => ⟨(x.gridBelow (x.point - n)).1, n, x.point⟩
  | fuel + 1 =>
    match x.candidate? n with
    | some d =>
      -- a candidate may have grown to a one with one digit more
      if d = Nat.pow 10 n then ⟨1, 1, x.point + 1⟩ else ⟨d, n, x.point⟩
    | none => shortestFrom x (n + 1) fuel

/-- The fewest digits that read back as a positive number. -/
def shortest (x : Binary64) : ShortDecimal :=
  shortestFrom x 1 17

end Binary64

end EventDocs
