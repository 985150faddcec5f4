import EventDocs.Json.Value

/-
Texts that a reader of YAML would take for something other than a text if they
stood there plain: null, truth values, integers and floating-point numbers. A
string that looks like one of these is written in quotes.
-/

namespace EventDocs.Yaml

-- ============================================================ words

/-- Words that mean null or a truth value. -/
def words : List String :=
  ["~", "null", "Null", "NULL", "true", "True", "TRUE", "false", "False", "FALSE"]

/-- The infinities, behind their sign, and what is not a number. -/
def infinities : List (List Char) :=
  [['.', 'i', 'n', 'f'], ['.', 'I', 'n', 'f'], ['.', 'I', 'N', 'F']]

def notANumbers : List (List Char) :=
  [['.', 'n', 'a', 'n'], ['.', 'N', 'a', 'N'], ['.', 'N', 'A', 'N']]

/-- Without a sign in front. -/
def unsigned : List Char → List Char
  | '+' :: cs => cs
  | '-' :: cs => cs
  | cs => cs

-- ============================================================ integers

/-- The value of a digit in a base up to sixteen. -/
def digitIn? (base : Nat) (c : Char) : Option Nat :=
  match Json.StringItem.hexDigit? c with
  | some d => if d < base then some d else none
  | none => none

/-- The number that one or more digits spell in a base. -/
def digitsIn? (base : Nat) : List Char → Option Nat
  | [] => none
  | cs => cs.foldlM (fun n c => (digitIn? base c).map (n * base + ·)) 0

/-- The base that a text names in front of its digits, and the digits. -/
def basedDigits? : List Char → Option (Nat × List Char)
  | '0' :: 'x' :: cs => some (16, cs)
  | '0' :: 'o' :: cs => some (8, cs)
  | '0' :: 'b' :: cs => some (2, cs)
  | _ => none

/-- Digits of a named base that fit in 128 bits, with or without a sign. -/
def isBasedInteger (cs : List Char) : Bool :=
  match basedDigits? (unsigned cs) with
  | some (base, digits) =>
    match digitsIn? base digits with
    | some n => if cs.head? = some '-' then n ≤ Nat.pow 2 127 else n < Nat.pow 2 128
    | none => false
  | none => false

-- ============================================================ decimal numbers

/-- Does `significand * 10 ^ exponent` round to a finite binary64 number? -/
def isFinite (significand : Nat) (exponent : Int) : Bool :=
  let digits := (Nat.toDigits 10 significand).length
  if significand = 0 ∨ exponent + digits ≤ 308 then true
  else if 310 < exponent + digits then false
  else
    significand * Nat.pow 10 exponent.toNat <
      (Nat.pow 2 1024 - Nat.pow 2 970) * Nat.pow 10 (-exponent).toNat

/-- The value of an exponent, if the text is one or is empty. -/
def exponent? : List Char → Option Int
  | [] => some 0
  | e :: cs =>
    if e = 'e' ∨ e = 'E' then
      let digits := unsigned cs
      if digits ≠ [] ∧ digits.all Char.isDigit then
        let n : Int := Json.digitsValue digits
        some (if cs.head? = some '-' then -n else n)
      else none
    else none

/-- The digits behind a point, if there is one, and the rest. -/
def fractionDigits : List Char → List Char × List Char
  | '.' :: cs => (cs.takeWhile Char.isDigit, cs.dropWhile Char.isDigit)
  | cs => ([], cs)

/-- A decimal number with a finite value: digits, a point among them or at
either end, and an exponent, the latter two if wanted. Plain integers of any
length are such numbers too. -/
def isDecimal (cs : List Char) : Bool :=
  let cs := unsigned cs
  let whole := cs.takeWhile Char.isDigit
  let (fraction, rest) := fractionDigits (cs.dropWhile Char.isDigit)
  match exponent? rest with
  | some e =>
    (whole ≠ [] || fraction ≠ []) &&
      isFinite (Json.digitsValue (whole ++ fraction)) (e - fraction.length)
  | none => false

/-- Digits with a zero in front of them, which some readers take for octal. -/
def isZeroPadded (cs : List Char) : Bool :=
  match unsigned cs with
  | '0' :: c :: more => (c :: more).all Char.isDigit
  | _ => false

-- ============================================================ all of them

/-- Would the text be read as something other than a text? -/
def readsAsOther (s : String) : Bool :=
  let cs := s.toList
  s = "" || words.contains s || infinities.contains (unsigned cs) || notANumbers.contains cs ||
    isBasedInteger cs || isDecimal cs || isZeroPadded cs

end EventDocs.Yaml
