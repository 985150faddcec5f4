import EventDocs.Decimal.Binary64
import EventDocs.Json.Tree
import EventDocs.NameMap

/-
JSON values: what a text means once numbers are numbers and names are unique.
The reader of values is stricter and looser than the reader of trees: it limits
the nesting, wants every string to spell a text and every number to fit, and of
members with one name it keeps the last. Objects that were read have their
members in the order of their names; objects that a program writes keep the
order that it gives.
-/

namespace EventDocs.Json

-- ============================================================ numbers

/-- An integer of 64 bits, signed or unsigned, or a binary64 number. -/
inductive Number where
  | integer (value : Int)
  | float (negative : Bool) (magnitude : Binary64)
deriving DecidableEq, Repr, Inhabited

/-- The digit's value. -/
def digitValue (c : Char) : Nat := c.toNat - 48

/-- The number that a run of digits spells. -/
def digitsValue (digits : List Char) : Nat :=
  digits.foldl (fun n c => n * 10 + digitValue c) 0

/-- The greatest unsigned integer of 64 bits. -/
def maxUnsigned : Nat := 0xffffffffffffffff

/-- The greatest exponent that is looked at. -/
def maxExponent : Nat := 0x7fffffff

/-- A significand that is being collected in 64 bits. -/
structure Significand where
  value : Nat
  exponent : Int
  /-- A digit has been met that no longer fitted. -/
  full : Bool
deriving DecidableEq, Repr

namespace Significand

/-- A digit before the point. Once one does not fit, it and all that follow only
raise the exponent. -/
def pushWhole (s : Significand) (c : Char) : Significand :=
  let next := s.value * 10 + digitValue c
  if s.full || maxUnsigned < next then ⟨s.value, s.exponent + 1, true⟩
  else ⟨next, s.exponent, false⟩

/-- A digit behind the point. Once one does not fit, it and all that follow are
dropped. -/
def pushFraction (s : Significand) (c : Char) : Significand :=
  let next := s.value * 10 + digitValue c
  if s.full || maxUnsigned < next then { s with full := true }
  else ⟨next, s.exponent - 1, false⟩

/-- The significand of a numeral and the exponent that its point gives. -/
def ofNumeral (n : Numeral) : Significand :=
  let whole := n.whole.foldl pushWhole ⟨0, 0, false⟩
  (n.fraction.getD []).foldl pushFraction { whole with full := false }

end Significand

namespace Number

/-- The binary64 number of a numeral, unless it is too large. An exponent beyond
all measure makes it zero, or too large. -/
def float? (n : Numeral) : Option Number :=
  let s := Significand.ofNumeral n
  match n.exponent with
  | none => (Binary64.ofScientific? s.value s.exponent).map (.float n.negative)
  | some (negative, digits) =>
    let e := digitsValue digits
    if maxExponent < e then
      if s.value ≠ 0 ∧ !negative then none else some (.float n.negative .zero)
    else
      let exponent := if negative then s.exponent - e else s.exponent + e
      (Binary64.ofScientific? s.value exponent).map (.float n.negative)

/-- The number that a numeral means. Integers that fit in 64 bits are exact; a
negative zero is a binary64 number. -/
def ofNumeral? (n : Numeral) : Option Number :=
  match n.fraction, n.exponent with
  | none, none =>
    let v := digitsValue n.whole
    if n.negative then
      if v = 0 ∨ 0x8000000000000000 < v then float? n else some (.integer (-v))
    else if maxUnsigned < v then float? n
    else some (.integer v)
  | _, _ => float? n

end Number

-- ============================================================ values

/-- A JSON value. -/
inductive Value where
  | null
  | bool (value : Bool)
  | number (value : Number)
  | string (value : String)
  | array (items : List Value)
  | object (members : List (String × Value))
deriving Repr, Inhabited

namespace Value

/-- The deepest nesting of arrays and objects that the reader takes. -/
def maxDepth : Nat := 127

mutual

/-- The value of a tree, whatever its depth. -/
def ofTree? : Tree → Option Value
  | .null => some .null
  | .bool b => some (.bool b)
  | .number n => (Number.ofNumeral? n).map .number
  | .string s => s.map .string
  | .array items => (itemsOfTrees? items).map .array
  | .object members => (membersOfTrees? [] members).map .object

/-- The values of some trees. -/
def itemsOfTrees? : List Tree → Option (List Value)
  | [] => some []
  | t :: ts =>
    match ofTree? t, itemsOfTrees? ts with
    | some v, some vs => some (v :: vs)
    | _, _ => none

/-- The members of an object, added to those that it has. -/
def membersOfTrees? (sofar : List (String × Value)) :
    List (Spelling × Tree) → Option (List (String × Value))
  | [] => some sofar
  | (name, t) :: ms =>
    match name, ofTree? t with
    | some n, some v => membersOfTrees? (insertByName n v sofar) ms
    | _, _ => none

end

/-- The value that a JSON text spells. -/
def read? (text : String) : Option Value := do
  let t ← Tree.read? text
  if maxDepth < t.depth then none else ofTree? t

/-- The member of an object with a certain name. -/
def member? (name : String) : Value → Option Value
  | object members => members.lookup name
  | _ => none

end Value

end EventDocs.Json
