import EventDocs.Decimal.Layout
import EventDocs.Yaml.Scalar

/-
Values as YAML in block style. Each level of a mapping is indented by two
spaces; a sequence under a key is not indented further than the key. Behind a
dash, and behind the marks of a key that does not fit on the line of its value,
a mapping or sequence starts on the same line.

Every function gives whole lines: what it writes ends in a line break.
-/

namespace EventDocs.Yaml

open EventDocs.Json (Value Number)

-- ============================================================ leaves

/-- A positive exponent is written without a sign. -/
def numberLayout : NumberLayout := ⟨false⟩

def number : Number → List Char
  | .integer n => NumberLayout.integer n
  | .float negative x => numberLayout.float negative x

/-- Keys longer than this, in bytes, do not share a line with their value. -/
def maxKeySize : Nat := 128

/-- May the key stand on the line of its value? -/
def isInlineKey (key : String) : Bool :=
  key.utf8ByteSize ≤ maxKeySize && !key.toList.any isBreak

/-- A string in the rest of a line. -/
def stringLine (indent : Nat) (s : String) : List Char :=
  ' ' :: finishLine s (scalar .elsewhere (indent + 2) s)

-- ============================================================ nodes

/-- What a node is written behind. -/
inductive Mark where
  /-- The colon of a key on the same line. -/
  | colon
  /-- A dash, or the mark of a key or value on a line of its own. -/
  | dash
deriving DecidableEq, Repr

/-- Indentation, unless the line has been begun by the mark before it. -/
def lead (begun : Bool) (indent : Nat) : List Char :=
  if begun then [] else indentation indent

mutual

/-- A value in the rest of the line behind a mark, and on further lines. The
surrounding node is indented by `indent`. -/
def node (mark : Mark) (indent : Nat) : Value → List Char
  | .null => [' ', 'n', 'u', 'l', 'l', '\n']
  | .bool true => [' ', 't', 'r', 'u', 'e', '\n']
  | .bool false => [' ', 'f', 'a', 'l', 's', 'e', '\n']
  | .number n => ' ' :: number n ++ ['\n']
  | .string s => stringLine indent s
  | .array [] => [' ', '[', ']', '\n']
  | .array (v :: vs) =>
    if mark = .colon then '\n' :: sequence false indent (v :: vs)
    else ' ' :: sequence true (indent + 2) (v :: vs)
  | .object [] => [' ', '{', '}', '\n']
  | .object (m :: ms) =>
    if mark = .colon then '\n' :: mapping false (indent + 2) (m :: ms)
    else ' ' :: mapping true (indent + 2) (m :: ms)

/-- The items of a sequence. -/
def sequence (begun : Bool) (indent : Nat) : List Value → List Char
  | [] => []
  | v :: vs => lead begun indent ++ '-' :: node .dash indent v ++ sequence false indent vs

/-- The members of a mapping. -/
def mapping (begun : Bool) (indent : Nat) : List (String × Value) → List Char
  | [] => []
  | (key, v) :: ms =>
    let entry :=
      if isInlineKey key then scalar .inlineKey (indent + 2) key ++ ':' :: node .colon indent v
      else
        '?' :: stringLine indent key ++ indentation indent ++ ':' :: node .dash indent v
    lead begun indent ++ entry ++ mapping false indent ms

end

/-- A whole document. -/
def document : Value → List Char
  | .object (m :: ms) => mapping false 0 (m :: ms)
  | .array (v :: vs) => sequence false 0 (v :: vs)
  | v => (node .dash 0 v).drop 1

/-- A value as a YAML text. -/
def print (v : Value) : String := .ofList (document v)

end EventDocs.Yaml
