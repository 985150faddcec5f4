import EventDocs.Decimal.Layout
import EventDocs.Json.Value

/-
JSON text of a value, on one line without spaces or spread over lines with two
spaces for each level. Only what JSON forbids in a string is escaped there.
-/

namespace EventDocs.Json

-- ============================================================ strings, numbers

/-- A positive exponent is written with its sign. -/
def numberLayout : NumberLayout := ⟨true⟩

def Number.print : Number → List Char
  | integer n => NumberLayout.integer n
  | float negative x => numberLayout.float negative x

/-- A character inside a string. -/
def printChar (c : Char) : List Char :=
  if c = '"' then ['\\', '"']
  else if c = '\\' then ['\\', '\\']
  else if c = '\x08' then ['\\', 'b']
  else if c = '\x0c' then ['\\', 'f']
  else if c = '\n' then ['\\', 'n']
  else if c = '\r' then ['\\', 'r']
  else if c = '\t' then ['\\', 't']
  else if c.toNat < 0x20 then
    ['\\', 'u', '0', '0', (c.toNat / 16).digitChar, (c.toNat % 16).digitChar]
  else [c]

/-- A string in its quotes. -/
def printString (s : String) : List Char :=
  '"' :: s.toList.flatMap printChar ++ ['"']

def printBool (b : Bool) : List Char :=
  if b then ['t', 'r', 'u', 'e'] else ['f', 'a', 'l', 's', 'e']

namespace Value

-- ============================================================ on one line

mutual

/-- The value on one line. -/
def compact : Value → List Char
  | null => ['n', 'u', 'l', 'l']
  | bool b => printBool b
  | number n => n.print
  | string s => printString s
  | array items => '[' :: compactItems items ++ [']']
  | object members => '{' :: compactMembers members ++ ['}']

/-- Items with commas between them. -/
def compactItems : List Value → List Char
  | [] => []
  | [v] => v.compact
  | v :: vs => v.compact ++ ',' :: compactItems vs

/-- Members with commas between them. -/
def compactMembers : List (String × Value) → List Char
  | [] => []
  | [(name, v)] => printString name ++ ':' :: v.compact
  | (name, v) :: ms => printString name ++ ':' :: v.compact ++ ',' :: compactMembers ms

end

-- ============================================================ over lines

/-- A new line, indented by two spaces for each level. -/
def newLine (level : Nat) : List Char :=
  '\n' :: List.replicate (2 * level) ' '

mutual

/-- The value over lines, its first line standing where it stands and the rest
indented for `level`. -/
def pretty (level : Nat) : Value → List Char
  | null => ['n', 'u', 'l', 'l']
  | bool b => printBool b
  | number n => n.print
  | string s => printString s
  | array [] => ['[', ']']
  | array (v :: vs) => '[' :: prettyItems (level + 1) (v :: vs) ++ newLine level ++ [']']
  | object [] => ['{', '}']
  | object (m :: ms) => '{' :: prettyMembers (level + 1) (m :: ms) ++ newLine level ++ ['}']

/-- Items, each on a line of its own, with commas behind all but the last. -/
def prettyItems (level : Nat) : List Value → List Char
  | [] => []
  | [v] => newLine level ++ v.pretty level
  | v :: vs => newLine level ++ v.pretty level ++ ',' :: prettyItems level vs

/-- Members, each on a line of its own, with commas behind all but the last. -/
def prettyMembers (level : Nat) : List (String × Value) → List Char
  | [] => []
  | [(name, v)] => newLine level ++ printString name ++ ':' :: ' ' :: v.pretty level
  | (name, v) :: ms =>
    newLine level ++ printString name ++ ':' :: ' ' :: v.pretty level ++
      ',' :: prettyMembers level ms

end

/-- The text on one line. -/
def toCompact (v : Value) : String := .ofList v.compact

/-- The text over lines. -/
def toPretty (v : Value) : String := .ofList (v.pretty 0)

end Value

end EventDocs.Json
