import EventDocs.Yaml.Plain

/-
How a string is written in YAML. A style is wanted by what the string is: a
literal block if it has line feeds, single quotes if it would be read as
something else, and plain otherwise. Where the wanted style cannot hold the
string, plain gives way to single quotes and everything to double quotes, which
can hold anything.
-/

namespace EventDocs.Yaml

-- ============================================================ characters

/-- Ends a line. -/
def isBreak (c : Char) : Bool :=
  c = '\n' || c = '\r' || c = '\u0085' || c = '\u2028' || c = '\u2029'

/-- A space, a tab, a line break or NUL. -/
def isBlankOrBreak (c : Char) : Bool :=
  c = ' ' || c = '\t' || c = '\x00' || isBreak c

/-- A character that is never written as it is. -/
def isSpecial (c : Char) : Bool :=
  let n := c.toNat
  !(n == 0x0A || (0x20 ≤ n && n ≤ 0x7E) || (0xA0 ≤ n && n ≤ 0xD7FF) ||
    (0xE000 ≤ n && n ≤ 0xFFFD && n != 0xFEFF) || 0x10000 ≤ n)

/-- Characters that may not start a plain scalar. -/
def indicators : List Char :=
  ['#', ',', '[', ']', '{', '}', '&', '*', '!', '|', '>', '\'', '"', '%', '@', '`']

-- ============================================================ what stands against a style

/-- Two neighbours of which the first satisfies `p` and the second `q`. -/
def hasNeighbours (p q : Char → Bool) : List Char → Bool
  | a :: b :: cs => (p a && q b) || hasNeighbours p q (b :: cs)
  | _ => false

/-- The text ends, or a blank or break follows. -/
def endsWord : List Char → Bool
  | [] => true
  | c :: _ => isBlankOrBreak c

/-- Behind the first character: a colon at the end of a word, or a hash sign at
the start of one. -/
def hasInnerIndicator : List Char → Bool
  | a :: b :: cs =>
    (b = ':' && endsWord cs) || (b = '#' && isBlankOrBreak a) || hasInnerIndicator (b :: cs)
  | _ => false

/-- Something in the text would be read as punctuation if it stood plain. -/
def hasIndicator (cs : List Char) : Bool :=
  ['-', '-', '-'].isPrefixOf cs || ['.', '.', '.'].isPrefixOf cs ||
    (match cs with
    | [] => false
    | c :: rest =>
      indicators.contains c || ((c = '?' || c = ':' || c = '-') && endsWord rest)) ||
    hasInnerIndicator cs

def isSpaceOrBreak (c : Char) : Bool := c = ' ' || isBreak c

/-- Some character satisfies `p` at either end of the text. -/
def hasEnd (p : Char → Bool) (cs : List Char) : Bool :=
  cs.head?.any p || cs.getLast?.any p

/-- A space right before a line break. -/
def hasSpaceBreak : List Char → Bool := hasNeighbours (· = ' ') isBreak

/-- A space right behind a line break. -/
def hasBreakSpace : List Char → Bool := hasNeighbours isBreak (· = ' ')

def allowsPlain (cs : List Char) : Bool :=
  !(hasIndicator cs || hasEnd isSpaceOrBreak cs || cs.any isBreak || cs.any isSpecial)

def allowsSingle (cs : List Char) : Bool :=
  !(cs.any isSpecial || hasSpaceBreak cs || hasBreakSpace cs)

def allowsLiteral (cs : List Char) : Bool :=
  !(cs.any isSpecial || hasSpaceBreak cs || cs.getLast? = some ' ')

-- ============================================================ the styles

inductive Style where
  | plain
  | single
  | double
  | literal
deriving DecidableEq, Repr

/-- Where a scalar stands: as a key on the line of its value, or anywhere
else. -/
inductive Place where
  | inlineKey
  | elsewhere
deriving DecidableEq, Repr

/-- The style of a string. -/
def styleOf (place : Place) (s : String) : Style :=
  let cs := s.toList
  if cs.contains '\n' then
    if place = .elsewhere && allowsLiteral cs then .literal else .double
  else if !readsAsOther s && allowsPlain cs then .plain
  else if allowsSingle cs then .single
  else .double

-- ============================================================ writing

/-- Spaces in front of a line. -/
def indentation (indent : Nat) : List Char := List.replicate indent ' '

/-- Text within single quotes, line breaks being followed by the indentation.
`fresh` says that a line has just been started. -/
def singleBody (indent : Nat) (fresh : Bool) : List Char → List Char
  | [] => if fresh then indentation indent else []
  | c :: cs =>
    if isBreak c then c :: singleBody indent true cs
    else
      (if fresh then indentation indent else []) ++
        (if c = '\'' then ['\'', '\''] else [c]) ++ singleBody indent false cs

/-- An upper-case hexadecimal digit. -/
def hexDigit (n : Nat) : Char := (Nat.digitChar (n % 16)).toUpper

/-- The last `width` hexadecimal digits of a number. -/
def hexDigits : Nat → Nat → List Char
  | 0, _ => []
  | width + 1, n => hexDigits width (n / 16) ++ [hexDigit n]

/-- The escapes that have a letter of their own. -/
def shortEscapes : List (Char × Char) :=
  [('\x00', '0'), ('\x07', 'a'), ('\x08', 'b'), ('\t', 't'), ('\n', 'n'), ('\x0b', 'v'),
    ('\x0c', 'f'), ('\r', 'r'), ('\x1b', 'e'), ('"', '"'), ('\\', '\\'), ('\u0085', 'N'),
    ('\u2028', 'L'), ('\u2029', 'P')]

/-- A character within double quotes. -/
def doubleChar (c : Char) : List Char :=
  match shortEscapes.lookup c with
  | some letter => ['\\', letter]
  | none =>
    let n := c.toNat
    if !isSpecial c then [c]
    else if n ≤ 0xFF then '\\' :: 'x' :: hexDigits 2 n
    else if n ≤ 0xFFFF then '\\' :: 'u' :: hexDigits 4 n
    else '\\' :: 'U' :: hexDigits 8 n

/-- The marks behind the bar of a literal block: a digit if its first line could
be mistaken for deeper indentation, and how its end is to be read. -/
def literalMarks (cs : List Char) : List Char :=
  (if cs.head?.any isSpaceOrBreak then ['2'] else []) ++
    match cs.reverse with
    | [] => ['-']
    | [last] => if isBreak last then ['+'] else ['-']
    | last :: before :: _ =>
      if !isBreak last then ['-'] else if isBreak before then ['+'] else []

/-- The lines of a literal block. Empty lines are not indented. `fresh` says
that a line has just been started. -/
def literalBody (indent : Nat) (fresh : Bool) : List Char → List Char
  | [] => []
  | c :: cs =>
    if isBreak c then c :: literalBody indent true cs
    else (if fresh then indentation indent else []) ++ c :: literalBody indent false cs

/-- The text of a string, its further lines indented by `indent`. -/
def scalar (place : Place) (indent : Nat) (s : String) : List Char :=
  let cs := s.toList
  match styleOf place s with
  | .plain => cs
  | .single => '\'' :: singleBody indent false cs ++ ['\'']
  | .double => '"' :: cs.flatMap doubleChar ++ ['"']
  | .literal => '|' :: literalMarks cs ++ '\n' :: literalBody indent true cs

/-- The text with a line feed behind it, unless it ends in the break of a
literal block. -/
def finishLine (s : String) (text : List Char) : List Char :=
  if styleOf .elsewhere s = .literal && s.toList.getLast?.any isBreak then text
  else text ++ ['\n']

end EventDocs.Yaml
