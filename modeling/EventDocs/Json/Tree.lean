import EventDocs.Json.Symbol

/-
A JSON text as a tree, exactly as it was written: members in order and with
repeated names, numbers by their digits, strings by their spelling. What a
reader makes of repeated names or of a number too large is decided afterwards.

The reader is a machine with a stack. Its state says what may come next; each
symbol moves it or is refused. It needs no bound on nesting.
-/

namespace EventDocs.Json

-- ============================================================ trees

/-- A JSON text as it was written. -/
inductive Tree where
  | null
  | bool (value : Bool)
  | number (value : Numeral)
  | string (value : Spelling)
  | array (items : List Tree)
  | object (members : List (Spelling × Tree))
deriving Repr, Inhabited

namespace Tree

mutual

/-- How many arrays and objects lie around the innermost value, its own
included. -/
def depth : Tree → Nat
  | array items => itemsDepth items + 1
  | object members => membersDepth members + 1
  | _ => 0

/-- The greatest depth among some items. -/
def itemsDepth : List Tree → Nat
  | [] => 0
  | t :: ts => max t.depth (itemsDepth ts)

/-- The greatest depth among some members. -/
def membersDepth : List (Spelling × Tree) → Nat
  | [] => 0
  | (_, t) :: ms => max t.depth (membersDepth ms)

end

end Tree

-- ============================================================ the machine

/-- A value that is under way, waiting for one of its parts. Parts are kept
last one first. -/
inductive Frame where
  | item (before : List Tree)
  | member (before : List (Spelling × Tree)) (name : Spelling)
deriving Repr

/-- What has been read, and so what may come next. -/
inductive State where
  /-- A value. -/
  | value (stack : List Frame)
  /-- The first item of an array, or its end. -/
  | firstItem (stack : List Frame)
  /-- The first name of an object, or its end. -/
  | firstName (stack : List Frame)
  /-- A further name of an object. -/
  | furtherName (before : List (Spelling × Tree)) (stack : List Frame)
  /-- The colon behind a name. -/
  | colon (before : List (Spelling × Tree)) (name : Spelling) (stack : List Frame)
  /-- A comma, or the end of an array. -/
  | nextItem (before : List Tree) (stack : List Frame)
  /-- A comma, or the end of an object. -/
  | nextMember (before : List (Spelling × Tree)) (stack : List Frame)
  /-- Nothing: this is the value. -/
  | finished (tree : Tree)
deriving Repr

namespace State

/-- A value is complete and goes where it was waited for. -/
def deliver (t : Tree) : List Frame → State
  | [] => finished t
  | .item before :: stack => nextItem (t :: before) stack
  | .member before name :: stack => nextMember ((name, t) :: before) stack

/-- A symbol that starts a value. -/
def start (stack : List Frame) : Symbol → Option State
  | .null => some (deliver .null stack)
  | .bool b => some (deliver (.bool b) stack)
  | .number n => some (deliver (.number n) stack)
  | .string s => some (deliver (.string s) stack)
  | .openArray => some (firstItem stack)
  | .openObject => some (firstName stack)
  | _ => none

/-- The state behind a symbol, unless the symbol may not come. -/
def step : State → Symbol → Option State
  | value stack, s => start stack s
  | firstItem stack, .closeArray => some (deliver (.array []) stack)
  | firstItem stack, s => start (.item [] :: stack) s
  | firstName stack, .closeObject => some (deliver (.object []) stack)
  | firstName stack, .string n => some (colon [] n stack)
  | furtherName before stack, .string n => some (colon before n stack)
  | colon before n stack, .colon => some (value (.member before n :: stack))
  | nextItem before stack, .comma => some (value (.item before :: stack))
  | nextItem before stack, .closeArray => some (deliver (.array before.reverse) stack)
  | nextMember before stack, .comma => some (furtherName before stack)
  | nextMember before stack, .closeObject => some (deliver (.object before.reverse) stack)
  | _, _ => none

/-- The states behind some symbols. -/
def run (s : State) : List Symbol → Option State
  | [] => some s
  | x :: xs =>
    match s.step x with
    | some s' => run s' xs
    | none => none

/-- The value, if it is complete. -/
def result? : State → Option Tree
  | finished t => some t
  | _ => none

end State

/-- The tree of a JSON text. -/
def Tree.read? (text : String) : Option Tree := do
  let symbols ← Symbol.readAll [] text.toList
  let state ← (State.value []).run symbols
  state.result?

end EventDocs.Json
