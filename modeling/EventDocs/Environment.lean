import EventDocs.Text.Split

/-
The variables of the process, and those that a text may refer to: entries
`NAME=value` in order. They are looked up in two ways.

What the program itself needs is the value behind the first entry that starts
with the name and an equals sign. A name that holds equals signs reaches into
what others take for the value.

For a text, the name of an entry is what stands before its first equals sign, an
entry without one binds nothing, and of several entries for one name the last
counts.
-/

namespace EventDocs

/-- Entries `NAME=value`. -/
abbrev Environment := List String

/-- Why a variable gives no value. -/
inductive Missing where
  | unset
  | empty
deriving DecidableEq, Repr

namespace Environment

-- ============================================================ for the program

/-- The value behind the first entry that starts with the name and an equals
sign. No entry is for the empty name. -/
def get? (env : Environment) (name : List Char) : Option (List Char) :=
  if name = [] then none
  else env.findSome? fun entry => (name ++ ['=']).isPrefixOf? entry.toList

/-- The value of a variable that has to be bound. -/
def bound (env : Environment) (name : List Char) : Except Missing (List Char) :=
  match env.get? name with
  | none => .error .unset
  | some v => .ok v

-- ============================================================ for texts

/-- The entries that texts get to see: those that have a name. An equals sign in
front of an entry is part of its name and ends none. -/
def named (env : Environment) : Environment :=
  env.filter fun entry => (entry.toList.drop 1).contains '='

/-- The name and the value of an entry. -/
def binding? (entry : String) : Option (List Char × List Char) :=
  Text.cutOn ['='] entry.toList

/-- The value of the last entry for a name. -/
def value? (env : Environment) (name : List Char) : Option (List Char) :=
  ((env.reverse.filterMap binding?).find? (·.1 = name)).map (·.2)

/-- The value of a variable that has to be bound to something. -/
def nonEmpty (env : Environment) (name : List Char) : Except Missing (List Char) :=
  match env.value? name with
  | none => .error .unset
  | some [] => .error .empty
  | some v => .ok v

end Environment

end EventDocs
