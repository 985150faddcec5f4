import EventDocs.Json.Value

/-
Records in JSON. A record is an object with named fields, or an array of the
same fields in their declared order. Members that the record does not know are
passed over, whatever they hold; a field may not be given twice. A field that is
left out is `none` here, and its reader decides whether it has a default.
-/

namespace EventDocs.Json.Tree

/-- The members of an object by name, if every name spells a text. -/
def named? : List (Spelling × Tree) → Option (List (String × Tree))
  | [] => some []
  | (none, _) :: _ => none
  | (some name, t) :: ms => (named? ms).map ((name, t) :: ·)

/-- Is the name given at most once? -/
def isUnique (name : String) (members : List (String × Tree)) : Bool :=
  (members.filter (·.1 = name)).length ≤ 1

/-- The fields of a record, in their declared order. -/
def fields? (names : List String) : Tree → Option (List (Option Tree))
  | object members => do
    let members ← named? members
    if names.all (isUnique · members) then some (names.map fun n => members.lookup n) else none
  | array items =>
    if items.length ≤ names.length then
      some (items.map some ++ List.replicate (names.length - items.length) none)
    else none
  | _ => none

-- ============================================================ readers of fields

/-- A field that has to be there. -/
def required {α : Type} (read? : Tree → Option α) (field : Option Tree) : Option α :=
  field.bind read?

/-- A field with a default. -/
def optional {α : Type} (default : α) (read? : Tree → Option α) : Option Tree → Option α
  | none => some default
  | some t => read? t

/-- A text. -/
def text? : Tree → Option String
  | string s => s
  | _ => none

/-- A natural number of 64 bits, written without point and exponent. -/
def natural? : Tree → Option Nat
  | number ⟨false, whole, none, none⟩ =>
    let n := digitsValue whole
    if n ≤ maxUnsigned then some n else none
  | _ => none

/-- A name out of a fixed set: a string, or an object whose only member has that
name and is null. -/
def choice? {α : Type} (ofName? : String → Option α) : Tree → Option α
  | string (some s) => ofName? s
  | object [(some s, null)] => ofName? s
  | _ => none

/-- Null, or something else. -/
def nullable? {α : Type} (read? : Tree → Option α) : Tree → Option (Option α)
  | null => some none
  | t => (read? t).map some

/-- A list. -/
def list? {α : Type} (read? : Tree → Option α) : Tree → Option (List α)
  | array items => items.mapM read?
  | _ => none

end EventDocs.Json.Tree
