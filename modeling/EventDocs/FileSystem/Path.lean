import EventDocs.Text.Blank

/-
Paths as text. A path is kept exactly as it was given; what it leads to is for
the file system to say. The functions here are those that look at the text
alone: joining, the parent, the components, the file name and its extension.

Repeated slashes, and single dots other than one in front of a relative path,
lead nowhere and are not components.
-/

namespace EventDocs.Path

-- ============================================================ segments

/-- What stands between the slashes. -/
def segments (p : String) : List (List Char) := p.toList.splitOn '/'

def isAbsolute (p : String) : Bool := p.toList.head? = some '/'

/-- A segment that leads nowhere. -/
def isIdle (s : List Char) : Bool := s = [] || s = ['.']

/-- The path of some segments. -/
def ofSegments (segments : List (List Char)) : String :=
  .ofList (['/'].intercalate segments)

/-- `q` as seen from `p`. An absolute path is the same from everywhere. -/
def join (p q : String) : String :=
  if isAbsolute q || p = "" then q
  else if p.toList.getLast? = some '/' then p ++ q
  else p ++ "/" ++ q

-- ============================================================ parents

/-- The path without its last component and without what leads nowhere at its
end; none for the root and for the empty path. -/
def parent? (p : String) : Option String :=
  match segments p with
  | [] => none
  | first :: rest =>
    match Text.dropTrailing isIdle rest with
    | [] => if first = [] then none else some ""
    | rest =>
      match Text.dropTrailing isIdle rest.dropLast with
      | [] => some (if first = [] then "/" else .ofList first)
      | rest => some (ofSegments (first :: rest))

/-- The path, its parent, the parent of that and so on; `fuel` of them at
most. -/
def ancestorsWithin : Nat → String → List String
  | 0, _ => []
  | fuel + 1, p =>
    p :: match parent? p with
      | some q => ancestorsWithin fuel q
      | none => []

/-- The path, its parent, the parent of that and so on. -/
def ancestors (p : String) : List String :=
  ancestorsWithin (p.length + 1) p

-- ============================================================ components

/-- A step that a path takes. -/
inductive Component where
  | root
  /-- A single dot in front of a relative path. -/
  | here
  | up
  | name (text : String)
deriving DecidableEq, Repr

namespace Component

def text : Component → String
  | root => "/"
  | here => "."
  | up => ".."
  | name text => text

/-- The step of a segment that is not the first. -/
def ofSegment? (s : List Char) : Option Component :=
  if isIdle s then none else if s = ['.', '.'] then some up else some (name (.ofList s))

/-- The step of the first segment. -/
def ofFirst? (absolute : Bool) (s : List Char) : Option Component :=
  if absolute then some root else if s = ['.'] then some here else ofSegment? s

end Component

/-- The steps that a path takes. -/
def components (p : String) : List Component :=
  match segments p with
  | [] => []
  | first :: rest =>
    (Component.ofFirst? (isAbsolute p) first).toList ++ rest.filterMap Component.ofSegment?

/-- The name at the end of a path, if there is one. -/
def fileName? (p : String) : Option String :=
  match (components p).getLast? with
  | some (.name text) => some text
  | _ => none

/-- What stands behind the last dot of a file name; empty if there is no dot, or
only one in front. -/
def extension (fileName : String) : String :=
  match (fileName.toList.reverse.span (· ≠ '.')) with
  | (behind, '.' :: _ :: _) => .ofList behind.reverse
  | _ => ""

/-- The path as seen from `base`: what is left of it behind the steps of `base`,
or all of it if it does not start with them. -/
def relativeTo (base p : String) : String :=
  if (components base).isPrefixOf (components p) then
    "/".intercalate (((components p).drop (components base).length).map Component.text)
  else p

end EventDocs.Path
