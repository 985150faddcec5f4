import EventDocs.Environment
import EventDocs.Text.Alphanumeric

/-
Variables in running text. A text is divided into pieces, each either copied or
a reference `$NAME`, `${NAME}` or `${NAME:-fallback}`; each reference is then
replaced by its value, which is not looked at again. The first reference that
has neither value nor fallback is the error.

Two dollar signs are one; a dollar sign that starts no reference, and an opening
brace that is never closed, stand for themselves.
-/

namespace EventDocs

-- ============================================================ pieces

/-- A stretch of a text with references. -/
inductive Piece where
  | copied (text : List Char)
  | reference (name : List Char) (fallback : Option (List Char))
deriving DecidableEq, Repr

namespace Piece

/-- The reference that stands between braces. A fallback follows the first `:-`,
unless that leaves no name. -/
def ofBraces (inside : List Char) : Piece :=
  match Text.cutOn [':', '-'] inside with
  | some (c :: name, fallback) => .reference (c :: name) (some fallback)
  | _ => .reference inside none

/-- Divide a text. -/
def split : List Char → List Piece
  | [] => []
  | '$' :: '{' :: cs =>
    match h : Text.cutOn ['}'] cs with
    | some (inside, rest) =>
      have : rest.length < cs.length := by
        simp [← Text.append_of_cutOn h]; omega
      ofBraces inside :: split rest
    | none => .copied ['$', '{'] :: split cs
  | '$' :: '$' :: cs => .copied ['$'] :: split cs
  | '$' :: c :: cs =>
    if Text.isNameChar c then
      have : (cs.dropWhile Text.isNameChar).length ≤ cs.length :=
        (List.dropWhile_sublist Text.isNameChar).length_le
      .reference (c :: cs.takeWhile Text.isNameChar) none :: split (cs.dropWhile Text.isNameChar)
    else .copied ['$'] :: split (c :: cs)
  | c :: cs => .copied [c] :: split cs
  termination_by cs => cs.length
  decreasing_by all_goals simp only [List.length_cons]; omega

end Piece

-- ============================================================ expansion

/-- A reference that could not be replaced. -/
structure Unresolved where
  name : String
  reason : Missing
deriving DecidableEq, Repr

/-- How an unresolved reference is said in a body. -/
def Missing.phrase : Missing → String
  | unset => "not set"
  | empty => "set but empty"

/-- What a piece becomes. -/
def Piece.resolve (lookup : List Char → Except Missing (List Char)) :
    Piece → Except Unresolved (List Char)
  | .copied text => .ok text
  | .reference name fallback =>
    match lookup name, fallback with
    | .ok value, _ => .ok value
    | .error _, some text => .ok text
    | .error reason, none => .error ⟨.ofList name, reason⟩

/-- Replace every reference in a text. -/
def expand (lookup : List Char → Except Missing (List Char)) (text : String) :
    Except Unresolved String :=
  ((Piece.split text.toList).mapM (Piece.resolve lookup)).map fun parts =>
    .ofList parts.flatten

end EventDocs
