import EventDocs.Block
import EventDocs.Token.Lexer

/-
From tokens to blocks. The scan looks for a begin marker and reads its
metadata; if that is in order, the tokens up to the next marker are the body.
An end marker closes the block. Another begin marker, or the end of the text,
leaves it open, which is a problem of the block and not of what follows: the
scan goes on with that very marker. Markers with bad metadata lose their body
in the same way, for it is then text outside every block.

Every begin marker has one outcome, a block or a problem, in source order.
-/

namespace EventDocs

/-- What becomes of a begin marker. -/
abbrev Outcome := Except LocatedProblem Block

-- ============================================================ bodies

namespace Body

/-- Without the line break that ends the line of the begin marker. -/
def dropFirstBreak : List Token → List Token
  | [] => []
  | first :: rest =>
    if first.kind = .newLine then rest
    else
      match rest with
      | [] => [first]
      | second :: more =>
        if first.kind = .carriageReturn ∧ second.kind = .newLine then more
        else first :: second :: more

/-- Without the blanks at the end. -/
def dropBlanks (body : List Token) : List Token :=
  Text.dropTrailing (·.kind.isBlank) body

/-- Without the last token, if it is of a certain sort. -/
def dropLastIf (p : Kind → Bool) (body : List Token) : List Token :=
  match body.getLast? with
  | some t => if p t.kind then body.dropLast else body
  | none => body

/-- Without a comment delimiter at the end and the blanks before it. -/
def dropComment (body : List Token) : List Token :=
  match body.getLast? with
  | some t => if t.kind.isComment then dropBlanks body.dropLast else body
  | none => body

/-- Without the line break at the end, LF or CR LF. -/
def dropLastBreak (body : List Token) : List Token :=
  match body.getLast? with
  | some t =>
    if t.kind = .newLine then dropLastIf (· = .carriageReturn) body.dropLast else body
  | none => body

/-- The tokens that an author would call the body: without the line breaks next
to the markers, the comment delimiter around the end marker, and the blanks
before it. -/
def trim (body : List Token) : List Token :=
  dropLastBreak (dropComment (dropBlanks (dropFirstBreak body)))

/-- The text of a body. -/
def text (body : List Token) : String :=
  .ofList ((trim body).flatMap (·.literal.toList))

end Body

-- ============================================================ one block

/-- The first control character of the metadata that is not white space. -/
def firstIllegal? (metadata : String) : Option Char :=
  metadata.toList.find? fun c =>
    (c.toNat < 0x20 || c.toNat = 0x7F) && (Kind.ofWhite? c).isNone

/-- The label that a begin marker declares. -/
def Token.declared (t : Token) : Except Problem Label :=
  match firstIllegal? t.metadata with
  | some c => .error (.illegal c.toNat)
  | none =>
    match Label.parse t.metadata with
    | .error e => .error (.tag e)
    | .ok a => .ok a

/-- The block of a marker pair with its body. -/
def Block.close (r : Repository) (env : Environment) (beginToken : Token) (a : Label)
    (body : List Token) (endToken : Token) : Except Problem Block :=
  match expand env.nonEmpty (Body.text body) with
  | .error e => .error (.unresolved e)
  | .ok value =>
    match a.category with
    | none => .error .categoryRequired
    | some c => do
      let label ← a.link r c value
      return { beginToken, label, precedence := c.precedence, value, endToken }

/-- Say where the problem is. -/
def Outcome.at (t : Token) : Except Problem Block → Outcome
  | .ok b => .ok b
  | .error p => .error (.at t p)

-- ============================================================ the scan

/-- One outcome for each begin marker. -/
def Block.scan (r : Repository) (env : Environment) : List Token → List Outcome
  | [] => []
  | t :: ts =>
    if t.kind = .beginMarker then
      match t.declared with
      | .error p => .error (.at t p) :: scan r env ts
      | .ok a =>
        match h : ts.dropWhile (!·.kind.isMarker) with
        | [] => [.error (.at t .noEndMarker)]
        | marker :: rest =>
          have : (marker :: rest).length ≤ ts.length :=
            h ▸ (List.dropWhile_sublist fun t : Token => !t.kind.isMarker).length_le
          if marker.kind = .endMarker then
            have : rest.length < ts.length := by simp only [List.length_cons] at this; omega
            Outcome.at t (close r env t a (ts.takeWhile (!·.kind.isMarker)) marker) ::
              scan r env rest
          else .error (.at t .noEndMarker) :: scan r env (marker :: rest)
    else scan r env ts
  termination_by ts => ts.length
  decreasing_by all_goals simp only [List.length_cons] at *; omega

/-- The outcomes of a whole file. -/
def Block.outcomes (r : Repository) (env : Environment) (source : Source) (text : String) :
    List Outcome :=
  scan r env (tokenize source text)

/-- The blocks among some outcomes. -/
def Outcome.blocks (outcomes : List Outcome) : List Block :=
  outcomes.filterMap fun
    | .ok b => some b
    | .error _ => none

/-- The problems among some outcomes. -/
def Outcome.problems (outcomes : List Outcome) : List LocatedProblem :=
  outcomes.filterMap fun
    | .ok _ => none
    | .error p => some p

end EventDocs
