import EventDocs.Text.Blank
import EventDocs.Token

/-
From text to tokens, by characters (`Token.Bytes` has the reader by bytes).
`Lexeme.read` takes one lexeme off the front of a non-empty text; it never takes
nothing (`rest_length_le`) and never loses anything (`taken_append_rest`), so
repeating it ends and the literals give the text back. Lines and columns are a
fold over the characters taken.

Three readers look ahead. A slash pair may open a marker, and a begin marker
takes its metadata with it, up to the first line break that no backslash
escapes. A comment delimiter takes the spaces behind it. Text runs up to the
next character that could start something else.
-/

namespace EventDocs

-- ============================================================ positions

/-- A place in a text: line and column, both counted from one. -/
structure Position where
  line : Nat
  column : Nat
deriving DecidableEq, Repr

namespace Position

/-- Where every text starts. -/
def start : Position := ⟨1, 1⟩

/-- The place behind a character. -/
def step (p : Position) (c : Char) : Position :=
  if c = '\n' then ⟨p.line + 1, 1⟩ else ⟨p.line, p.column + 1⟩

/-- The place behind a text. -/
def after (p : Position) (cs : List Char) : Position :=
  cs.foldl step p

end Position

-- ============================================================ metadata

/-- The text behind a begin marker, divided. -/
structure Metadata where
  /-- The text that belongs to the marker. -/
  literal : List Char
  /-- The same text without its escaped line breaks. -/
  captured : List Char
  /-- What follows: nothing, or a line break and more. -/
  rest : List Char
deriving DecidableEq, Repr

namespace Metadata

/-- Metadata runs up to a line break. A backslash before the line break (LF or
CR LF) continues it on the next line, and neither is captured. -/
def split : List Char → Metadata
  | [] => ⟨[], [], []⟩
  | '\n' :: cs => ⟨[], [], '\n' :: cs⟩
  | '\\' :: '\n' :: cs =>
    let m := split cs
    ⟨'\\' :: '\n' :: m.literal, m.captured, m.rest⟩
  | '\\' :: '\r' :: '\n' :: cs =>
    let m := split cs
    ⟨'\\' :: '\r' :: '\n' :: m.literal, m.captured, m.rest⟩
  | c :: cs =>
    let m := split cs
    ⟨c :: m.literal, c :: m.captured, m.rest⟩

theorem literal_append_rest (cs : List Char) : (split cs).literal ++ (split cs).rest = cs := by
  fun_induction split cs with
  | case1 => rfl
  | case2 => rfl
  | case3 cs m ih => simpa [m] using ih
  | case4 cs m ih => simpa [m] using ih
  | case5 c cs m _ _ _ ih => simpa [m] using ih

end Metadata

-- ============================================================ one lexeme

/-- What one step of reading takes off the front of a text. -/
structure Lexeme where
  kind : Kind
  taken : List Char
  metadata : List Char
  rest : List Char
deriving DecidableEq, Repr

namespace Lexeme

/-- Behind a slash pair: opens a block. -/
def beginWord : List Char := ['+', 'g', 'e', 'n', 'd', 'o', 'c']

/-- Behind a slash pair, in any mixture of ASCII letter cases: closes a
block. -/
def endWord : List Char := ['-', 'g', 'e', 'n', 'd', 'o', 'c']

/-- Opens a markup comment. -/
def opener : List Char := ['<', '!', '-', '-']

/-- Closes a markup comment. -/
def closer : List Char := ['-', '-', '>']

/-- Does the text start with the word that closes a block? -/
def startsWithEnd (cs : List Char) : Bool :=
  (cs.take endWord.length).map Char.toLower = endWord

/-- Characters at which a run of text stops: white space, control characters
and the first characters of everything else that is told apart. -/
def isBoundary (c : Char) : Bool :=
  c.toNat ≤ 0x20 || c = '/' || c = '#' || c = '<' || c = '-'

/-- A lexeme of one character. -/
def single (k : Kind) (c : Char) (cs : List Char) : Lexeme := ⟨k, [c], [], cs⟩

/-- What starts with two slashes, `cs` being the text behind them. -/
def ofSlashes (cs : List Char) : Lexeme :=
  if beginWord.isPrefixOf cs then
    let m := Metadata.split (cs.drop beginWord.length)
    ⟨.beginMarker, '/' :: '/' :: beginWord ++ m.literal, Text.trim m.captured, m.rest⟩
  else if startsWithEnd cs then
    ⟨.endMarker, '/' :: '/' :: cs.take endWord.length, [], cs.drop endWord.length⟩
  else ⟨.doubleSlash, ['/', '/'], [], cs⟩

/-- A comment delimiter and the spaces behind it, or else one character of
text. -/
def ofComment (k : Kind) (delimiter : List Char) (c : Char) (cs : List Char) : Lexeme :=
  if delimiter.isPrefixOf (c :: cs) then
    let behind := (c :: cs).drop delimiter.length
    ⟨k, delimiter ++ behind.takeWhile (· = ' '), [], behind.dropWhile (· = ' ')⟩
  else single .text c cs

/-- A run of text that starts with `c`. -/
def ofText (c : Char) (cs : List Char) : Lexeme :=
  ⟨.text, c :: cs.takeWhile (!isBoundary ·), [], cs.dropWhile (!isBoundary ·)⟩

/-- The first lexeme of the text `c :: cs`. -/
def read (c : Char) (cs : List Char) : Lexeme :=
  if c = '/' then
    match cs with
    | '/' :: behind => ofSlashes behind
    | _ => single .slash c cs
  else if c = '#' then single .hash c cs
  else if c = '<' then ofComment .openComment opener c cs
  else if c = '-' then ofComment .closeComment closer c cs
  else
    match Kind.ofWhite? c with
    | some k => single k c cs
    | none => if c.toNat < 0x20 then single .illegal c cs else ofText c cs

-- ------------------------------------------------ nothing is lost, progress

theorem ofSlashes_taken_append_rest (cs : List Char) :
    (ofSlashes cs).taken ++ (ofSlashes cs).rest = '/' :: '/' :: cs := by
  unfold ofSlashes
  split
  · next h =>
    obtain ⟨behind, rfl⟩ := List.isPrefixOf_iff_prefix.mp h
    simp [Metadata.literal_append_rest]
  · split <;> simp

theorem ofComment_taken_append_rest (k : Kind) (delimiter : List Char) (c : Char)
    (cs : List Char) :
    (ofComment k delimiter c cs).taken ++ (ofComment k delimiter c cs).rest = c :: cs := by
  unfold ofComment
  split
  · next h =>
    obtain ⟨behind, hb⟩ := List.isPrefixOf_iff_prefix.mp h
    simp [← hb, List.takeWhile_append_dropWhile]
  · simp [single]

/-- What is taken and what is left make up the text. -/
theorem taken_append_rest (c : Char) (cs : List Char) :
    (read c cs).taken ++ (read c cs).rest = c :: cs := by
  unfold read
  split
  · next h =>
    subst h
    split
    · exact ofSlashes_taken_append_rest _
    · simp [single]
  · split
    · simp [single]
    · split
      · exact ofComment_taken_append_rest ..
      · split
        · exact ofComment_taken_append_rest ..
        · split
          · simp [single]
          · split
            · simp [single]
            · simp [ofText, List.takeWhile_append_dropWhile]

theorem ofComment_taken_ne_nil (k : Kind) {delimiter : List Char} (hd : delimiter ≠ [])
    (c : Char) (cs : List Char) : (ofComment k delimiter c cs).taken ≠ [] := by
  unfold ofComment
  split <;> simp [single, hd]

/-- Something is always taken. -/
theorem taken_ne_nil (c : Char) (cs : List Char) : (read c cs).taken ≠ [] := by
  unfold read
  split
  · split
    · unfold ofSlashes
      split
      · simp
      · split <;> simp
    · simp [single]
  · split
    · simp [single]
    · split
      · exact ofComment_taken_ne_nil _ (by decide : opener ≠ []) c cs
      · split
        · exact ofComment_taken_ne_nil _ (by decide : closer ≠ []) c cs
        · split
          · simp [single]
          · split <;> simp [single, ofText]

/-- What is left is shorter than the text. -/
theorem rest_length_le (c : Char) (cs : List Char) : (read c cs).rest.length ≤ cs.length := by
  have whole := congrArg List.length (taken_append_rest c cs)
  have some_taken := List.length_pos_iff.mpr (taken_ne_nil c cs)
  simp only [List.length_append, List.length_cons] at whole
  omega

end Lexeme

-- ============================================================ whole texts

namespace Token

/-- The token of a lexeme that stands at `p`. -/
def ofLexeme (source : Source) (p : Position) (l : Lexeme) : Token :=
  { kind := l.kind, literal := .ofList l.taken, metadata := .ofList l.metadata
    line := p.line, column := p.column, source }

/-- The token at the end of a text. -/
def atEnd (source : Source) (p : Position) : Token :=
  { kind := .endOfText, literal := "", metadata := ""
    line := p.line, column := p.column, source }

/-- The tokens of a text that starts at `p`, without the one at its end. -/
def scan (source : Source) (p : Position) : List Char → List Token
  | [] => []
  | c :: cs =>
    let l := Lexeme.read c cs
    ofLexeme source p l :: scan source (p.after l.taken) l.rest
  termination_by cs => cs.length
  decreasing_by exact Nat.lt_succ_of_le (Lexeme.rest_length_le c cs)

end Token

/-- A text being read: where the reader stands and what lies ahead of it. -/
structure Cursor where
  source : Source
  position : Position
  ahead : List Char
deriving DecidableEq, Repr

namespace Cursor

/-- The reader at the start of a text. -/
def ofText (source : Source) (text : String) : Cursor := ⟨source, .start, text.toList⟩

/-- The next token and the reader behind it. At the end of the text that is the
end token, and the reader stays. -/
def next (r : Cursor) : Token × Cursor :=
  match r.ahead with
  | [] => (.atEnd r.source r.position, r)
  | c :: cs =>
    let l := Lexeme.read c cs
    (.ofLexeme r.source r.position l, { r with position := r.position.after l.taken, ahead := l.rest })

end Cursor

/-- The tokens of a file's text, without the one at its end. -/
def tokenize (source : Source) (text : String) : List Token :=
  Token.scan source .start text.toList

/-- The token at the end of a file's text. -/
def endToken (source : Source) (text : String) : Token :=
  .atEnd source (Position.start.after text.toList)

end EventDocs
