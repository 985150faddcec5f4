/-
Tokens of annotated source text. No grammar of a programming language is
assumed: only white space, slashes, hash signs, comment delimiters and the two
markers are told apart, and everything else is a run of text.

A token knows the exact text it covers and where that text starts, so the
literals of all tokens of a file give the file back.
-/

namespace EventDocs

-- ============================================================ kinds

/-- What a token is. -/
inductive Kind where
  /-- A control character that is not white space. -/
  | illegal
  /-- The end of the text. -/
  | endOfText
  | space
  | tab
  | newLine
  | carriageReturn
  /-- A form feed. -/
  | formFeed
  | text
  | slash
  | doubleSlash
  | hash
  | openComment
  | closeComment
  /-- The marker that opens a block. -/
  | beginMarker
  /-- The marker that closes a block. -/
  | endMarker
  /-- A whole file that is a message document in its own right. -/
  | wholeFile
deriving DecidableEq, Repr, Inhabited

namespace Kind

/-- The kind of a single white space character, if it is one. -/
def ofWhite? (c : Char) : Option Kind :=
  if c = ' ' then some space
  else if c = '\t' then some tab
  else if c = '\n' then some newLine
  else if c = '\r' then some carriageReturn
  else if c = '\x0c' then some formFeed
  else none

/-- White space of any sort. -/
def isWhite : Kind → Bool
  | space | tab | newLine | carriageReturn | formFeed => true
  | _ => false

/-- White space that does not break a line. -/
def isBlank : Kind → Bool
  | space | tab | formFeed => true
  | _ => false

/-- Either delimiter of a markup comment. -/
def isComment : Kind → Bool
  | openComment | closeComment => true
  | _ => false

/-- Either marker of a block. -/
def isMarker : Kind → Bool
  | beginMarker | endMarker => true
  | _ => false

/-- The name under which a kind is stored. -/
def name : Kind → String
  | illegal => "ILLEGAL"
  | endOfText => "EOF"
  | space => "SPACE"
  | tab => "TAB"
  | newLine => "NEW_LINE"
  | carriageReturn => "CARRIAGE_RETURN"
  | formFeed => "CONTROL"
  | text => "TEXT"
  | slash => "FORWARD_SLASH"
  | doubleSlash => "DOUBLE_FORWARD_SLASH"
  | hash => "HASH"
  | openComment => "BEGIN_HTML_COMMENT"
  | closeComment => "END_HTML_COMMENT"
  | beginMarker => "BEGIN_DOC_GEN"
  | endMarker => "END_DOC_GEN"
  | wholeFile => "MESSAGE"

/-- Every kind, once. -/
def all : List Kind :=
  [illegal, endOfText, space, tab, newLine, carriageReturn, formFeed, text, slash,
    doubleSlash, hash, openComment, closeComment, beginMarker, endMarker, wholeFile]

/-- The kind stored under a name. -/
def ofName? (s : String) : Option Kind :=
  all.find? fun k => k.name = s

theorem ofName?_name (k : Kind) : ofName? k.name = some k := by
  cases k <;> decide

end Kind

-- ============================================================ tokens

/-- Which file a token was read from. -/
structure Source where
  file : String
  path : String
deriving DecidableEq, Repr, Inhabited

/-- A piece of source text with its kind and place. -/
structure Token where
  kind : Kind
  /-- The exact text that the token covers. -/
  literal : String
  /-- The metadata of a begin marker; empty for every other kind. -/
  metadata : String
  /-- Counted from one. -/
  line : Nat
  /-- Counted from one, in characters. -/
  column : Nat
  source : Source
deriving DecidableEq, Repr, Inhabited

end EventDocs
