import EventDocs.Label
import EventDocs.Text.Blank

/-
The metadata of a begin marker: words of the form `key=value`. A word addresses
one field of the label, several keys may address the same field, and the
last word that addresses a field decides it. A key that is not known is passed
over, so that sources may carry metadata for later tools. The first word that
is malformed decides the error.
-/

namespace EventDocs

-- ============================================================ errors

/-- Why a word of the metadata cannot be used. -/
inductive TagError where
  /-- Not exactly one equals sign. -/
  | notAPair (word : String)
  /-- Nothing on one side of the equals sign. -/
  | emptySide (key value : String)
  | unknownCategory (name : String)
  | unknownContentType (name : String)
deriving DecidableEq, Repr

/-- The names in quotes, between square brackets, as error texts list them. -/
def quotedList (names : List String) : String :=
  "[" ++ ",".intercalate (names.map fun n => "'" ++ n ++ "'") ++ "]"

def TagError.message : TagError → String
  | notAPair word => "'" ++ word ++ "' cannot be split into a key=value"
  | emptySide key value =>
    "key '" ++ key ++ "' and value '" ++ value ++
      "': both key and value must be a non-zero length string"
  | unknownCategory name =>
    "category '" ++ name ++ "' incorrect, should be one of " ++
      quotedList (Category.all.map Category.name)
  | unknownContentType name =>
    "type '" ++ name ++ "' incorrect, should be one of " ++
      quotedList (ContentType.all.map ContentType.name)

/-- The category of a name, or the error that lists the names. -/
def Category.ofName (s : String) : Except TagError Category :=
  match ofName? s with
  | some c => .ok c
  | none => .error (.unknownCategory s)

/-- The content type of a name, or the error that lists the names. -/
def ContentType.ofName (s : String) : Except TagError ContentType :=
  match ofName? s with
  | some t => .ok t
  | none => .error (.unknownContentType s)

-- ============================================================ one tag

/-- What one word of the metadata asks for. -/
inductive Tag where
  | id (value : String)
  | parent (value : String)
  | serviceId (value : String)
  | channelId (value : String)
  | contentType (value : ContentType)
  | category (value : Category)
  /-- A well-formed pair with a key that means nothing. -/
  | unknown (key value : String)
deriving DecidableEq, Repr

namespace Tag

/-- The meaning of a pair whose sides are both non-empty. -/
def ofPair (key value : String) : Except TagError Tag :=
  if key = "id" then .ok (.id value)
  else if key = "parent" ∨ key = "p" then .ok (.parent value)
  else if key = "serviceId" then .ok (.serviceId value)
  else if key = "channelId" then .ok (.channelId value)
  else if key = "type" then (ContentType.ofName value).map .contentType
  else if key = "category" ∨ key = "cat" ∨ key = "c" then (Category.ofName value).map .category
  else .ok (.unknown key value)

/-- Read one word. -/
def read (word : List Char) : Except TagError Tag :=
  match word.splitOn '=' with
  | [key, value] =>
    if key.isEmpty || value.isEmpty then .error (.emptySide (.ofList key) (.ofList value))
    else ofPair (.ofList key) (.ofList value)
  | _ => .error (.notAPair (.ofList word))

/-- Words that only close a surrounding comment and say nothing. -/
def closesComment (word : List Char) : Bool :=
  word = ['-', '-', '>'] || word = ['#'] || word = ['#', '#']

end Tag

-- ============================================================ all tags

namespace Label

/-- Set the field that the tag addresses. -/
def set (a : Label) : Tag → Label
  | .id v => { a with id := v }
  | .parent v => { a with parent := v }
  | .serviceId v => { a with serviceId := v }
  | .channelId v => { a with channelId := v }
  | .contentType t => { a with contentType := some t }
  | .category c => { a with category := some c }
  | .unknown _ _ => a

/-- The tags of a begin marker's metadata. -/
def tags (metadata : String) : Except TagError (List Tag) :=
  ((Text.words metadata.toList).filter (!Tag.closesComment ·)).mapM Tag.read

/-- The label that a begin marker's metadata declares. -/
def parse (metadata : String) : Except TagError Label :=
  (tags metadata).map fun ts => ts.foldl set {}

end Label

end EventDocs
