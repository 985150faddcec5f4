import EventDocs.Document.Json
import EventDocs.Yaml.Printer

/-
The formats in which documents are published. Both can write every document, but
whoever asks for a text has to be ready for a failure (`tryRender`).
-/

namespace EventDocs

inductive Format where
  | yaml
  | json
deriving DecidableEq, Repr

/-- A name that is no format's. -/
structure UnknownFormat where
  name : String
deriving DecidableEq, Repr

def UnknownFormat.message (e : UnknownFormat) : String :=
  "unknown format: " ++ e.name ++ ". Use yaml or json"

/-- A document that cannot be written in a format. -/
structure Unwritable where
  format : Format
deriving DecidableEq, Repr

def Unwritable.message (e : Unwritable) : String :=
  match e.format with
  | .yaml => "failed to serialize document as YAML"
  | .json => "failed to serialize document as JSON"

namespace Format

def ofName (name : String) : Except UnknownFormat Format :=
  if name = "yaml" ∨ name = "yml" then .ok yaml
  else if name = "json" then .ok json
  else .error ⟨name⟩

/-- The extension of files in the format. -/
def extension : Format → String
  | yaml => "yml"
  | json => "json"

/-- The text of a document. -/
def render (d : Document) : Format → String
  | yaml => Yaml.print d.toValue
  | json => d.toValue.toPretty ++ "\n"

/-- The text of a document, or why there is none. -/
def tryRender (d : Document) (f : Format) : Except Unwritable String := .ok (f.render d)

end Format

end EventDocs
