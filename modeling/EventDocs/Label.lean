/-
What the author of a block says about it: which part of a service it describes
(its category), what sort of content it holds, and the names that link it to
other blocks. The category fixes the block's precedence, its depth in the
hierarchy service, channel, operation, message.
-/

namespace EventDocs

-- ============================================================ precedence

/-- Depth in the hierarchy of a service. `structural` is kept for the nodes
that only hold the context tree together. -/
inductive Precedence where
  | structural
  | service
  | channel
  | operation
  | message
deriving DecidableEq, Repr, Inhabited

namespace Precedence

/-- Zero at the top. Blocks are sorted by this number. -/
def number : Precedence → Nat
  | structural => 0
  | service => 1
  | channel => 2
  | operation => 3
  | message => 4

def name : Precedence → String
  | structural => "structural"
  | service => "service"
  | channel => "channel"
  | operation => "operation"
  | message => "message"

/-- One level up, where a parent is looked for. -/
def parent? : Precedence → Option Precedence
  | structural => none
  | service => some structural
  | channel => some service
  | operation => some channel
  | message => some operation

def ofNumber? : Nat → Option Precedence
  | 0 => some structural
  | 1 => some service
  | 2 => some channel
  | 3 => some operation
  | 4 => some message
  | _ => none

/-- Said of a number that is no precedence. -/
def unknownMessage (n : Nat) : String :=
  "unknown precedence class " ++ n.repr

theorem ofNumber?_number (p : Precedence) : ofNumber? p.number = some p := by
  cases p <;> rfl

theorem number_of_parent? {p q : Precedence} (h : p.parent? = some q) :
    p.number = q.number + 1 := by
  cases p <;> simp only [parent?, Option.some.injEq, reduceCtorEq] at h <;> subst h <;> rfl

end Precedence

-- ============================================================ categories

/-- The part of a service that a block describes. -/
inductive Category where
  | root
  | info
  | server
  | channel
  | subOperation
  | pubOperation
  | message
deriving DecidableEq, Repr, Inhabited

namespace Category

def name : Category → String
  | root => "root"
  | info => "info"
  | server => "server"
  | channel => "channel"
  | subOperation => "subOperation"
  | pubOperation => "pubOperation"
  | message => "message"

/-- Every category, once. -/
def all : List Category :=
  [root, info, server, channel, subOperation, pubOperation, message]

def ofName? (s : String) : Option Category :=
  all.find? fun c => c.name = s

theorem ofName?_name (c : Category) : ofName? c.name = some c := by
  cases c <;> decide

/-- No category is structural. -/
def precedence : Category → Precedence
  | root | info | server => .service
  | channel => .channel
  | subOperation | pubOperation => .operation
  | message => .message

end Category

-- ============================================================ content types

/-- Where a block's text goes in the document. -/
inductive ContentType where
  | jsonSchema
  | example
  | title
  | summary
  | description
  /-- The text is itself the identifier. -/
  | nameId
deriving DecidableEq, Repr, Inhabited

namespace ContentType

def name : ContentType → String
  | jsonSchema => "json_schema"
  | .example => "example"
  | title => "title"
  | summary => "summary"
  | description => "description"
  | nameId => "nameId"

/-- Every content type, once. -/
def all : List ContentType :=
  [jsonSchema, .example, title, summary, description, nameId]

def ofName? (s : String) : Option ContentType :=
  all.find? fun t => t.name = s

theorem ofName?_name (t : ContentType) : ofName? t.name = some t := by
  cases t <;> decide

end ContentType

-- ============================================================ labels

/-- All that is known about a block besides its text. The author sets the first
fields; the rest, and what the author left out, is filled in when the block is
linked. -/
structure Label where
  category : Option Category := none
  contentType : Option ContentType := none
  name : String := ""
  id : String := ""
  /-- The owning service, for children described in another repository. -/
  serviceId : String := ""
  /-- The owning channel, for operations described in another repository. -/
  channelId : String := ""
  parent : String := ""
  serviceUrn : String := ""
  repoUrl : String := ""
  repoLanguage : String := ""
deriving DecidableEq, Repr, Inhabited

/-- The precedence that the category gives, if there is one. -/
def Label.precedence? (a : Label) : Option Precedence :=
  a.category.map Category.precedence

end EventDocs
