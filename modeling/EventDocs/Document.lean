import EventDocs.Json.Value
import EventDocs.NameMap

/-
The document of one service, after the AsyncAPI format: its channels, what is
published or subscribed to on each, and the message that is carried.
-/

namespace EventDocs

namespace Document

structure Tag where
  name : String
  /-- Left out of the written document when empty. -/
  description : String
deriving DecidableEq, Repr, Inhabited

structure Info where
  title : String
  version : String
  description : Option String
deriving DecidableEq, Repr, Inhabited

/-- A message as it may look. -/
structure Example where
  name : String
  summary : String
  payload : Option Json.Value
deriving Repr, Inhabited

structure Message where
  messageId : String
  name : String
  title : Option String
  summary : Option String
  description : Option String
  /-- The schema of the message's content. -/
  payload : Option Json.Value
  examples : List Example
deriving Repr, Inhabited

structure Operation where
  summary : Option String
  description : Option String
  operationId : String
  message : Option Message
deriving Repr, Inhabited

structure Channel where
  description : Option String
  publish : Option Operation
  subscribe : Option Operation
deriving Repr, Inhabited

end Document

/-- A service as others see it. -/
structure Document where
  /-- The version of the format. -/
  asyncapi : String
  id : String
  info : Document.Info
  defaultContentType : Option String
  channels : NameMap Document.Channel
  tags : List Document.Tag

end EventDocs
