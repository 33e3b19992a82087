import RpcContract.Token

/-!
# Contracts

A contract declares services and messages, in the order in which they are written.  A service is a
list of procedures, each with the messages it takes and the name of what it returns; a message is a
list of typed fields.  The types hold any names whatever: what a contract has to obey beyond its
shape is checked where it is read and where its references are followed.
-/

namespace RpcContract

/-- A procedure: the messages that it takes and what it returns, all by name. -/
structure Procedure where
  name : String
  args : List String
  result : String
  deriving DecidableEq, Repr

/-- A service: procedures under one name, as they are written. -/
structure Service where
  name : String
  procedures : List Procedure
  deriving DecidableEq, Repr

/-- A field of a message, with the type of its values. -/
structure Field where
  name : String
  type : ValueType
  deriving DecidableEq, Repr

/-- A message: fields under one name, as they are written. -/
structure Message where
  name : String
  fields : List Field
  deriving DecidableEq, Repr

/-- One declaration of a contract. -/
inductive Declaration where
  | service (service : Service)
  | message (message : Message)
  deriving DecidableEq, Repr

namespace Declaration

/-- The name that a declaration gives. -/
def name : Declaration → String
  | .service s => s.name
  | .message m => m.name

/-- The service that is declared, if it is one. -/
def service? : Declaration → Option Service
  | .service s => some s
  | .message _ => none

/-- The message that is declared, if it is one. -/
def message? : Declaration → Option Message
  | .service _ => none
  | .message m => some m

end Declaration

/-- A contract: its declarations, as they are written. -/
structure Contract where
  declarations : List Declaration
  deriving DecidableEq, Repr

namespace Contract

/-- The name of each declaration. -/
def names (c : Contract) : List String := c.declarations.map (·.name)

/-- The services of a contract. -/
def services (c : Contract) : List Service := c.declarations.filterMap (·.service?)

/-- The messages of a contract. -/
def messages (c : Contract) : List Message := c.declarations.filterMap (·.message?)

/-- The name of each service. -/
def serviceNames (c : Contract) : List String := c.services.map (·.name)

/-- The name of each message. -/
def messageNames (c : Contract) : List String := c.messages.map (·.name)

/-- The names of the messages in the order of their characters, each once. -/
def messageIndex (c : Contract) : List String :=
  (c.messageNames.mergeSort fun a b => decide (a ≤ b)).eraseDups

end Contract

end RpcContract
