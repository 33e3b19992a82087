import RpcContract.Contract.Reader
import RpcContract.Token.Lexer

/-!
# Compiling a text

A text is compiled by finding its tokens, reading the contract that they spell, and checking its
references.  The fault of the first of these that fails is the fault of the text.

Each argument of a procedure names a message.  `Service.references` lists these uses in the order in
which they are written; a contract is sound when every one of them names a message declared
somewhere in it.  What a procedure returns is no reference: its name may be anything.
-/

namespace RpcContract

/-- A use of a message as an argument, by a procedure of a service. -/
structure Reference where
  message : String
  procedure : String
  service : String
  deriving DecidableEq, Repr

/-- The uses of messages in a service, in order. -/
def Service.references (s : Service) : List Reference :=
  s.procedures.flatMap fun p => p.args.map (⟨·, p.name, s.name⟩)

/-- The fault of a use whose message is not declared. -/
def Reference.fault (r : Reference) : Fault :=
  .undeclared r.message r.procedure r.service

/-- The first use in some services of a message that is none of the given ones. -/
def undeclared? (services : List Service) (messages : List String) : Option Reference :=
  (services.flatMap (·.references)).find? (! messages.contains ·.message)

/-- Checks that services use none but the given messages. -/
def checkReferences (services : List Service) (messages : List String) : Except Fault Unit :=
  match undeclared? services messages with
  | some r => .error r.fault
  | none => .ok ()

/-- Checks that a contract uses no message that it does not declare. -/
def Contract.check (c : Contract) : Except Fault Unit :=
  checkReferences c.services c.messageNames

/-- The contract of a text, its references unchecked. -/
def parse (text : String) : Except Fault Contract := do
  let tokens ← tokenize text
  Contract.ofTokens tokens

/-- The contract of a text, or the first fault in it. -/
def compile (text : String) : Except Fault Contract := do
  let contract ← parse text
  contract.check
  return contract

end RpcContract
