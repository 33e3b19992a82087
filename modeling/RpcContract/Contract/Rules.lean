import RpcContract.Contract.Reader
import RpcContract.Token.Lexer

/-!
# The rules of a contract

What a contract has to obey beyond its shape.  `Contract.violation?` walks over a contract in the
order in which it is written and gives the first breach of a limit or of a name's uniqueness.
`Contract.WellFormed` adds what the text and the references demand: every name can be written as an
identifier, and every argument is a message of the contract.
-/

namespace RpcContract

/-- The first fault among things that are judged one after another, each with those before it. -/
def firstFault {α : Type} (judge : List α → α → Option Fault) (before : List α) :
    List α → Option Fault
  | [] => none
  | x :: xs => (judge before x).or (firstFault judge (before ++ [x]) xs)

/-- The rule that a procedure breaks in a service after some others: too many arguments, or else a
name that is taken. -/
def Procedure.violation? (service : String) (before : List Procedure) (p : Procedure) :
    Option Fault :=
  if maxArgs < p.args.length then some (.tooManyArgs p.name maxArgs)
  else if p.name ∈ before.map (·.name) then some (.duplicate (.procedure service) p.name)
  else none

/-- The rule that a field breaks in a message after some others: a name that is taken. -/
def Field.violation? (message : String) (before : List Field) (f : Field) : Option Fault :=
  if f.name ∈ before.map (·.name) then some (.duplicate (.field message) f.name) else none

/-- The rule that a declaration breaks after some others: one of its parts breaks a rule, or else
its name is taken by a declaration of its kind. -/
def Declaration.violation? (before : List Declaration) : Declaration → Option Fault
  | .service s =>
    (firstFault (Procedure.violation? s.name) [] s.procedures).or
      (if s.name ∈ (Contract.mk before).serviceNames then some (.duplicate .service s.name) else none)
  | .message m =>
    (firstFault (Field.violation? m.name) [] m.fields).or
      (if m.name ∈ (Contract.mk before).messageNames then some (.duplicate .message m.name) else none)

/-- The first breach of a limit or of a name's uniqueness. -/
def Contract.violation? (c : Contract) : Option Fault :=
  firstFault Declaration.violation? [] c.declarations

/-- A name that can be written as an identifier: a word that is not reserved. -/
def IsName (name : String) : Prop :=
  Fragment.isWord name.toList ∧ ∀ t ∈ Token.reserved, t.text? ≠ some name

instance (name : String) : Decidable (IsName name) :=
  inferInstanceAs (Decidable (_ ∧ _))

/-- Every name that a declaration holds. -/
def Declaration.allNames : Declaration → List String
  | .service s => s.name :: s.procedures.flatMap fun p => p.name :: p.args ++ [p.result]
  | .message m => m.name :: m.fields.map (·.name)

/-- A contract that obeys every rule. -/
structure Contract.WellFormed (c : Contract) : Prop where
  /-- Every name can be written as an identifier. -/
  names : ∀ d ∈ c.declarations, ∀ n ∈ d.allNames, IsName n
  /-- No two services have one name. -/
  services : c.serviceNames.Nodup
  /-- No two messages have one name. -/
  messages : c.messageNames.Nodup
  /-- No two procedures of a service have one name. -/
  procedures : ∀ s ∈ c.services, (s.procedures.map (·.name)).Nodup
  /-- No two fields of a message have one name. -/
  fields : ∀ m ∈ c.messages, (m.fields.map (·.name)).Nodup
  /-- No procedure has more arguments than the limit. -/
  arity : ∀ s ∈ c.services, ∀ p ∈ s.procedures, p.args.length ≤ maxArgs
  /-- Every argument is a message of the contract. -/
  references : ∀ s ∈ c.services, ∀ p ∈ s.procedures, ∀ a ∈ p.args, a ∈ c.messageNames

end RpcContract
