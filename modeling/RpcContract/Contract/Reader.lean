import RpcContract.Contract
import RpcContract.Fault

/-!
# Reading a contract from its tokens

The grammar of contracts needs no stack, so a contract is read one token at a time.  Between two
tokens the reader stands at a `Place`, which holds the declaration begun there, and has the earlier
declarations behind it.  `Place.expected` lists the alternatives that a place asks for, and `follow`
says where the next token leads from there.

A token that a place has no use for is the fault `unexpected`.  The other faults are breaches of a
rule, and arise where the reader first knows of them (`breach?`): one argument too many at the comma
before it, a repeated procedure or field at its semicolon, a repeated service or message at the mark
that closes its body.  `step` takes a token and stops at either kind of fault.

`readFrom` takes one token after another.  It stops at the first `endOfInput`, which may come only
between declarations, and the end of the list counts as one.
-/

namespace RpcContract

/-- The most arguments that a procedure may have. -/
def maxArgs : Nat := 32

/-- An alternative that a place asks for: any token of a kind, or one keyword. -/
inductive Expected where
  | kind (kind : Token.Kind)
  | keyword (word : Keyword)
  deriving DecidableEq, Repr

/-- How an alternative is reported: a kind by its name, a keyword by its spelling. -/
def Expected.text : Expected → String
  | .kind k => k.name
  | .keyword word => "`" ++ word.text ++ "`"

/-- How a token is reported where another was expected. -/
def Token.shown (t : Token) : String :=
  match t.text? with
  | some text => "`" ++ text ++ "`"
  | none => "end of input"

namespace Reader

/-- Where a service's body is read up to: between procedures, or after the part of a procedure that
is held so far. -/
inductive ServicePlace where
  | start
  | name
  | opening (name : String)
  | firstArg (name : String)
  | nextArg (name : String) (args : List String)
  | afterArg (name : String) (args : List String)
  | connector (name : String) (args : List String)
  | result (name : String) (args : List String)
  | closing (procedure : Procedure)
  deriving DecidableEq, Repr

/-- Where a message's body is read up to: between fields, or after the part of a field that is held
so far. -/
inductive MessagePlace where
  | start
  | type (name : String)
  | closing (field : Field)
  deriving DecidableEq, Repr

/-- Where a contract is read up to.  A place is named for what it asks for; in a body, it holds the
procedures or fields that are complete. -/
inductive Place where
  | top
  | serviceName
  | messageName
  | serviceOpening (name : String)
  | messageOpening (name : String)
  | inService (service : Service) (place : ServicePlace)
  | inMessage (message : Message) (place : MessagePlace)
  deriving DecidableEq, Repr

/-- The alternatives that a place in a service's body asks for.  Between procedures the end of the
body is not among them, nor is the end of the arguments right after their start. -/
def ServicePlace.expected : ServicePlace → List Expected
  | .start => [.keyword .procedure]
  | .name => [.kind .ident]
  | .opening _ => [.kind .lparen]
  | .firstArg _ => [.kind .ident]
  | .nextArg _ _ => [.kind .ident]
  | .afterArg _ _ => [.kind .comma, .kind .rparen]
  | .connector _ _ => [.kind .arrow, .kind .ident]
  | .result _ _ => [.kind .ident]
  | .closing _ => [.kind .semicolon]

/-- The alternatives that a place in a message's body asks for. -/
def MessagePlace.expected : MessagePlace → List Expected
  | .start => [.kind .ident]
  | .type _ => [.kind .valueType]
  | .closing _ => [.kind .semicolon]

/-- The alternatives that a place asks for. -/
def Place.expected : Place → List Expected
  | .top => [.keyword .service, .keyword .message]
  | .serviceName => [.kind .ident]
  | .messageName => [.kind .ident]
  | .serviceOpening _ => [.kind .lbrace]
  | .messageOpening _ => [.kind .lbrace]
  | .inService _ place => place.expected
  | .inMessage _ place => place.expected

/-- The fault of a token that a place has no use for. -/
def Place.refuse (place : Place) (t : Token) : Fault :=
  .unexpected t.shown (" or ".intercalate (place.expected.map (·.text)))

/-- What is read so far: the complete declarations, and the place reached. -/
structure Progress where
  contract : Contract
  place : Place
  deriving DecidableEq, Repr

/-- Nothing is read yet. -/
def Progress.start : Progress := ⟨⟨[]⟩, .top⟩

/-- The same declarations, at another place. -/
def Progress.goto (p : Progress) (place : Place) : Progress := { p with place }

/-- One more declaration is complete. -/
def Progress.declare (p : Progress) (d : Declaration) : Progress :=
  ⟨⟨p.contract.declarations ++ [d]⟩, .top⟩

/-- Where a token leads, the rules aside; nowhere, if the place has no use for it. -/
def follow (p : Progress) (t : Token) : Option Progress :=
  match p.place, t with
  | .top, .keyword .service => some (p.goto .serviceName)
  | .top, .keyword .message => some (p.goto .messageName)
  | .serviceName, .ident n => some (p.goto (.serviceOpening n))
  | .messageName, .ident n => some (p.goto (.messageOpening n))
  | .serviceOpening n, .lbrace => some (p.goto (.inService ⟨n, []⟩ .start))
  | .messageOpening n, .lbrace => some (p.goto (.inMessage ⟨n, []⟩ .start))
  | .inService s .start, .rbrace => some (p.declare (.service s))
  | .inService s .start, .keyword .procedure => some (p.goto (.inService s .name))
  | .inService s .name, .ident n => some (p.goto (.inService s (.opening n)))
  | .inService s (.opening n), .lparen => some (p.goto (.inService s (.firstArg n)))
  | .inService s (.firstArg n), .rparen => some (p.goto (.inService s (.connector n [])))
  | .inService s (.firstArg n), .ident a => some (p.goto (.inService s (.afterArg n [a])))
  | .inService s (.nextArg n as), .ident a =>
    some (p.goto (.inService s (.afterArg n (as ++ [a]))))
  | .inService s (.afterArg n as), .comma => some (p.goto (.inService s (.nextArg n as)))
  | .inService s (.afterArg n as), .rparen => some (p.goto (.inService s (.connector n as)))
  | .inService s (.connector n as), .arrow => some (p.goto (.inService s (.result n as)))
  | .inService s (.connector n as), .ident _ => some (p.goto (.inService s (.result n as)))
  | .inService s (.result n as), .ident r => some (p.goto (.inService s (.closing ⟨n, as, r⟩)))
  | .inService s (.closing procedure), .semicolon =>
    some (p.goto (.inService ⟨s.name, s.procedures ++ [procedure]⟩ .start))
  | .inMessage m .start, .rbrace => some (p.declare (.message m))
  | .inMessage m .start, .ident n => some (p.goto (.inMessage m (.type n)))
  | .inMessage m (.type n), .valueType type => some (p.goto (.inMessage m (.closing ⟨n, type⟩)))
  | .inMessage m (.closing field), .semicolon =>
    some (p.goto (.inMessage ⟨m.name, m.fields ++ [field]⟩ .start))
  | _, _ => none

/-- The rule that a token breaks: a name is taken where it is declared, or the limit leaves no room
for another argument. -/
def breach? (p : Progress) (t : Token) : Option Fault :=
  match p.place, t with
  | .inService s .start, .rbrace =>
    if s.name ∈ p.contract.serviceNames then some (.duplicate .service s.name) else none
  | .inService _ (.afterArg n as), .comma =>
    if as.length < maxArgs then none else some (.tooManyArgs n maxArgs)
  | .inService s (.closing procedure), .semicolon =>
    if procedure.name ∈ s.procedures.map (·.name) then
      some (.duplicate (.procedure s.name) procedure.name)
    else none
  | .inMessage m .start, .rbrace =>
    if m.name ∈ p.contract.messageNames then some (.duplicate .message m.name) else none
  | .inMessage m (.closing field), .semicolon =>
    if field.name ∈ m.fields.map (·.name) then some (.duplicate (.field m.name) field.name) else none
  | _, _ => none

/-- Takes one token: the place has to have a use for it, and it must break no rule. -/
def step (p : Progress) (t : Token) : Except Fault Progress :=
  match follow p t with
  | none => .error (p.place.refuse t)
  | some q => outcome (breach? p t) q

/-- Takes the end of the input. -/
def finish (p : Progress) : Except Fault Contract :=
  match p.place with
  | .top => .ok p.contract
  | place => .error (place.refuse .endOfInput)

/-- Takes tokens up to the end of the input. -/
def readFrom (p : Progress) : List Token → Except Fault Contract
  | [] => finish p
  | .endOfInput :: _ => finish p
  | t :: ts => do
    let q ← step p t
    readFrom q ts

end Reader

/-- The contract that tokens spell, or the first fault in them. -/
def Contract.ofTokens (tokens : List Token) : Except Fault Contract :=
  Reader.readFrom .start tokens

end RpcContract
