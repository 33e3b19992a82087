import RpcContract.Text.Literal

/-!
# Faults

A fault is the reason why a contract is refused.  Each holds the names it is about as they stand in
the contract; `Fault.message` is the one line of text that reports it, with every name quoted.
-/

namespace RpcContract

open Text (quote)

/-- Where a name has to be unique.  Services and messages are named apart from each other;
procedures are named inside their service and fields inside their message. -/
inductive Scope where
  | service
  | message
  | procedure (owner : String)
  | field (owner : String)
  deriving DecidableEq, Repr

/-- The words that name a scope. -/
def Scope.text : Scope → String
  | .service => "srv"
  | .message => "msg"
  | .procedure owner => "proc in srv " ++ quote owner
  | .field owner => "field in msg " ++ quote owner

/-- The declaration that a scope belongs to, if it is not the whole contract. -/
def Scope.owner? : Scope → Option String
  | .service | .message => none
  | .procedure owner | .field owner => some owner

/-- The reason why a contract is refused: a file that could not be read or written, a fragment that
is no token, a token or the end of the input where only others may stand, a name that is declared
twice in one scope, a procedure with more arguments than the limit, or an argument that names no
message of the contract. -/
inductive Fault where
  | io (reason : String)
  | lexical (fragment : String)
  | unexpected (found expected : String)
  | duplicate (scope : Scope) (name : String)
  | tooManyArgs (procedure : String) (limit : Nat)
  | undeclared (name procedure service : String)
  deriving DecidableEq, Repr

/-- The line that reports a fault. -/
def Fault.message : Fault → String
  | .io reason => "I/O error: " ++ reason
  | .lexical fragment => "Lexical error: invalid characters found in " ++ quote fragment
  | .unexpected found expected => "Parse error: found " ++ found ++ ", expected " ++ expected
  | .duplicate scope name =>
    "Duplicate name: " ++ scope.text ++ " " ++ quote name ++ " is already declared"
  | .tooManyArgs procedure limit =>
    "Parse error: too many args in proc " ++ quote procedure
      ++ " (at most " ++ toString limit ++ " allowed)"
  | .undeclared name procedure service =>
    "Semantic error: undeclared message " ++ quote name
      ++ " referenced by proc " ++ quote procedure ++ " in srv " ++ quote service

/-- The fault, if there is one, or else the result. -/
def outcome {α : Type} (fault? : Option Fault) (a : α) : Except Fault α :=
  match fault? with
  | some f => .error f
  | none => .ok a

end RpcContract
