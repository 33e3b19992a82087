import RpcContract.Contract

/-!
# The grammar of contracts

Which tokens spell which contract, as rules:

    contract    ::= declaration*
    declaration ::= srv IDENT { procedure* }  |  msg IDENT { field* }
    procedure   ::= proc IDENT ( arguments ) connector IDENT ;
    arguments   ::= nothing  |  IDENT (, IDENT)*
    connector   ::= ->  |  IDENT
    field       ::= IDENT VALTYPE ;

The rules say nothing of repeated names or of the number of arguments.  The connector leaves no trace
in the contract.
-/

namespace RpcContract.Grammar

/-- Tokens that spell a list of things one after another, each by the rule `R`. -/
inductive Many {α : Type} (R : List Token → α → Prop) : List Token → List α → Prop where
  | nil : Many R [] []
  | cons {ts us : List Token} {x : α} {xs : List α} :
    R ts x → Many R us xs → Many R (ts ++ us) (x :: xs)

/-- Tokens that spell one argument or more. -/
inductive SomeArgs : List Token → List String → Prop where
  | last (a : String) : SomeArgs [.ident a] [a]
  | more (a : String) {ts : List Token} {as : List String} :
    SomeArgs ts as → SomeArgs (.ident a :: .comma :: ts) (a :: as)

/-- Tokens that spell the arguments of a procedure. -/
inductive Args : List Token → List String → Prop where
  | none : Args [] []
  | some {ts : List Token} {as : List String} : SomeArgs ts as → Args ts as

/-- A token that may stand between the arguments of a procedure and what it returns. -/
inductive Connector : Token → Prop where
  | arrow : Connector .arrow
  | ident (name : String) : Connector (.ident name)

/-- Tokens that spell a procedure. -/
inductive SpellsProcedure : List Token → Procedure → Prop where
  | mk (name result : String) {ts : List Token} {args : List String} {connector : Token} :
    Args ts args → Connector connector →
      SpellsProcedure
        ([.keyword .procedure, .ident name, .lparen] ++ ts
          ++ [.rparen, connector, .ident result, .semicolon])
        ⟨name, args, result⟩

/-- Tokens that spell a field. -/
inductive SpellsField : List Token → Field → Prop where
  | mk (name : String) (type : ValueType) :
    SpellsField [.ident name, .valueType type, .semicolon] ⟨name, type⟩

/-- Tokens that spell a declaration. -/
inductive SpellsDeclaration : List Token → Declaration → Prop where
  | service (name : String) {ts : List Token} {procedures : List Procedure} :
    Many SpellsProcedure ts procedures →
      SpellsDeclaration ([.keyword .service, .ident name, .lbrace] ++ ts ++ [.rbrace])
        (.service ⟨name, procedures⟩)
  | message (name : String) {ts : List Token} {fields : List Field} :
    Many SpellsField ts fields →
      SpellsDeclaration ([.keyword .message, .ident name, .lbrace] ++ ts ++ [.rbrace])
        (.message ⟨name, fields⟩)

/-- Tokens that spell a contract. -/
def Spells (ts : List Token) (c : Contract) : Prop :=
  Many SpellsDeclaration ts c.declarations

end RpcContract.Grammar
