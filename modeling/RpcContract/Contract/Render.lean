import RpcContract.Contract

/-!
# Writing a contract

The canonical form of a contract: its declarations in order, an arrow before what each procedure
returns, and single spaces between the tokens.
-/

namespace RpcContract

/-- The tokens of a procedure. -/
def Procedure.tokens (p : Procedure) : List Token :=
  [.keyword .procedure, .ident p.name, .lparen] ++ (p.args.map .ident).intersperse .comma
    ++ [.rparen, .arrow, .ident p.result, .semicolon]

/-- The tokens of a field. -/
def Field.tokens (f : Field) : List Token :=
  [.ident f.name, .valueType f.type, .semicolon]

/-- The tokens of a declaration. -/
def Declaration.tokens : Declaration → List Token
  | .service s =>
    [.keyword .service, .ident s.name, .lbrace] ++ s.procedures.flatMap (·.tokens) ++ [.rbrace]
  | .message m =>
    [.keyword .message, .ident m.name, .lbrace] ++ m.fields.flatMap (·.tokens) ++ [.rbrace]

/-- The tokens of a contract, without the end of the input. -/
def Contract.tokens (c : Contract) : List Token :=
  c.declarations.flatMap (·.tokens)

/-- The canonical text of a contract. -/
def Contract.render (c : Contract) : String :=
  " ".intercalate (c.tokens.filterMap (·.text?))

end RpcContract
