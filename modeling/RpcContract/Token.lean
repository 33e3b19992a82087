/-!
# Tokens

The words and marks of a contract.  Every token but the end of the input has a text, and
`Token.ofText` reads that text back: the reserved words and marks are the tokens of
`Token.reserved`, and every other text is an identifier.
-/

namespace RpcContract

/-- A word that opens a declaration or a procedure. -/
inductive Keyword where
  | service
  | message
  | procedure
  deriving DecidableEq, Repr

/-- The spelling of a keyword. -/
def Keyword.text : Keyword → String
  | .service => "srv"
  | .message => "msg"
  | .procedure => "proc"

/-- Every keyword. -/
def Keyword.all : List Keyword := [.service, .message, .procedure]

/-- The type of a message's field. -/
inductive ValueType where
  | string
  | number
  | object
  | array
  | boolean
  | unit
  deriving DecidableEq, Repr

/-- The spelling of a value type. -/
def ValueType.name : ValueType → String
  | .string => "string"
  | .number => "number"
  | .object => "object"
  | .array => "array"
  | .boolean => "boolean"
  | .unit => "unit"

/-- Every value type. -/
def ValueType.all : List ValueType := [.string, .number, .object, .array, .boolean, .unit]

/-- The value type of a given spelling. -/
def ValueType.ofName? (name : String) : Option ValueType :=
  ValueType.all.find? (·.name == name)

/-- A word or a mark of a contract, or the end of it.  The words that name value types are kept
apart from the other names. -/
inductive Token where
  | keyword (word : Keyword)
  | ident (name : String)
  | semicolon
  | comma
  | lparen
  | rparen
  | lbrace
  | rbrace
  | arrow
  | valueType (type : ValueType)
  | endOfInput
  deriving DecidableEq, Repr

namespace Token

/-- What a token is, without its text. -/
inductive Kind where
  | keyword
  | ident
  | semicolon
  | comma
  | lparen
  | rparen
  | lbrace
  | rbrace
  | arrow
  | valueType
  | endOfInput
  deriving DecidableEq, Repr

/-- The name under which a kind is reported. -/
def Kind.name : Kind → String
  | .keyword => "KEYWORD"
  | .ident => "IDENT"
  | .semicolon => "SEMICOLON"
  | .comma => "COMMA"
  | .lparen => "LPAREN"
  | .rparen => "RPAREN"
  | .lbrace => "LBRACE"
  | .rbrace => "RBRACE"
  | .arrow => "ARROW"
  | .valueType => "VALTYPE"
  | .endOfInput => "EOF"

/-- The kind of a token. -/
def kind : Token → Kind
  | .keyword _ => .keyword
  | .ident _ => .ident
  | .semicolon => .semicolon
  | .comma => .comma
  | .lparen => .lparen
  | .rparen => .rparen
  | .lbrace => .lbrace
  | .rbrace => .rbrace
  | .arrow => .arrow
  | .valueType _ => .valueType
  | .endOfInput => .endOfInput

/-- The text of a token; the end of the contract has none. -/
def text? : Token → Option String
  | .keyword word => some word.text
  | .ident name => some name
  | .semicolon => some ";"
  | .comma => some ","
  | .lparen => some "("
  | .rparen => some ")"
  | .lbrace => some "\x7b"
  | .rbrace => some "\x7d"
  | .arrow => some "->"
  | .valueType type => some type.name
  | .endOfInput => none

/-- The tokens that have a text of their own. -/
def reserved : List Token :=
  Keyword.all.map .keyword ++ [.semicolon, .comma, .lparen, .rparen, .lbrace, .rbrace, .arrow]
    ++ ValueType.all.map .valueType

/-- The token of a text: the reserved one of that text, or else an identifier. -/
def ofText (text : String) : Token :=
  (reserved.find? (·.text? == some text)).getD (.ident text)

end Token

end RpcContract
