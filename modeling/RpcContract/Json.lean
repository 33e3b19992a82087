import RpcContract.Text.Literal

/-!
# JSON values, and their indented form

`Json.pretty` writes a value over several lines: each item of an array and each member of an object
stands on a line of its own, two spaces further in than the brackets around it, and a member's name
is followed by a colon and a space.  An empty array or object is its two brackets.
-/

namespace RpcContract

/-- A JSON value.  A number is kept as it is spelt, and an object as its members in order. -/
inductive Json where
  | null
  | bool (value : Bool)
  | number (spelling : String)
  | string (value : String)
  | array (items : List Json)
  | object (members : List (String × Json))
  deriving Repr

namespace Json

/-- A line break, and the indent of the next line. -/
def newline (depth : Nat) : List Char :=
  '\n' :: List.replicate (2 * depth) ' '

/-- Brackets around items, each on a line of its own. -/
def block (opening closing : Char) (depth : Nat) (items : List (List Char)) : List Char :=
  if items.isEmpty then [opening, closing]
  else
    opening :: newline (depth + 1) ++ List.intercalate (',' :: newline (depth + 1)) items
      ++ newline depth ++ [closing]

mutual

/-- The indented form of a value whose first line is indented by `depth` steps. -/
def prettyChars (depth : Nat) : Json → List Char
  | .null => ['n', 'u', 'l', 'l']
  | .bool true => ['t', 'r', 'u', 'e']
  | .bool false => ['f', 'a', 'l', 's', 'e']
  | .number spelling => spelling.toList
  | .string value => Text.quoteChars value.toList
  | .array items => block '[' ']' depth (prettyItems (depth + 1) items)
  | .object members => block '\x7b' '\x7d' depth (prettyMembers (depth + 1) members)

/-- The indented form of each item of an array. -/
def prettyItems (depth : Nat) : List Json → List (List Char)
  | [] => []
  | item :: items => prettyChars depth item :: prettyItems depth items

/-- The indented form of each member of an object. -/
def prettyMembers (depth : Nat) : List (String × Json) → List (List Char)
  | [] => []
  | (name, value) :: members =>
    (Text.quoteChars name.toList ++ ':' :: ' ' :: prettyChars depth value)
      :: prettyMembers depth members

end

/-- The indented form of a value. -/
def pretty (j : Json) : String :=
  String.ofList (prettyChars 0 j)

end Json

end RpcContract
