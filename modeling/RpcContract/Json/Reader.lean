import RpcContract.Json

/-!
# Reading JSON

`Json.ofText?` reads a JSON text: one value, with blanks allowed around every value and every mark.
A value is read from the front of the characters, and what stands after it is left.

A step into a value, or on to the next item, uses up a character, so the number of characters bounds
the number of steps: it is the `fuel` that the readers of values and lists count down.
-/

namespace RpcContract.Json

/-- A blank between the parts of a JSON text. -/
def isBlank (c : Char) : Bool :=
  c == ' ' || c == '\t' || c == '\n' || c == '\r'

/-- Leaves out the blanks at the front. -/
def skipBlanks (cs : List Char) : List Char :=
  cs.dropWhile isBlank

/-- Reads digits, one at least. -/
def readDigits (cs : List Char) : Option (List Char × List Char) :=
  if (cs.takeWhile Char.isDigit).isEmpty then none
  else some (cs.takeWhile Char.isDigit, cs.dropWhile Char.isDigit)

/-- Reads the whole part of a number: no digit follows a leading zero. -/
def readWhole : List Char → Option (List Char × List Char)
  | '0' :: rest => some (['0'], rest)
  | cs => readDigits cs

/-- Reads the fraction of a number, if it has one. -/
def readFraction : List Char → Option (List Char × List Char)
  | '.' :: rest => (readDigits rest).map fun (ds, rest) => ('.' :: ds, rest)
  | cs => some ([], cs)

/-- Reads a sign, if there is one of those given. -/
def readSign (signs : List Char) : List Char → List Char × List Char
  | [] => ([], [])
  | c :: rest => if c ∈ signs then ([c], rest) else ([], c :: rest)

/-- Reads the exponent of a number, if it has one. -/
def readExponent : List Char → Option (List Char × List Char)
  | [] => some ([], [])
  | c :: rest =>
    if c = 'e' ∨ c = 'E' then do
      let (sign, rest) := readSign ['+', '-'] rest
      let (ds, rest) ← readDigits rest
      return (c :: sign ++ ds, rest)
    else some ([], c :: rest)

/-- Reads a number. -/
def readNumber (cs : List Char) : Option (Json × List Char) := do
  let (sign, cs) := readSign ['-'] cs
  let (whole, cs) ← readWhole cs
  let (fraction, cs) ← readFraction cs
  let (exponent, cs) ← readExponent cs
  return (.number (String.ofList (sign ++ whole ++ fraction ++ exponent)), cs)

/-- Reads a string. -/
def readString (cs : List Char) : Option (String × List Char) :=
  (Text.readLiteral cs).map fun (text, rest) => (String.ofList text, rest)

mutual

/-- Reads a value, after blanks. -/
def readValue : Nat → List Char → Option (Json × List Char)
  | 0, _ => none
  | fuel + 1, cs =>
    match skipBlanks cs with
    | 'n' :: 'u' :: 'l' :: 'l' :: rest => some (.null, rest)
    | 't' :: 'r' :: 'u' :: 'e' :: rest => some (.bool true, rest)
    | 'f' :: 'a' :: 'l' :: 's' :: 'e' :: rest => some (.bool false, rest)
    | '"' :: rest => (readString ('"' :: rest)).map fun (text, rest) => (.string text, rest)
    | '[' :: rest =>
      match skipBlanks rest with
      | ']' :: rest => some (.array [], rest)
      | rest => (readItems fuel rest).map fun (items, rest) => (.array items, rest)
    | '\x7b' :: rest =>
      match skipBlanks rest with
      | '\x7d' :: rest => some (.object [], rest)
      | rest => (readMembers fuel rest).map fun (members, rest) => (.object members, rest)
    | cs => readNumber cs

/-- Reads the items of an array, and the mark that closes it. -/
def readItems : Nat → List Char → Option (List Json × List Char)
  | 0, _ => none
  | fuel + 1, cs => do
    let (item, rest) ← readValue fuel cs
    match skipBlanks rest with
    | ',' :: rest => (readItems fuel rest).map fun (items, rest) => (item :: items, rest)
    | ']' :: rest => some ([item], rest)
    | _ => none

/-- Reads the members of an object, and the mark that closes it. -/
def readMembers : Nat → List Char → Option (List (String × Json) × List Char)
  | 0, _ => none
  | fuel + 1, cs => do
    let (name, rest) ← readString (skipBlanks cs)
    let ':' :: rest := skipBlanks rest | none
    let (value, rest) ← readValue fuel rest
    match skipBlanks rest with
    | ',' :: rest =>
      (readMembers fuel rest).map fun (members, rest) => ((name, value) :: members, rest)
    | '\x7d' :: rest => some ([(name, value)], rest)
    | _ => none

end

/-- The value of a JSON text, with nothing but blanks around it. -/
def ofText? (text : String) : Option Json := do
  let (value, rest) ← readValue (text.length + 1) text.toList
  if (skipBlanks rest).isEmpty then return value else none

end RpcContract.Json
