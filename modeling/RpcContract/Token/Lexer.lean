import RpcContract.Fault
import RpcContract.Token

/-!
# The tokens of a text

A text is cut into fragments before any token is recognised.  Spaces and line breaks separate
fragments and belong to none; each of the six delimiters is a fragment alone, wherever it stands.
A line break is a line feed together with the carriage return before it, if there is one; any
other carriage return is a character like the rest.

`fragments` cuts in passes: the text into lines, each line into words, and then every piece around
each delimiter in turn.  `scan` is the same cut as one walk from left to right, which holds the
run of characters read since the last cut.

A text has tokens when each of its fragments is the text of one.  Otherwise the first fragment that
is not is the fault.  The end of the input closes the tokens.
-/

namespace RpcContract.Fragment

/-- The characters that are fragments alone. -/
def delimiters : List Char := ['(', ')', '\x7b', '\x7d', ';', ',']

/-- The lines of a text, without their breaks.  There is always one more line than breaks. -/
def lines : List Char → List (List Char)
  | [] => [[]]
  | '\n' :: cs => [] :: lines cs
  | '\r' :: '\n' :: cs => [] :: lines cs
  | c :: cs => (lines cs).modifyHead (c :: ·)

/-- The words of a line: its nonempty parts between spaces. -/
def words (line : List Char) : List (List Char) :=
  (line.splitOn ' ').filter (! ·.isEmpty)

/-- Cuts a piece before and after each occurrence of `d`. -/
def isolate (d : Char) (piece : List Char) : List (List Char) :=
  piece.splitBy fun a b => a != d && b != d

/-- Cuts every piece around each of the characters `ds`, one after another. -/
def isolateAll (ds : List Char) (pieces : List (List Char)) : List (List Char) :=
  ds.foldl (fun pieces d => pieces.flatMap (isolate d)) pieces

/-- The fragments of a text, in order. -/
def fragments (text : List Char) : List (List Char) :=
  isolateAll delimiters ((lines text).flatMap words)

/-- Puts a run in front of fragments, unless it is empty. -/
def flush (run : List Char) (rest : List (List Char)) : List (List Char) :=
  if run.isEmpty then rest else run :: rest

/-- The fragments of a text that follows the characters `run`, found in one walk. -/
def scan (run : List Char) : List Char → List (List Char)
  | [] => flush run []
  | '\n' :: cs => flush run (scan [] cs)
  | '\r' :: '\n' :: cs => flush run (scan [] cs)
  | c :: cs =>
    if c = ' ' then flush run (scan [] cs)
    else if c ∈ delimiters then flush run ([c] :: scan [] cs)
    else scan (run ++ [c]) cs

/-- A character of a word: a letter or a digit of ASCII, or an underscore. -/
def isWordChar (c : Char) : Bool :=
  c.isAlphanum || c == '_'

/-- A word: word characters, one at least. -/
def isWord (fragment : List Char) : Bool :=
  !fragment.isEmpty && fragment.all isWordChar

/-- A fragment that is some token's text: a word, an arrow, or a delimiter alone. -/
def isToken (fragment : List Char) : Bool :=
  isWord fragment || fragment == ['-', '>'] || delimiters.any (fragment == [·])

end RpcContract.Fragment

namespace RpcContract

/-- The tokens of a text, or its first fragment that is none. -/
def tokenize (text : String) : Except Fault (List Token) :=
  let fragments := Fragment.fragments text.toList
  match fragments.find? (! Fragment.isToken ·) with
  | some fragment => .error (.lexical (String.ofList fragment))
  | none => .ok (fragments.map (Token.ofText ∘ String.ofList) ++ [.endOfInput])

end RpcContract
