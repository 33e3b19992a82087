import RpcContract.Text.Utf8

/-!
# Paths

A path is cut at its slashes into components.  Empty components and the component `.` say nothing
and are passed over; the last one left is the name of the file, unless it is `..`, which names none.
The stem of a name is what stands before its last dot; a name without a dot, or with none but its
first character, is its own stem.

The cut is the same for bytes and for characters, so it is stated for any alphabet with a slash and
a dot.  `baseName?` applies it to bytes, and reads the stem as text.
-/

namespace RpcContract.Path

/-- The components of a path that say something. -/
def components {α : Type} [DecidableEq α] (slash dot : α) (path : List α) : List (List α) :=
  (path.splitOn slash).filter fun component => component ≠ [] ∧ component ≠ [dot]

/-- The name of the file at a path. -/
def fileName? {α : Type} [DecidableEq α] (slash dot : α) (path : List α) : Option (List α) :=
  (components slash dot path).getLast?.filter (· ≠ [dot, dot])

/-- What stands before the last dot of a name. -/
def beforeLastDot {α : Type} [DecidableEq α] (dot : α) (name : List α) : List α :=
  ((name.reverse.dropWhile (· ≠ dot)).drop 1).reverse

/-- The stem of a name. -/
def stem {α : Type} [DecidableEq α] (dot : α) (name : List α) : List α :=
  let before := beforeLastDot dot name
  if before.isEmpty then name else before

/-- The byte of a slash. -/
def slashByte : UInt8 := 0x2F

/-- The byte of a dot. -/
def dotByte : UInt8 := 0x2E

/-- The stem of the file at a path, as text. -/
def baseName? (path : List UInt8) : Option String :=
  (fileName? slashByte dotByte path).map (Text.Utf8.lossy ∘ stem dotByte)

end RpcContract.Path
