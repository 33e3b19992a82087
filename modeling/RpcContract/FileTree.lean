import RpcContract.Path

/-!
# File trees

A file tree is a file system with a working directory in it.  Files and directories each have a
location, which is the list of names that leads to it.  What the working directory holds is kept at
locations from there, in their order, so a directory stands right before its content; everything
else is kept at locations from the root.  `entryAt?` finds either at its location from the root.

`read` follows a path as an operating system does, one component after another: from the root if the
path begins with a slash, and from the working directory if it does not.  `write` puts a file
straight into the working directory.  A request that fails is denied for one of a few reasons
(`Denial`); `readText` adds that a file's bytes may be no text.
-/

namespace RpcContract

/-- The reason why a file cannot be read or written: a component of the path is not there, the path
ends at a directory or goes on after a file, a name or the path as a whole has too many bytes, or
the bytes of the file are not UTF-8. -/
inductive Denial where
  | missing
  | isDirectory
  | notDirectory
  | nameTooLong
  | notUtf8
  deriving DecidableEq, Repr

/-- The words that report a denial. -/
def Denial.message : Denial → String
  | .missing => "No such file or directory (os error 2)"
  | .isDirectory => "Is a directory (os error 21)"
  | .notDirectory => "Not a directory (os error 20)"
  | .nameTooLong => "File name too long (os error 36)"
  | .notUtf8 => "stream did not contain valid UTF-8"

/-- The text that bytes encode. -/
def textOf (contents : ByteArray) : Except Denial String :=
  match String.fromUTF8? contents with
  | some text => .ok text
  | none => .error .notUtf8

/-- The names that lead to a file or directory, from the root or from the working directory. -/
abbrev Location := List (List UInt8)

/-- What stands at a location. -/
inductive Entry where
  | file (contents : ByteArray)
  | directory

/-- Puts an entry into a list in the order of locations, in place of one at the same location. -/
def insertEntry (l : Location) (e : Entry) : List (Location × Entry) → List (Location × Entry)
  | [] => [(l, e)]
  | x :: xs =>
    if l < x.1 then (l, e) :: x :: xs
    else if l = x.1 then (l, e) :: xs
    else x :: insertEntry l e xs

/-- An inserted list holds the new entry and old ones only. -/
theorem mem_insertEntry {l : Location} {e : Entry} {y : Location × Entry} :
    ∀ {xs : List (Location × Entry)}, y ∈ insertEntry l e xs → y = (l, e) ∨ y ∈ xs
  | [], h => by simpa [insertEntry] using h
  | x :: xs, h => by
    rw [insertEntry] at h
    split at h
    · simpa using h
    · split at h
      · rcases List.mem_cons.mp h with h | h
        · exact .inl h
        · exact .inr (List.mem_cons_of_mem x h)
      · rcases List.mem_cons.mp h with h | h
        · exact .inr (h ▸ List.mem_cons_self)
        · exact (mem_insertEntry h).imp_right (List.mem_cons_of_mem x)

/-- Insertion keeps the order of locations. -/
theorem pairwise_insertEntry {l : Location} {e : Entry} :
    ∀ {xs : List (Location × Entry)}, xs.Pairwise (·.1 < ·.1) →
      (insertEntry l e xs).Pairwise (·.1 < ·.1)
  | [], _ => by simp [insertEntry]
  | x :: xs, h => by
    obtain ⟨hx, hxs⟩ := List.pairwise_cons.mp h
    rw [insertEntry]
    split
    case isTrue lt =>
      refine List.pairwise_cons.mpr ⟨fun y hy => ?_, h⟩
      rcases List.mem_cons.mp hy with rfl | hy
      · exact lt
      · exact List.lt_trans lt (hx y hy)
    case isFalse nlt =>
      split
      case isTrue eq => exact List.pairwise_cons.mpr ⟨fun y hy => eq ▸ hx y hy, hxs⟩
      case isFalse ne =>
        have lt : x.1 < l := Decidable.byContradiction fun h =>
          ne (List.le_antisymm (List.not_lt.mp h) (List.not_lt.mp nlt))
        refine List.pairwise_cons.mpr ⟨fun y hy => ?_, pairwise_insertEntry hxs⟩
        rcases mem_insertEntry hy with rfl | hy
        · exact lt
        · exact hx y hy

/-- A file system and the working directory in it. -/
structure FileTree where
  /-- What the working directory holds, at locations from there. -/
  entries : List (Location × Entry)
  /-- No location comes twice, and a directory comes before its content. -/
  sorted : entries.Pairwise (·.1 < ·.1)
  /-- Where the working directory is, from the root. -/
  workingDirectory : Location
  /-- What stands apart from the working directory, at locations from the root. -/
  elsewhere : Location → Option Entry

namespace FileTree

/-- An empty working directory, with nothing beside it. -/
def emptyAt (workingDirectory : Location) : FileTree :=
  ⟨[], .nil, workingDirectory, fun _ => none⟩

/-- An empty working directory right below the root. -/
def empty : FileTree := emptyAt [Text.Utf8.encode "scratch"]

/-- What the working directory holds at a location from there. -/
def get? (t : FileTree) (l : Location) : Option Entry :=
  t.entries.lookup l

/-- Puts an entry into the working directory, at a location from there. -/
def insert (t : FileTree) (l : Location) (e : Entry) : FileTree :=
  { t with entries := insertEntry l e t.entries, sorted := pairwise_insertEntry t.sorted }

/-- Makes every directory on the way from the working directory to a location, and one there. -/
def makeDirectory (t : FileTree) (l : Location) : FileTree :=
  (List.range l.length).foldl (fun t n => t.insert (l.take (n + 1)) .directory) t

/-- What stands at a location from the root.  The working directory is a directory, and so is each
one on the way to it. -/
def entryAt? (t : FileTree) (l : Location) : Option Entry :=
  if l.isPrefixOf t.workingDirectory then some .directory
  else
    match t.workingDirectory.isPrefixOf? l with
    | some below => t.get? below
    | none => t.elsewhere l

/-- The most bytes that a name may have. -/
def maxNameBytes : Nat := 255

/-- The most bytes that a path may have. -/
def maxPathBytes : Nat := 4095

/-- Looks up a name in the directory at a location. -/
def lookup (t : FileTree) (l : Location) (name : List UInt8) : Except Denial Location :=
  if maxNameBytes < name.length then .error .nameTooLong
  else
    match t.entryAt? (l ++ [name]) with
    | some _ => .ok (l ++ [name])
    | none => .error .missing

/-- Follows one component of a path.  The root is its own parent. -/
def follow (t : FileTree) (l : Location) (component : List UInt8) : Except Denial Location :=
  match t.entryAt? l with
  | some .directory =>
    if component = [] ∨ component = [Path.dotByte] then .ok l
    else if component = [Path.dotByte, Path.dotByte] then .ok l.dropLast
    else t.lookup l component
  | _ => .error .notDirectory

/-- Where a path starts: at the root, or in the working directory. -/
def startOf (t : FileTree) (path : List UInt8) : Location :=
  if path.head? = some Path.slashByte then [] else t.workingDirectory

/-- The location that a path leads to. -/
def locate (t : FileTree) (path : List UInt8) : Except Denial Location :=
  if path = [] then .error .missing
  else if maxPathBytes < path.length then .error .nameTooLong
  else (path.splitOn Path.slashByte).foldlM t.follow (t.startOf path)

/-- The bytes of the file at a path. -/
def read (t : FileTree) (path : List UInt8) : Except Denial ByteArray := do
  let l ← t.locate path
  match t.entryAt? l with
  | some (.file contents) => return contents
  | some .directory => throw .isDirectory
  | none => throw .missing

/-- The text of the file at a path. -/
def readText (t : FileTree) (path : List UInt8) : Except Denial String := do
  let contents ← t.read path
  textOf contents

/-- Puts a file into the working directory, in place of a file of that name. -/
def write (t : FileTree) (name : List UInt8) (contents : ByteArray) : Except Denial FileTree :=
  if maxNameBytes < name.length then .error .nameTooLong
  else
    match t.get? [name] with
    | some .directory => .error .isDirectory
    | _ => .ok (t.insert [name] (.file contents))

end FileTree

end RpcContract
