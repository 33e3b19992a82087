import RpcContract.Artifact
import RpcContract.Compile
import RpcContract.FileTree

/-!
# The command

`bazc <INPUT>` compiles the contract in a file and writes the generated scripts into the working
directory.  `Request.ofArgs` says what the arguments ask for, and `generated` is all that happens
between reading the contract and writing the first script.  Scripts are written one after another,
and each is announced once it is written.  So when a write fails, the scripts before it stay in
place and are the ones announced.

`command` is stated over the operations of a `Host`, in any monad.  `run` is the command on a file
tree: the tree that it leaves, and what it reports.
-/

namespace RpcContract.CommandLine

open Text

/-- What the arguments ask for. -/
inductive Request where
  | help
  | invalid
  | compile (input : List UInt8)
  deriving DecidableEq, Repr

/-- The byte of a dash. -/
def dashByte : UInt8 := 0x2D

/-- An argument that starts with a dash and is not a dash alone. -/
def isOption (arg : List UInt8) : Bool :=
  arg.head? == some dashByte && 1 < arg.length

/-- An argument that asks for help: `--help`, or short options of which `h` is the first. -/
def isHelp (arg : List UInt8) : Bool :=
  arg == Utf8.encode "--help" || (Utf8.encode "-h").isPrefixOf arg

/-- The request of the positional arguments: there has to be exactly one, and not an empty one. -/
def Request.ofPositionals : List (List UInt8) → Request
  | [input] => if input.isEmpty then .invalid else .compile input
  | _ => .invalid

/-- The request of arguments that follow a positional argument, if there was one.  They are taken
from left to right, and the first that decides is the one that counts.  An empty positional argument
is refused when the next option is met, so it wins over a request for help. -/
def Request.ofArgsAfter (input : Option (List UInt8)) : List (List UInt8) → Request
  | [] => .ofPositionals input.toList
  | arg :: args =>
    if arg = Utf8.encode "--" then .ofPositionals (input.toList ++ args)
    else if isHelp arg then
      if input = some [] then .invalid else .help
    else if isOption arg || input.isSome then .invalid
    else .ofArgsAfter (some arg) args

/-- What arguments ask for. -/
def Request.ofArgs (args : List (List UInt8)) : Request :=
  .ofArgsAfter none args

/-- How the command is called. -/
def usageLine : String := "Usage: bazc <INPUT>\n"

/-- The answer to a request for help. -/
def helpText : String :=
  "Compile a Baz RPC contract into server/client/proto/service stubs\n\n" ++ usageLine
    ++ "\nArguments:\n  <INPUT>  Input `.baz` contract file\n"
    ++ "\nOptions:\n  -h, --help  Print help\n"

/-- The scripts for the contract in a file of some text. -/
def generated (input : List UInt8) (text : String) : Except Fault (List GeneratedFile) := do
  let _ ← compile text
  match Path.baseName? input with
  | some base => return emit base
  | none => throw (.io ("cannot derive a base name from " ++ Utf8.lossy input))

/-- The line that announces a script. -/
def announcement (file : GeneratedFile) : String := "Generated " ++ file.name ++ "\n"

/-- The line that reports a fault. -/
def complaint (fault : Fault) : String := "error: " ++ fault.message ++ "\n"

/-! ### On any host -/

/-- What the command needs of the system that it runs on. -/
structure Host (m : Type → Type) where
  /-- The text of the file at a path, or the words for why it cannot be read. -/
  readText : List UInt8 → m (Except String String)
  /-- Puts a file into the working directory, or gives the words for why it cannot be put there. -/
  write : List UInt8 → ByteArray → m (Except String Unit)
  /-- Shows a text on the standard output. -/
  print : String → m Unit
  /-- Shows a text on the standard error. -/
  printError : String → m Unit

section

variable {m : Type → Type} [Monad m] (host : Host m)

/-- Writes scripts one after another, and announces each, until one is denied. -/
def writeAll : List GeneratedFile → m (Except Fault Unit)
  | [] => return .ok ()
  | file :: files => do
    match ← host.write (Utf8.encode file.name) file.contents.toUTF8 with
    | .error reason => return .error (.io reason)
    | .ok () =>
      host.print (announcement file)
      writeAll files

/-- Compiles the contract at a path. -/
def compileFile (input : List UInt8) : m (Except Fault Unit) := do
  match ← host.readText input with
  | .error reason => return .error (.io reason)
  | .ok text =>
    match generated input text with
    | .error fault => return .error fault
    | .ok files => writeAll host files

/-- Does what arguments ask for, and gives the exit status.  Arguments that make no sense are told
`usage`, which may depend on them. -/
def command (usage : List (List UInt8) → String) (args : List (List UInt8)) : m Nat := do
  match Request.ofArgs args with
  | .help =>
    host.print helpText
    return 0
  | .invalid =>
    host.printError (usage args)
    return 2
  | .compile input =>
    match ← compileFile host input with
    | .ok () => return 0
    | .error fault =>
      host.printError (complaint fault)
      return 1

end

/-! ### On a file tree -/

/-- A run under way: the tree as it is by now, and what has been shown. -/
structure Session where
  tree : FileTree
  stdout : String
  stderr : String

/-- A file tree as a host. -/
def Host.ofTree : Host (StateM Session) where
  readText path := fun s => ((s.tree.readText path).mapError (·.message), s)
  write name contents := fun s =>
    match s.tree.write name contents with
    | .ok tree => (.ok (), { s with tree })
    | .error denial => (.error denial.message, s)
  print text := modify fun s => { s with stdout := s.stdout ++ text }
  printError text := modify fun s => { s with stderr := s.stderr ++ text }

/-- What a run shows. -/
structure Report where
  status : Nat
  stdout : String
  stderr : String
  deriving DecidableEq, Repr

/-- One run of the command on a file tree: the tree that it leaves, and what it shows. -/
def run (tree : FileTree) (args : List (List UInt8))
    (usage : List (List UInt8) → String := fun _ => usageLine) : FileTree × Report :=
  let (status, session) := (command .ofTree usage args).run ⟨tree, "", ""⟩
  (session.tree, ⟨status, session.stdout, session.stderr⟩)

end RpcContract.CommandLine
