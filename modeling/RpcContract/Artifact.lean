/-!
# Generated files

Four scripts are generated for a contract, each from a template of its own.  A template holds a
placeholder wherever the base name of the contract's file belongs.  `fill` cuts the template at the
placeholders and joins the pieces by the base name, so what is inserted is never searched again.
-/

namespace RpcContract

/-- The text of the places where the base name belongs. -/
def placeholder : String := "FIXME"

/-- The pieces of a text between the occurrences of `mark`, found from left to right, when the
first `skip` characters belong to an occurrence already found. -/
def cutFrom (mark : List Char) (skip : Nat) : List Char → List (List Char)
  | [] => [[]]
  | c :: cs =>
    match skip with
    | skip + 1 => cutFrom mark skip cs
    | 0 =>
      if mark.isPrefixOf (c :: cs) then [] :: cutFrom mark (mark.length - 1) cs
      else (cutFrom mark 0 cs).modifyHead (c :: ·)

/-- The pieces of a text between the occurrences of `mark`, which is not empty. -/
def cut (mark text : List Char) : List (List Char) :=
  cutFrom mark 0 text

/-- A text with another in place of every placeholder. -/
def fill (template base : String) : String :=
  String.ofList (base.toList.intercalate (cut placeholder.toList template.toList))

/-- Lines as one text, each with its break. -/
def unlines (lines : List String) : String :=
  String.ofList (lines.flatMap fun line => line.toList ++ ['\n'])

/-- A script that is generated for every contract. -/
structure Artifact where
  /-- What its file name has between the base name and the extension. -/
  suffix : String
  /-- The extension of its file name. -/
  extension : String
  /-- Its text, with placeholders. -/
  template : String
  deriving DecidableEq, Repr

/-- A file, ready to be written. -/
structure GeneratedFile where
  /-- Its name, without a directory. -/
  name : String
  /-- Its text. -/
  contents : String
  deriving DecidableEq, Repr

namespace Artifact

/-- The script that listens for calls and answers them. -/
def server : Artifact where
  suffix := "server"
  extension := "js"
  template := unlines [
    "'use strict'",
    "",
    "const net = require('net')",
    "const proto = require('./FIXME.proto.js')",
    "const handlers = require('./FIXME.service.js')",
    "",
    "const server = net.createServer(sock => \x7b",
    "  sock.on('data', data => \x7b",
    "    const \x7b func, args \x7d = proto.unmarshal(data)",
    "    const ret = handlers[func](...args)",
    "    sock.end(proto.marshal(\x7b ret: ret \x7d))",
    "  \x7d)",
    "\x7d)",
    "",
    "server.listen(\x7b",
    "  host: 'localhost',",
    "  port: 8080,",
    "  exclusive: true",
    "\x7d)"]

/-- The script that sends calls. -/
def client : Artifact where
  suffix := "client"
  extension := "js"
  template := unlines [
    "'use strict'",
    "",
    "const net = require('net')",
    "const proto = require('./FIXME.proto.js')",
    "",
    "const call = (func, ...args) => new Promise((resolve, reject) => \x7b",
    "  const client = net.createConnection(\x7b host: 'localhost', port: 8080 \x7d, () => \x7b",
    "    client.write(proto.marshal(\x7b func, args \x7d))",
    "  \x7d)",
    "",
    "  client.on('data', data => \x7b",
    "    resolve(proto.unmarshal(data).ret)",
    "    client.end()",
    "  \x7d)",
    "  client.on('error', reject)",
    "\x7d)",
    "",
    "module.exports = \x7b call \x7d"]

/-- The script that both sides write and read calls with. -/
def proto : Artifact where
  suffix := "proto"
  extension := "js"
  template := unlines [
    "'use strict'",
    "",
    "// Wire format for FIXME.",
    "const marshal = obj => Buffer.from(JSON.stringify(obj), 'utf-8')",
    "const unmarshal = data => JSON.parse(data.toString('utf-8'))",
    "",
    "module.exports = \x7b marshal, unmarshal \x7d"]

/-- The script that is to hold the procedures. -/
def service : Artifact where
  suffix := "service"
  extension := "js"
  template := unlines [
    "'use strict'",
    "",
    "// Procedure handlers for FIXME, keyed by procedure name.",
    "module.exports = \x7b",
    "\x7d"]

/-- Every script, in the order in which they are written. -/
def all : List Artifact := [server, client, proto, service]

/-- The name of a script's file. -/
def fileName (a : Artifact) (base : String) : String :=
  base ++ "." ++ a.suffix ++ "." ++ a.extension

/-- A script for a contract whose file has a given base name. -/
def generate (a : Artifact) (base : String) : GeneratedFile :=
  ⟨a.fileName base, fill a.template base⟩

end Artifact

/-- The scripts for a contract whose file has a given base name. -/
def emit (base : String) : List GeneratedFile :=
  Artifact.all.map (·.generate base)

end RpcContract
