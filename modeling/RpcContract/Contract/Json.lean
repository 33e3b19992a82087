import RpcContract.Contract
import RpcContract.Json

/-!
# Contracts as JSON

A contract is an object with the single member `declarations`; every part of it is an object whose
members come in a fixed order.  A declaration says first which kind it is.  `Contract.ofJson?` takes
the contract back from a value of that form.
-/

namespace RpcContract

/-- A list of names as an array of strings. -/
def Json.ofNames (names : List String) : Json :=
  .array (names.map .string)

/-- A procedure as an object. -/
def Procedure.toJson (p : Procedure) : Json :=
  .object [("name", .string p.name), ("args", .ofNames p.args), ("return_type", .string p.result)]

/-- A field as an object. -/
def Field.toJson (f : Field) : Json :=
  .object [("name", .string f.name), ("type", .string f.type.name)]

/-- A declaration as an object. -/
def Declaration.toJson : Declaration → Json
  | .service s =>
    .object [("kind", .string Keyword.service.text), ("name", .string s.name),
      ("procedures", .array (s.procedures.map (·.toJson)))]
  | .message m =>
    .object [("kind", .string Keyword.message.text), ("name", .string m.name),
      ("fields", .array (m.fields.map (·.toJson)))]

/-- A contract as an object. -/
def Contract.toJson (c : Contract) : Json :=
  .object [("declarations", .array (c.declarations.map (·.toJson)))]

/-- A contract as the text of its JSON form. -/
def Contract.toText (c : Contract) : String :=
  c.toJson.pretty

/-- The names in an array of strings. -/
def Json.names? : Json → Option (List String)
  | .array items => items.mapM fun
    | .string name => some name
    | _ => none
  | _ => none

/-- The procedure of an object. -/
def Procedure.ofJson? : Json → Option Procedure
  | .object [("name", .string name), ("args", args), ("return_type", .string result)] => do
    let args ← args.names?
    return ⟨name, args, result⟩
  | _ => none

/-- The field of an object. -/
def Field.ofJson? : Json → Option Field
  | .object [("name", .string name), ("type", .string type)] => do
    let type ← ValueType.ofName? type
    return ⟨name, type⟩
  | _ => none

/-- The declaration of an object. -/
def Declaration.ofJson? : Json → Option Declaration
  | .object [("kind", .string "srv"), ("name", .string name), ("procedures", .array items)] => do
    let procedures ← items.mapM Procedure.ofJson?
    return .service ⟨name, procedures⟩
  | .object [("kind", .string "msg"), ("name", .string name), ("fields", .array items)] => do
    let fields ← items.mapM Field.ofJson?
    return .message ⟨name, fields⟩
  | _ => none

/-- The contract of an object. -/
def Contract.ofJson? : Json → Option Contract
  | .object [("declarations", .array items)] => do
    let declarations ← items.mapM Declaration.ofJson?
    return ⟨declarations⟩
  | _ => none

end RpcContract
