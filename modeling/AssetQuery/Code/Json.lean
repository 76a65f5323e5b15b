import AssetQuery.Code.Wire
import AssetQuery.Primitive.Json

/-!
# Codes in JSON

A code with the version of the format, as a JSON text of many lines.
-/

namespace AssetQuery

/-- The document of a value that may be missing. -/
def optionJson {α : Type} (write : α → Json) (value : Option α) : Json :=
  (value.map write).getD .null

namespace FunctionCall

def toJson (f : FunctionCall) : Json :=
  .ofMembers [("type", f.typ.toJson), ("binding", .ofInt f.binding.toInt),
    ("args", .array (Primitive.itemsJson f.args))]

def decoder : Json.Decoder FunctionCall := fun room doc => do
  let fields ← Json.Decoder.record ["type", "binding", "args"] room doc
  let typ ← fields.required "type" Ty.decoder
  let binding ← fields.required "binding" .int32
  let args ← fields.orElse "args" (.list Primitive.decoder) []
  return ⟨typ, binding, args⟩

end FunctionCall

namespace Chunk

def kindName : ChunkKind → String
  | .primitive => "primitive"
  | .function => "function"
  | .property => "property"

def kindDecoder : Json.Decoder ChunkKind := fun room doc => do
  let name ← match ← Json.Decoder.choice room doc with
    | .name name => some name
    | .content name _ .null => some name
    | _ => none
  match name with
  | "primitive" => some .primitive
  | "function" => some .function
  | "property" => some .property
  | _ => none

def toJson (c : Chunk) : Json :=
  .ofMembers [("call", .ofText (kindName c.kind)), ("id", .ofText c.id),
    ("function", optionJson FunctionCall.toJson c.function),
    ("primitive", optionJson Primitive.toJson c.primitive)]

def decoder : Json.Decoder Chunk := fun room doc => do
  let fields ← Json.Decoder.record ["call", "id", "function", "primitive"] room doc
  let kind ← fields.required "call" kindDecoder
  let id ← fields.required "id" .text
  let function ← fields.orElse "function" (.nullable FunctionCall.decoder) none
  let primitive ← fields.orElse "primitive" (.nullable Primitive.decoder) none
  return ⟨kind, id, function, primitive⟩

end Chunk

namespace Code

/-- A table as an object: the numbers become the names of its members. -/
def tableJson (table : List (Ref × String)) : Json :=
  .object (table.map fun e => (toString e.1.toInt, .ofText e.2))

/-- Reads a table. The name of a member is spelled as a number is. -/
def tableDecoder : Json.Decoder (List (Ref × String))
  | room + 1, .object members => do
    let entries ← members.mapM fun m => do
      let (spelled, rest) ← Json.number? m.1.toList
      if !rest.isEmpty then none
      let r ← Json.Decoder.int32 room (.number (String.ofList spelled))
      return (r, ← Json.Decoder.text room m.2)
    return Table.ofList entries
  | _, _ => none

mutual

def toJson : Code → Json
  | ⟨id, chunks, entrypoints, labels, functions, parameters, checksums⟩ =>
    .ofMembers [("id", .ofText id), ("chunks", .array (chunks.map Chunk.toJson)),
      ("entrypoints", .array (entrypoints.map fun r => .ofInt r.toInt)),
      ("labels", tableJson labels), ("functions", .array (functionsJson functions)),
      ("parameters", .ofInt parameters.toInt), ("checksums", tableJson checksums)]

def functionsJson : List Code → List Json
  | [] => []
  | code :: rest => code.toJson :: functionsJson rest

end

/-- Reads a code with at most `levels` levels of blocks. -/
def decoderLevels : (levels : Nat) → Json.Decoder Code
  | 0 => fun _ _ => none
  | levels + 1 => fun room doc => do
    let fields ← Json.Decoder.record ["id", "chunks", "entrypoints", "labels", "functions",
      "parameters", "checksums"] room doc
    let id ← fields.required "id" .text
    let chunks ← fields.required "chunks" (.list Chunk.decoder)
    let entrypoints ← fields.required "entrypoints" (.list .int32)
    let labels ← fields.required "labels" tableDecoder
    let functions ← fields.required "functions" (.list (decoderLevels levels))
    let parameters ← fields.required "parameters" .int32
    let checksums ← fields.required "checksums" tableDecoder
    return ⟨id, chunks, entrypoints, labels, functions, parameters, checksums⟩

def decoder : Json.Decoder Code := fun room doc => decoderLevels (room + 1) room doc

/-- The JSON text of a code. -/
def writeJson (code : Code) : String :=
  (Json.ofMembers [("version", .ofNat formatVersion), ("code", code.toJson)]).pretty

def versionedDecoder : Json.Decoder (Nat × Code) := fun room doc => do
  let fields ← Json.Decoder.record ["version", "code"] room doc
  return (← fields.required "version" (.natBelow UInt32.size), ← fields.required "code" decoder)

/-- The code that a JSON text holds. -/
def readJson (text : String) : Except SerialError Code :=
  match Json.Decoder.run versionedDecoder text with
  | none => .error (.encoding .jsonNotRead)
  | some (version, code) =>
    if knowsVersion version then .ok code else .error (.unsupportedVersion version)

end Code

end AssetQuery
