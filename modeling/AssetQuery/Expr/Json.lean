import AssetQuery.Expr.Basic
import AssetQuery.Json.Decoder

/-!
# Expressions in JSON

Queries are handed over as JSON. A literal, an expression is the name of its kind or an object with
that name and its content.
-/

namespace AssetQuery

namespace Literal

mutual

/-- The document of a literal, doubles being written by `float`. -/
def toJson (float : Double → Json) : Literal → Json
  | nil => .ofText "nil"
  | bool b => .ofMembers [("bool", .bool b)]
  | int n => .ofMembers [("int", .ofInt n.toInt)]
  | .float x => .ofMembers [("float", float x)]
  | string s => .ofMembers [("string", .ofText s)]
  | array items => .ofMembers [("array", .array (itemsJson float items))]
  | map entries => .ofMembers [("map", .object (entriesJson float entries))]

def itemsJson (float : Double → Json) : List Literal → List Json
  | [] => []
  | l :: rest => l.toJson float :: itemsJson float rest

def entriesJson (float : Double → Json) : List (String × Literal) → List (String × Json)
  | [] => []
  | (key, l) :: rest => (Json.spell key, l.toJson float) :: entriesJson float rest

end

/-- Reads a literal of at most `levels` levels. -/
def decoderLevels : (levels : Nat) → Json.Decoder Literal
  | 0 => fun _ _ => none
  | levels + 1 => fun room doc => do
    match ← Json.Decoder.choice room doc with
    | .name "nil" => some .nil
    | .content "nil" _ .null => some .nil
    | .content "bool" room doc => (Json.Decoder.bool room doc).map .bool
    | .content "int" room doc => (Json.Decoder.int64 room doc).map .int
    | .content "float" room doc => (Json.Decoder.double room doc).map .float
    | .content "string" room doc => (Json.Decoder.text room doc).map .string
    | .content "array" room doc =>
      (Json.Decoder.list (decoderLevels levels) room doc).map .array
    | .content "map" room doc =>
      (Json.Decoder.members (decoderLevels levels) room doc).map fun ms => .map (Entries.ofList ms)
    | _ => none

def decoder : Json.Decoder Literal := fun room doc => decoderLevels (room + 1) room doc

end Literal

namespace Expr

mutual

/-- The document of an expression, doubles being written by `float`. -/
def toJson (float : Double → Json) : Expr → Json
  | literal l => .ofMembers [("literal", l.toJson float)]
  | root name args =>
    .ofMembers [("call", .ofMembers [("name", .ofText name),
      ("args", .array (argsJson float args))])]
  | call receiver name args =>
    .ofMembers [("call", .ofMembers [("receiver", receiver.toJson float), ("name", .ofText name),
      ("args", .array (argsJson float args))])]
  | block body => .ofMembers [("block", .array (bodyJson float body))]
  | element => .ofText "element"

def argsJson (float : Double → Json) : List (Arg Expr) → List Json
  | [] => []
  | ⟨none, value⟩ :: rest => .ofMembers [("value", value.toJson float)] :: argsJson float rest
  | ⟨some name, value⟩ :: rest =>
    .ofMembers [("name", .ofText name), ("value", value.toJson float)] :: argsJson float rest

def bodyJson (float : Double → Json) : List Expr → List Json
  | [] => []
  | e :: rest => e.toJson float :: bodyJson float rest

end

/-- Reads an argument by a decoder for its value. -/
def argDecoder (value : Json.Decoder Expr) : Json.Decoder (Arg Expr) := fun room doc => do
  let fields ← Json.Decoder.record ["name", "value"] room doc
  return ⟨← fields.orElse "name" (.nullable .text) none, ← fields.required "value" value⟩

/-- Reads an expression of at most `levels` levels. -/
def decoderLevels : (levels : Nat) → Json.Decoder Expr
  | 0 => fun _ _ => none
  | levels + 1 => fun room doc => do
    match ← Json.Decoder.choice room doc with
    | .name "element" => some .element
    | .content "element" _ .null => some .element
    | .content "literal" room doc => (Literal.decoder room doc).map .literal
    | .content "block" room doc => (Json.Decoder.list (decoderLevels levels) room doc).map .block
    | .content "call" room doc =>
      let fields ← Json.Decoder.record ["receiver", "name", "args"] room doc
      let receiver ← fields.orElse "receiver" (.nullable (decoderLevels levels)) none
      let name ← fields.required "name" .text
      let args ← fields.orElse "args" (.list (argDecoder (decoderLevels levels))) []
      match receiver with
      | some receiver => some (.call receiver name args)
      | none => some (.root name args)
    | _ => none

def decoder : Json.Decoder Expr := fun room doc => decoderLevels (room + 1) room doc

end Expr

end AssetQuery
