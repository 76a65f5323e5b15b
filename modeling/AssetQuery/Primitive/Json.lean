import AssetQuery.Json.Decoder
import AssetQuery.Primitive.Basic

/-!
# Types and primitives in JSON

A type stands in JSON as its label, a primitive as a record of its parts.
-/

namespace AssetQuery

namespace Ty

def toJson (t : Ty) : Json := .ofText t.label

def decoder : Json.Decoder Ty := fun room doc => do
  match Ty.ofLabel (← Json.Decoder.text room doc) with
  | .ok t => some t
  | .error _ => none

end Ty

def Bytes.toJson (bytes : Bytes) : Json := .array (bytes.map fun b => .ofNat b.toNat)

def Bytes.decoder : Json.Decoder Bytes := fun room doc =>
  (Json.Decoder.list (Json.Decoder.natBelow 256) room doc).map fun ns => ns.map UInt8.ofNat

namespace Primitive

mutual

def toJson : Primitive → Json
  | ⟨typ, bytes, items, entries⟩ =>
    .ofMembers [("type", typ.toJson), ("value", Bytes.toJson bytes),
      ("array", .array (itemsJson items)), ("map", .object (entriesJson entries))]

def itemsJson : List Primitive → List Json
  | [] => []
  | p :: rest => p.toJson :: itemsJson rest

def entriesJson : List (String × Primitive) → List (String × Json)
  | [] => []
  | (key, p) :: rest => (Json.spell key, p.toJson) :: entriesJson rest

end

/-- Reads a primitive of at most `levels` levels. -/
def decoderLevels : (levels : Nat) → Json.Decoder Primitive
  | 0 => fun _ _ => none
  | levels + 1 => fun room doc => do
    let fields ← Json.Decoder.record ["type", "value", "array", "map"] room doc
    let typ ← fields.required "type" Ty.decoder
    let bytes ← fields.orElse "value" Bytes.decoder []
    let items ← fields.orElse "array" (.list (decoderLevels levels)) []
    let entries ← fields.orElse "map" (.members (decoderLevels levels)) []
    return ⟨typ, bytes, items, Entries.ofList entries⟩

/-- Reads a primitive. Each of its levels enters a level of the document. -/
def decoder : Json.Decoder Primitive := fun room doc => decoderLevels (room + 1) room doc

end Primitive

end AssetQuery
