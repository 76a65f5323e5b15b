import AssetQuery.Primitive.Json
import AssetQuery.Schema.Basic

/-!
# Schemas in JSON
-/

namespace AssetQuery

def Dict.toJson {α : Type} (write : α → Json) (d : Dict α) : Json :=
  .ofMembers (d.entries.map fun e => (e.1, write e.2))

def Dict.decoder {α : Type} (item : Json.Decoder α) : Json.Decoder (Dict α) := fun room doc =>
  (Json.Decoder.members item room doc).map Dict.ofList

namespace Field

def toJson (f : Field) : Json :=
  .ofMembers [("name", .ofText f.name), ("type", f.typ.toJson),
    ("isMandatory", .bool f.isMandatory), ("isPrivate", .bool f.isPrivate),
    ("isImplicitResource", .bool f.isImplicit), ("refs", .array (f.refs.map .ofText))]

def decoder : Json.Decoder Field := fun room doc => do
  let fields ← Json.Decoder.record ["name", "type", "isMandatory", "isPrivate",
    "isImplicitResource", "refs"] room doc
  let name ← fields.orElse "name" .text ""
  let typ ← fields.required "type" Ty.decoder
  let isMandatory ← fields.orElse "isMandatory" .bool false
  let isPrivate ← fields.orElse "isPrivate" .bool false
  let isImplicit ← fields.orElse "isImplicitResource" .bool false
  let refs ← fields.orElse "refs" (.list .text) []
  return ⟨name, typ, isMandatory, isPrivate, isImplicit, refs⟩

end Field

namespace ResourceInfo

/-- The document of a declaration. A title that is missing is left out. -/
def toJson (info : ResourceInfo) : Json :=
  .ofMembers ([("id", .ofText info.id), ("fields", info.fields.toJson Field.toJson),
    ("private", .bool info.isPrivate), ("listType", (info.listType.map Ty.toJson).getD .null),
    ("init", .bool info.rewritesArgs)] ++ info.title.toList.map fun t => ("title", .ofText t))

def decoder : Json.Decoder ResourceInfo := fun room doc => do
  let fields ← Json.Decoder.record ["id", "fields", "private", "listType", "init", "title"] room doc
  let id ← fields.orElse "id" .text ""
  let declared ← fields.orElse "fields" (Dict.decoder Field.decoder) .empty
  let isPrivate ← fields.orElse "private" .bool false
  let listType ← fields.orElse "listType" (.nullable Ty.decoder) none
  let rewritesArgs ← fields.orElse "init" .bool false
  let title ← fields.orElse "title" (.nullable .text) none
  return ⟨id, declared, isPrivate, listType, rewritesArgs, title⟩

end ResourceInfo

namespace Schema

def toJson (s : Schema) : Json :=
  .ofMembers [("resources", s.resources.toJson ResourceInfo.toJson)]

def decoder : Json.Decoder Schema := fun room doc => do
  let fields ← Json.Decoder.record ["resources"] room doc
  return ⟨← fields.required "resources" (Dict.decoder ResourceInfo.decoder)⟩

end Schema

end AssetQuery
