import AssetQuery.Data.Basic
import AssetQuery.Primitive.Json
import AssetQuery.Primitive.Wire

/-!
# Answers

The written form of data that answers an entry point of a code, marked with the checksum of that
entry point.
-/

namespace AssetQuery

/-- The written answer of an entry point. -/
structure Answer where
  codeId : String
  data : Primitive
  error : Option String
  deriving Inhabited, Repr, BEq

namespace Answer

/-- An answer that is only an error. -/
def failed (codeId error : String) : Answer := ⟨codeId, .nil, some error⟩

/-- The data of an answer. -/
def toData (a : Answer) : Except SerialError Data := do
  return { (← a.data.toData) with error := a.error }

def writeOption : Option String → Bytes
  | none => [0]
  | some s => 1 :: Wire.writeText s

/-- The bytes of an answer. -/
def write (a : Answer) : Except SerialError Bytes :=
  match a.data.writeWire with
  | .ok data => .ok (Wire.writeText a.codeId ++ data ++ writeOption a.error)
  | .error _ => .error (.encoding .answerNotWritten)

def reader : Wire.Reader Answer :=
  .andThen .text fun codeId =>
  .andThen Primitive.readWire fun data =>
  .andThen (.optional .text) fun error =>
  .done ⟨codeId, data, error⟩

/-- The answer that some bytes begin with. -/
def read (bytes : Bytes) : Except SerialError Answer :=
  match reader bytes with
  | .ok (a, _) => .ok a
  | .error e => .error (.encoding (.answerNotRead e))

def toJson (a : Answer) : Json :=
  .ofMembers [("codeId", .ofText a.codeId), ("data", a.data.toJson),
    ("error", (a.error.map Json.ofText).getD .null)]

def decoder : Json.Decoder Answer := fun room doc => do
  let fields ← Json.Decoder.record ["codeId", "data", "error"] room doc
  let codeId ← fields.required "codeId" .text
  let data ← fields.required "data" Primitive.decoder
  let error ← fields.orElse "error" (.nullable .text) none
  return ⟨codeId, data, error⟩

end Answer

/-- The answer that data gives, under no checksum. -/
def Data.toAnswer (d : Data) (codeId : String) : Except SerialError Answer := do
  return ⟨codeId, ← d.toPrimitive, d.error⟩

end AssetQuery
