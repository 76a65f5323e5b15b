import AssetQuery.Code.Basic
import AssetQuery.Primitive.Wire

/-!
# Codes on the wire

A code is written as its parts in order. Stored codes stand in a frame: four letters that mark them,
the version of the format and the number of bytes that follow.
-/

namespace AssetQuery

namespace FunctionCall

def writeWire (f : FunctionCall) : Except TyError Bytes := do
  let typ ← f.typ.writeWire
  let args ← Primitive.writeItems f.args
  return typ ++ Wire.writeInt32 f.binding ++ (Wire.varint f.args.length ++ args)

def readWire : Wire.Reader FunctionCall :=
  .andThen Ty.readWire fun typ =>
  .andThen .int32 fun binding =>
  .andThen (.list Primitive.readWire) fun args =>
  .done ⟨typ, binding, args⟩

end FunctionCall

namespace Chunk

def kindNumber : ChunkKind → Nat
  | .primitive => 0
  | .function => 1
  | .property => 2

def readKind : Wire.Reader ChunkKind := .andThen .number32 fun n =>
  if n = 0 then .done .primitive
  else if n = 1 then .done .function
  else if n = 2 then .done .property
  else .fail .rejected

/-- The bytes of a value that may be missing. -/
def writeOptional {α : Type} (write : α → Except TyError Bytes) : Option α → Except TyError Bytes
  | none => .ok [0]
  | some a => do return 1 :: (← write a)

def writeWire (c : Chunk) : Except TyError Bytes := do
  let function ← writeOptional FunctionCall.writeWire c.function
  let primitive ← writeOptional Primitive.writeWire c.primitive
  return Wire.varint (kindNumber c.kind) ++ Wire.writeText c.id ++ function ++ primitive

def readWire : Wire.Reader Chunk :=
  .andThen readKind fun kind =>
  .andThen .text fun id =>
  .andThen (.optional FunctionCall.readWire) fun function =>
  .andThen (.optional Primitive.readWire) fun primitive =>
  .done ⟨kind, id, function, primitive⟩

def writeAll : List Chunk → Except TyError Bytes
  | [] => .ok []
  | c :: rest => do
    let c ← c.writeWire
    let rest ← writeAll rest
    return c ++ rest

end Chunk

namespace Code

def writeRefs (refs : List Ref) : Bytes := Wire.varint refs.length ++ refs.flatMap Wire.writeInt32

def writeTable (table : List (Ref × String)) : Bytes :=
  Wire.varint table.length ++ table.flatMap fun e => Wire.writeInt32 e.1 ++ Wire.writeText e.2

def readTable : Wire.Reader (List (Ref × String)) :=
  .andThen (.list (.pair .int32 .text)) fun entries => .done (Table.ofList entries)

mutual

/-- The bytes of a code. It fails on a type that has no encoding. -/
def writeWire : Code → Except TyError Bytes
  | ⟨id, chunks, entrypoints, labels, functions, parameters, checksums⟩ => do
    let chunks' ← Chunk.writeAll chunks
    let functions' ← writeFunctions functions
    return Wire.writeText id ++ (Wire.varint chunks.length ++ chunks') ++ writeRefs entrypoints ++
      writeTable labels ++ (Wire.varint functions.length ++ functions') ++
      Wire.writeInt32 parameters ++ writeTable checksums

def writeFunctions : List Code → Except TyError Bytes
  | [] => .ok []
  | code :: rest => do
    let code ← code.writeWire
    let rest ← writeFunctions rest
    return code ++ rest

end

/-- Reads a code with at most `levels` levels of blocks. -/
def readLevels : (levels : Nat) → Wire.Reader Code
  | 0 => .fail .endOfBuffer
  | levels + 1 =>
    .andThen .text fun id =>
    .andThen (.list Chunk.readWire) fun chunks =>
    .andThen (.list .int32) fun entrypoints =>
    .andThen readTable fun labels =>
    .andThen (.list (readLevels levels)) fun functions =>
    .andThen .int32 fun parameters =>
    .andThen readTable fun checksums =>
    .done ⟨id, chunks, entrypoints, labels, functions, parameters, checksums⟩

/-- Reads a code. It has fewer levels than the input has bytes. -/
def readWire : Wire.Reader Code := fun input => readLevels (input.length + 1) input

/-- The letters that mark a stored code. -/
def magic : Bytes := Utf8.encode "AQLC"

/-- The stored form of a code. -/
def write (code : Code) : Except SerialError Bytes :=
  match code.writeWire with
  | .error _ => .error (.encoding .codeNotWritten)
  | .ok body =>
    if body.length < UInt32.size then
      .ok (magic ++ littleEndian 4 formatVersion ++ littleEndian 4 body.length ++ body)
    else .error (.encoding .codeTooLarge)

/-- Whether codes of a version can be read. -/
def knowsVersion (version : Nat) : Bool := version ≠ 0 && version ≤ formatVersion

/-- The code that is stored in some bytes. What follows it is passed over. -/
def read (bytes : Bytes) : Except SerialError Code :=
  if bytes.length < 12 then .error (.invalidContainer .headerTooShort)
  else if bytes.take 4 ≠ magic then .error (.invalidContainer .wrongMagic)
  else
    let version := ofLittleEndian ((bytes.drop 4).take 4)
    let length := ofLittleEndian ((bytes.drop 8).take 4)
    let body := bytes.drop 12
    if !knowsVersion version then .error (.unsupportedVersion version)
    else if body.length < length then .error (.invalidContainer .truncated)
    else
      match readWire (body.take length) with
      | .ok (code, _) => .ok code
      | .error e => .error (.encoding (.codeNotRead e))

end Code

end AssetQuery
