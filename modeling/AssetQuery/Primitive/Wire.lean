import AssetQuery.Entries
import AssetQuery.Primitive.Basic
import AssetQuery.Ty.Encoding
import AssetQuery.Wire.Basic

/-!
# Types and primitives on the wire

A type is written as the bytes of its compact encoding, a primitive as its type, bytes, items and
entries.
-/

namespace AssetQuery

namespace Ty

def writeWire (t : Ty) : Except TyError Bytes := do return Wire.writeBytes (← t.encode)

def readWire : Wire.Reader Ty := Wire.Reader.andThen Wire.Reader.bytes fun b =>
  match Ty.decode b with
  | .ok t => Wire.Reader.done t
  | .error _ => Wire.Reader.fail .rejected

end Ty

namespace Primitive

mutual

/-- The bytes of a primitive. It fails on a type that has no encoding. -/
def writeWire : Primitive → Except TyError Bytes
  | ⟨typ, bytes, items, entries⟩ => do
    let typ ← typ.writeWire
    let items' ← writeItems items
    let entries' ← writeEntries entries
    return typ ++ Wire.writeBytes bytes ++ (Wire.varint items.length ++ items') ++
      (Wire.varint entries.length ++ entries')

def writeItems : List Primitive → Except TyError Bytes
  | [] => .ok []
  | p :: rest => do
    let p ← p.writeWire
    let rest ← writeItems rest
    return p ++ rest

def writeEntries : List (String × Primitive) → Except TyError Bytes
  | [] => .ok []
  | (key, p) :: rest => do
    let p ← p.writeWire
    let rest ← writeEntries rest
    return Wire.writeText key ++ p ++ rest

end

/-- Reads a primitive of at most `levels` levels. -/
def readLevels : (levels : Nat) → Wire.Reader Primitive
  | 0 => .fail .endOfBuffer
  | levels + 1 =>
    .andThen Ty.readWire fun typ =>
    .andThen .bytes fun bytes =>
    .andThen (.list (readLevels levels)) fun items =>
    .andThen (.list (.pair .text (readLevels levels))) fun entries =>
    .done ⟨typ, bytes, items, Entries.ofList entries⟩

/-- Reads a primitive. It has fewer levels than the input has bytes. -/
def readWire : Wire.Reader Primitive := fun input => readLevels (input.length + 1) input

end Primitive

end AssetQuery
