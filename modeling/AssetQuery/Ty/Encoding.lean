import AssetQuery.Ty.Basic

/-!
# The compact encoding of types

One tag byte for each level of a type. The name of a resource follows its tag, after its length in
two bytes, the low one first.
-/

namespace AssetQuery.Ty

/-- A tag tells a whole type or what has to follow. -/
inductive Tag where
  | whole (t : Ty)
  | array
  | map
  | resource

def Tag.ofByte? (b : UInt8) : Option Tag :=
  match b with
  | 0x01 => some (.whole nil)
  | 0x02 => some (.whole bool)
  | 0x03 => some (.whole ref)
  | 0x04 => some (.whole int)
  | 0x05 => some (.whole float)
  | 0x06 => some (.whole string)
  | 0x07 => some (.whole time)
  | 0x08 => some (.whole score)
  | 0x0a => some (.whole any)
  | 0x0b => some (.whole functionLike)
  | 0x19 => some .array
  | 0x1a => some .map
  | 0x1b => some .resource
  | 0x29 => some (.whole arrayLike)
  | 0x2a => some (.whole mapLike)
  | 0x2b => some (.whole resourceLike)
  | _ => none

/-- The tag byte of a type. -/
def tag : Ty → UInt8
  | nil => 0x01 | bool => 0x02 | ref => 0x03 | int => 0x04 | float => 0x05 | string => 0x06
  | time => 0x07 | score => 0x08 | any => 0x0a | functionLike => 0x0b
  | array _ => 0x19 | map _ _ => 0x1a | resource _ => 0x1b
  | arrayLike => 0x29 | mapLike => 0x2a | resourceLike => 0x2b

/-- The encoding of a type. It fails on a resource name that is too long. -/
def encode : Ty → Except TyError Bytes
  | array elem => do return 0x19 :: (← elem.encode)
  | map key value => do
    let keyBytes ← key.encode
    let valueBytes ← value.encode
    return 0x1a :: (keyBytes ++ valueBytes)
  | resource name =>
    let bytes := Utf8.encode name
    if bytes.length ≤ maxNameLength then
      .ok (0x1b :: UInt8.ofNat (bytes.length % 256) :: UInt8.ofNat (bytes.length / 256) :: bytes)
    else .error (.nameTooLong bytes.length)
  | t => .ok [t.tag]

/-- The name that follows a resource tag, and what is left after it. -/
def decodeName (bytes : Bytes) : Except TyFault (String × Bytes) :=
  match bytes with
  | low :: high :: rest =>
    let length := low.toNat + 256 * high.toNat
    if length ≤ rest.length then
      match Utf8.decode (rest.take length) with
      | .ok name => .ok (name, rest.drop length)
      | .error fault => .error (.nameNotUtf8 fault)
    else .error .truncatedName
  | _ => .error .missingNameLength

/-- Reads a type of at most `levels` levels from the front of some bytes. -/
def decodeLevels : (levels : Nat) → Bytes → Except TyFault (Ty × Bytes)
  | 0, _ | _, [] => .error .unexpectedEnd
  | levels + 1, b :: rest =>
    match Tag.ofByte? b with
    | none => .error (.unknownTag b)
    | some (.whole t) => .ok (t, rest)
    | some .array => do
      let (elem, rest) ← decodeLevels levels rest
      return (array elem, rest)
    | some .map => do
      let (key, rest) ← decodeLevels levels rest
      let (value, rest) ← decodeLevels levels rest
      return (map key value, rest)
    | some .resource => do
      let (name, rest) ← decodeName rest
      return (resource name, rest)

/-- Reads a type from the front of some bytes; what is left is returned too. A type has no more
levels than its encoding has bytes. -/
def decodeFront (bytes : Bytes) : Except TyFault (Ty × Bytes) := decodeLevels bytes.length bytes

/-- The type that the bytes are the encoding of. -/
def decode (bytes : Bytes) : Except TyError Ty :=
  match decodeFront bytes with
  | .ok (t, []) => .ok t
  | .ok (_, rest) => .error (.invalid (.trailing rest.length))
  | .error fault => .error (.invalid fault)

end AssetQuery.Ty
