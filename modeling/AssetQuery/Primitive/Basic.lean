import AssetQuery.Ty.Label
import AssetQuery.Value.Basic
import AssetQuery.Wire.Basic

/-!
# Primitives

The form that values are written in: a type and, as the type says, some bytes, the items of an
array or the entries of a map. What can be wrong with it when values are written or read.
-/

namespace AssetQuery

/-- What is wrong with the bytes of a primitive. -/
inductive PayloadFault where
  | tooShort (expected found : Nat)
  | missingNanoseconds
  | timeOutOfRange (seconds : Int) (nanos : Nat)
  | notUtf8 (fault : Utf8.Fault)
  deriving DecidableEq, Repr

def PayloadFault.message : PayloadFault → String
  | tooShort expected found => s!"expected {expected} bytes, found {found}"
  | missingNanoseconds => "missing nanoseconds"
  | timeOutOfRange seconds nanos => s!"timestamp {seconds}.{nanos} out of range"
  | notUtf8 fault => fault.message

/-- What is wrong with the frame around a code. -/
inductive ContainerFault where
  | headerTooShort
  | wrongMagic
  | truncated
  deriving DecidableEq, Repr

def ContainerFault.message : ContainerFault → String
  | headerTooShort => "data too short for header"
  | wrongMagic => "magic number mismatch"
  | truncated => "data truncated"

/-- What failed in writing or reading a whole answer or code. -/
inductive EncodingFault where
  | answerNotWritten
  | answerNotRead (e : Wire.Error)
  | codeNotWritten
  | codeTooLarge
  | codeNotRead (e : Wire.Error)
  | jsonNotRead
  deriving DecidableEq, Repr

def EncodingFault.message : EncodingFault → String
  | answerNotWritten => "Serde Serialization Error"
  | answerNotRead e => e.message
  | codeNotWritten => "code postcard serialization failed: Serde Serialization Error"
  | codeTooLarge => "code body too large"
  | codeNotRead e => s!"code deserialization failed: {e.message}"
  | jsonNotRead => "JSON parsing failed: <json>"

/-- The newest version of the format of codes. -/
def formatVersion : Nat := 1

inductive SerialError where
  | anyArray (t : Ty)
  | elementMismatch (index : Nat) (expected actual : Ty)
  | valueMismatch (t : Ty)
  | invalidPayload (t : Ty) (fault : PayloadFault)
  | invalidContainer (fault : ContainerFault)
  | unsupportedVersion (version : Nat)
  | encoding (fault : EncodingFault)
  deriving DecidableEq, Repr

def SerialError.message : SerialError → String
  | anyArray t =>
    s!"arrays of type '{t.label}' cannot be serialized; element types must be concrete"
  | elementMismatch index expected actual =>
    s!"array element {index} has type '{actual.label}', expected '{expected.label}'"
  | valueMismatch t => s!"value does not match declared type '{t.label}'"
  | invalidPayload t fault => s!"invalid payload for type '{t.label}': {fault.message}"
  | invalidContainer fault => s!"invalid code container: {fault.message}"
  | unsupportedVersion version =>
    s!"unsupported format version {version}; maximum supported is {formatVersion}"
  | encoding fault => s!"encoding failed: {fault.message}"

/-- A written value. The entries are in the order of their keys. -/
structure Primitive where
  typ : Ty
  bytes : Bytes
  items : List Primitive
  entries : List (String × Primitive)
  deriving Inhabited, Repr, BEq

namespace Primitive

def scalar (typ : Ty) (bytes : Bytes) : Primitive := ⟨typ, bytes, [], []⟩

/-- The bytes of a signed number of 64 bits. -/
def int64Bytes (n : Int64) : Bytes := littleEndian 8 n.toUInt64.toNat

/-- The bytes of a signed number of 32 bits. -/
def int32Bytes (n : Int32) : Bytes := littleEndian 4 n.toUInt32.toNat

def nil : Primitive := scalar .nil []

def bool (b : Bool) : Primitive := scalar .bool [if b then 1 else 0]

def int (n : Int64) : Primitive := scalar .int (int64Bytes n)

def score (n : Int64) : Primitive := scalar .score (int64Bytes n)

def float (x : Double) : Primitive := scalar .float (littleEndian 8 x.bits.toNat)

def string (s : String) : Primitive := scalar .string (Utf8.encode s)

/-- The seconds in eight bytes and the nanoseconds in four. -/
def time (t : Instant) : Primitive :=
  scalar .time (int64Bytes (Int64.ofInt t.seconds) ++ littleEndian 4 t.nanos)

/-- A reference to another chunk of the same code. -/
def ref (r : Ref) : Primitive := scalar .ref (int32Bytes r)

/-- A block of the same code. -/
def function (r : Ref) : Primitive := scalar .functionLike (int32Bytes r)

def resource (name id : String) : Primitive := scalar (.resource name) (Utf8.encode id)

def array (elem : Ty) (items : List Primitive) : Primitive := ⟨.array elem, [], items, []⟩

def map (key value : Ty) (entries : List (String × Primitive)) : Primitive :=
  ⟨.map key value, [], [], entries⟩

/-- The first `count` bytes. -/
def payload (p : Primitive) (count : Nat) : Except SerialError Bytes :=
  if count ≤ p.bytes.length then .ok (p.bytes.take count)
  else .error (.invalidPayload p.typ (.tooShort count p.bytes.length))

def asBool (p : Primitive) : Except SerialError Bool := do
  return (← p.payload 1) != [0]

/-- The number of an int or a score. -/
def asInt (p : Primitive) : Except SerialError Int64 := do
  return (UInt64.ofNat (ofLittleEndian (← p.payload 8))).toInt64

def asFloat (p : Primitive) : Except SerialError Double := do
  return ⟨UInt64.ofNat (ofLittleEndian (← p.payload 8))⟩

def asText (p : Primitive) : Except SerialError String :=
  match Utf8.decode p.bytes with
  | .ok s => .ok s
  | .error fault => .error (.invalidPayload p.typ (.notUtf8 fault))

def asTime (p : Primitive) : Except SerialError Instant := do
  let seconds := (← p.asInt).toInt
  if p.bytes.length < 12 then throw (.invalidPayload p.typ .missingNanoseconds)
  let nanos := ofLittleEndian ((p.bytes.drop 8).take 4)
  match Instant.of? seconds nanos with
  | some t => return t
  | none => throw (.invalidPayload p.typ (.timeOutOfRange seconds nanos))

/-- The number of a chunk or a block. -/
def asRef (p : Primitive) : Except SerialError Ref := do
  return (UInt32.ofNat (ofLittleEndian (← p.payload 4))).toInt32

end Primitive

end AssetQuery
