import AssetQuery.Text.Utf8

/-!
# Types of the query language

Scalars, arrays, maps and named resources, the three dispatch classes that composite types fall
into, and `any`. A reference to another chunk has a type of its own.
-/

namespace AssetQuery

/-- A type of the query language. `arrayLike`, `mapLike` and `resourceLike` stand for every array,
every map and every resource. -/
inductive Ty where
  | nil | bool | int | float | string | time | score
  | array (elem : Ty)
  | map (key value : Ty)
  | resource (name : String)
  | functionLike | any | ref
  | arrayLike | mapLike | resourceLike
  deriving DecidableEq, Repr, Inhabited

namespace Ty

/-- The dispatch class: the type that built-in functions are looked up under. -/
def underlying : Ty → Ty
  | array _ => arrayLike
  | map _ _ => mapLike
  | resource _ => resourceLike
  | t => t

/-- The element type of an array, the value type of a map. -/
def child? : Ty → Option Ty
  | array elem => some elem
  | map _ value => some value
  | _ => none

def key? : Ty → Option Ty
  | map key _ => some key
  | _ => none

def isArray : Ty → Bool
  | array _ | arrayLike => true
  | _ => false

def isMap : Ty → Bool
  | map _ _ | mapLike => true
  | _ => false

def isResource : Ty → Bool
  | resource _ | resourceLike => true
  | _ => false

def resourceName? : Ty → Option String
  | resource name => some name
  | _ => none

/-- Whether `any` occurs in the type. -/
def containsAny : Ty → Bool
  | any => true
  | array elem => elem.containsAny
  | map key value => key.containsAny || value.containsAny
  | _ => false

/-- Whether a value of type `actual` may stand where `expected` is declared. -/
def compatible : (actual expected : Ty) → Bool
  | _, any => true
  | actual, arrayLike => actual.isArray
  | actual, mapLike => actual.isMap
  | actual, resourceLike => actual.isResource
  | array actual, array expected => actual.compatible expected
  | map actualKey actualValue, map expectedKey expectedValue =>
    actualKey.compatible expectedKey && actualValue.compatible expectedValue
  | actual, expected => actual == expected

/-- How many levels of nesting the type has. -/
def depth : Ty → Nat
  | array elem => elem.depth + 1
  | map key value => max key.depth value.depth + 1
  | _ => 1

end Ty

/-- Why a label or an encoding is not that of a type. -/
inductive TyFault where
  | unexpectedEnd
  | missingNameLength
  | truncatedName
  | nameNotUtf8 (fault : Utf8.Fault)
  | unknownTag (tag : UInt8)
  | trailing (count : Nat)
  | emptyLabel
  | unterminatedKey (label : String)
  deriving DecidableEq, Repr

inductive TyError where
  | notComposite (t : Ty)
  | notMap (t : Ty)
  | invalid (fault : TyFault)
  | nameTooLong (length : Nat)
  deriving DecidableEq, Repr

/-- The most bytes that the name of a resource may have. -/
def maxNameLength : Nat := 65535

/-- The two hexadecimal digits of a byte. -/
def hexByte (b : UInt8) : String :=
  String.ofList [Nat.digitChar (b.toNat / 16), Nat.digitChar (b.toNat % 16)]

def TyFault.message : TyFault → String
  | unexpectedEnd => "unexpected end of type"
  | missingNameLength => "missing resource name length"
  | truncatedName => "truncated resource name"
  | nameNotUtf8 fault => fault.message
  | unknownTag tag => s!"unknown type tag 0x{hexByte tag}"
  | trailing count => s!"{count} trailing bytes after type"
  | emptyLabel => "empty type label"
  | unterminatedKey label => s!"unterminated map key in '{label}'"

end AssetQuery
