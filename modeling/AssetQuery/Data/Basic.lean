import AssetQuery.Primitive.Basic
import AssetQuery.Value.Basic

/-!
# Data

A value with the type it is taken to have and, if it stands for a failure, an error. Data is
written as a primitive, each value by its type, and read back.
-/

namespace AssetQuery

/-- A value, its type and the error it stands for, if any. -/
structure Data where
  value : Value
  typ : Ty
  error : Option String
  deriving Inhabited, Repr

namespace Data

def of (value : Value) (typ : Ty) : Data := ⟨value, typ, none⟩

def nil : Data := of .nil .nil

def bool (b : Bool) : Data := of (.bool b) .bool

def int (n : Int64) : Data := of (.int n) .int

def string (s : String) : Data := of (.string s) .string

def resource (name id : String) : Data := of (.resource name id) (.resource name)

/-- Data that stands for a failure. -/
def failed (typ : Ty) (error : String) : Data := ⟨.nil, typ, some error⟩

end Data

namespace Value

/-- The type that the items of an array are written with. -/
def elemType? (items : List Value) : Ty → Option Ty
  | .array elem => some elem
  | .any => some (commonType (itemTypes items))
  | _ => none

/-- The types that the keys and the values of a map are written with. -/
def entryTypes? (entries : List (String × Value)) : Ty → Option (Ty × Ty)
  | .map key value => some (key, value)
  | .any => some (.string, commonType (entryTypes entries))
  | _ => none

mutual

/-- The primitive of a value by its declared type. Under `any` it is written with the type that the
value itself tells; an array keeps to one concrete type for all its items. -/
def toPrimitive : Value → Ty → Except SerialError Primitive
  | nil, _ => .ok .nil
  | bool b, .bool | bool b, .any => .ok (.bool b)
  | int n, .int | int n, .any => .ok (.int n)
  | int n, .score => .ok (.score n)
  | float x, .float | float x, .any => .ok (.float x)
  | string s, .string | string s, .any => .ok (.string s)
  | time t, .time | time t, .any => .ok (.time t)
  | ref r, .ref | ref r, .any => .ok (.ref r)
  | function r, .functionLike | function r, .any => .ok (.function r)
  | resource _ id, .resource name => .ok (.resource name id)
  | resource name id, .any => .ok (.resource name id)
  | array items, t =>
    match elemType? items t with
    | none => .error (.valueMismatch t)
    | some elem =>
      if elem = .any && !items.isEmpty then .error (.anyArray (.array elem))
      else do return .array elem (← itemPrimitives items elem 0)
  | map entries, t =>
    match entryTypes? entries t with
    | none => .error (.valueMismatch t)
    | some (key, value) => do return .map key value (← entryPrimitives entries value)
  | _, t => .error (.valueMismatch t)

/-- The primitives of items, counted from `index`. -/
def itemPrimitives : List Value → (elem : Ty) → (index : Nat) → Except SerialError (List Primitive)
  | [], _, _ => .ok []
  | v :: rest, elem, index =>
    match v.toPrimitive elem with
    | .error _ => .error (.elementMismatch index elem v.inferType)
    | .ok p => do return p :: (← itemPrimitives rest elem (index + 1))

def entryPrimitives :
    List (String × Value) → (value : Ty) → Except SerialError (List (String × Primitive))
  | [], _ => .ok []
  | (key, v) :: rest, value => do
    let p ← v.toPrimitive value
    return (key, p) :: (← entryPrimitives rest value)

end

end Value

namespace Primitive

mutual

/-- The value that is written. -/
def toValue : Primitive → Except SerialError Value
  | ⟨.array _, _, items, _⟩ => do return .array (← itemValues items)
  | ⟨.map _ _, _, _, entries⟩ => do return .map (← entryValues entries)
  | p@⟨typ, _, _, _⟩ =>
    match typ with
    | .nil => .ok .nil
    | .bool => do return .bool (← p.asBool)
    | .int | .score => do return .int (← p.asInt)
    | .float => do return .float (← p.asFloat)
    | .string => do return .string (← p.asText)
    | .time => do return .time (← p.asTime)
    | .ref => do return .ref (← p.asRef)
    | .functionLike => do return .function (← p.asRef)
    | .resource name => do return .resource name (← p.asText)
    | t => .error (.valueMismatch t)

def itemValues : List Primitive → Except SerialError (List Value)
  | [] => .ok []
  | p :: rest => do
    let v ← p.toValue
    return v :: (← itemValues rest)

def entryValues : List (String × Primitive) → Except SerialError (List (String × Value))
  | [] => .ok []
  | (key, p) :: rest => do
    let v ← p.toValue
    return (key, v) :: (← entryValues rest)

end

/-- The data that is written. -/
def toData (p : Primitive) : Except SerialError Data := do return .of (← p.toValue) p.typ

end Primitive

namespace Data

def toPrimitive (d : Data) : Except SerialError Primitive := d.value.toPrimitive d.typ

end Data

end AssetQuery
