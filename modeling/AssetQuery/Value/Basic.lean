import AssetQuery.Number.Double
import AssetQuery.Time
import AssetQuery.Ty.Basic

/-!
# Values

What queries work with. A resource is known by its name and id; references and functions are the
numbers of chunks and blocks.

Two ints, floats, strings or times are ordered. Other values, and values of two kinds, are at most
the same. A float that is no number is not even the same as itself.
-/

namespace AssetQuery

/-- The number of a chunk, or of a block, in a code. They count from 1. -/
abbrev Ref := Int32

/-- A value. The entries of a map are in the order of their keys. -/
inductive Value where
  | nil
  | bool (b : Bool)
  | int (n : Int64)
  | float (x : Double)
  | string (s : String)
  | time (t : Instant)
  | array (items : List Value)
  | map (entries : List (String × Value))
  | resource (name id : String)
  | ref (r : Ref)
  | function (r : Ref)
  deriving Inhabited, Repr

namespace Value

def isNil : Value → Bool
  | nil => true
  | _ => false

/-- Whether a filter keeps the value. -/
def truthy : Value → Bool
  | nil => false
  | bool b => b
  | int n => n != 0
  | float x => !x.isZero
  | string s => !s.isEmpty
  | array items => !items.isEmpty
  | map entries => !entries.isEmpty
  | _ => true

/-- The type that all items of a collection have, `any` if there is none. -/
def commonType : List Ty → Ty
  | [] => .any
  | t :: rest => if rest.all (· == t) then t else .any

mutual

/-- The type of a value, as far as the value tells. -/
def inferType : Value → Ty
  | nil => .nil
  | bool _ => .bool
  | int _ => .int
  | float _ => .float
  | string _ => .string
  | time _ => .time
  | array items => .array (commonType (itemTypes items))
  | map entries => .map .string (commonType (entryTypes entries))
  | resource name _ => .resource name
  | ref _ => .ref
  | function _ => .functionLike

def itemTypes : List Value → List Ty
  | [] => []
  | v :: rest => v.inferType :: itemTypes rest

def entryTypes : List (String × Value) → List Ty
  | [] => []
  | (_, v) :: rest => v.inferType :: entryTypes rest

end

mutual

/-- Whether two values are the same. Resources are when their names and ids are. -/
def same : Value → Value → Bool
  | nil, nil => true
  | bool a, bool b => a == b
  | int a, int b => a == b
  | float a, float b => a.compare? b == some .eq
  | string a, string b => a == b
  | time a, time b => a == b
  | array a, array b => sameItems a b
  | map a, map b => sameEntries a b
  | resource name id, resource name' id' => name == name' && id == id'
  | ref a, ref b => a == b
  | function a, function b => a == b
  | _, _ => false

def sameItems : List Value → List Value → Bool
  | [], [] => true
  | a :: as, b :: bs => a.same b && sameItems as bs
  | _, _ => false

def sameEntries : List (String × Value) → List (String × Value) → Bool
  | [], [] => true
  | (k, a) :: as, (l, b) :: bs => k == l && a.same b && sameEntries as bs
  | _, _ => false

end

/-- How two values compare, if they do. -/
def compare? : Value → Value → Option Ordering
  | int a, int b => some (compare a b)
  | float a, float b => a.compare? b
  | string a, string b => some (compare a b)
  | time a, time b => some (Instant.compare a b)
  | a, b => if a.same b then some .eq else none

end Value

/-- The operators that compare two values. -/
inductive Comparison where
  | eq | ne | lt | le | gt | ge
  deriving DecidableEq, Repr

namespace Comparison

def ofName? : String → Option Comparison
  | "==" => some eq
  | "!=" => some ne
  | "<" => some lt
  | "<=" => some le
  | ">" => some gt
  | ">=" => some ge
  | _ => none

/-- Whether an operator holds of two values that compare in some way, or not at all. -/
def holds : Comparison → Option Ordering → Bool
  | eq, o => o == some .eq
  | ne, o => o != some .eq
  | lt, o => o == some .lt
  | le, o => o == some .lt || o == some .eq
  | gt, o => o == some .gt
  | ge, o => o == some .gt || o == some .eq

end Comparison

end AssetQuery
