import AssetQuery.Ty.Basic

/-!
# The order of types

Types are ordered by their kind, and types of one kind by what they are made of.
-/

namespace AssetQuery.Ty

/-- The place of a type's kind in the order. -/
def rank : Ty → Nat
  | nil => 0 | bool => 1 | int => 2 | float => 3 | string => 4 | time => 5 | score => 6
  | array _ => 7 | map _ _ => 8 | resource _ => 9
  | functionLike => 10 | any => 11 | ref => 12
  | arrayLike => 13 | mapLike => 14 | resourceLike => 15

protected def compare : Ty → Ty → Ordering
  | array a, array b => a.compare b
  | map k v, map k' v' => (k.compare k').then (v.compare v')
  | resource n, resource m => Ord.compare n m
  | a, b => Ord.compare a.rank b.rank

instance : Ord Ty := ⟨Ty.compare⟩

/-- The types in order; equal ones are all kept. -/
def sort (types : List Ty) : List Ty := types.mergeSort fun a b => (compare a b).isLE

end AssetQuery.Ty
