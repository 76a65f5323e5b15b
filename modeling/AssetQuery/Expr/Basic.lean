import AssetQuery.Number.Double
import AssetQuery.Text.Basic

/-!
# Queries

The expressions that queries are made of. A call is made on a receiver or, at the root, on no
receiver; a block is a list of expressions about the element that it is given.
-/

namespace AssetQuery

/-- A constant in a query. The entries of a map are in the order of their keys. -/
inductive Literal where
  | nil
  | bool (b : Bool)
  | int (n : Int64)
  | float (x : Double)
  | string (s : String)
  | array (items : List Literal)
  | map (entries : List (String × Literal))
  deriving Inhabited, Repr

/-- An argument, which may be named. -/
structure Arg (α : Type) where
  name : Option String
  value : α
  deriving Repr

/-- An expression of the query language. -/
inductive Expr where
  | literal (l : Literal)
  | root (name : String) (args : List (Arg Expr))
  | call (receiver : Expr) (name : String) (args : List (Arg Expr))
  | block (body : List Expr)
  | element
  deriving Inhabited, Repr

namespace Expr

/-- Calls on `e`, one after the other, of the functions with the given names. -/
def fields (e : Expr) (names : List String) : Expr :=
  names.foldl (fun e name => .call e name []) e

/-- The expression that a dotted path stands for. -/
def path (dotted : String) : Expr :=
  match Dotted.parts dotted with
  | [] => .root "" []
  | name :: names => (Expr.root name []).fields names

/-- `e` called by one function a number of times. -/
def repeated (e : Expr) (name : String) (args : List (Arg Expr)) : (times : Nat) → Expr
  | 0 => e
  | times + 1 => (Expr.call e name args).repeated name args times

end Expr

end AssetQuery
