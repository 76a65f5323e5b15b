import AssetQuery.Expr.Basic
import AssetQuery.Number.Text
import AssetQuery.Text.Quoted

/-!
# Labels of expressions

The dotted form of an expression, which names its answer.
-/

namespace AssetQuery

def Literal.label : Literal → String
  | nil => "null"
  | bool b => if b then "true" else "false"
  | int n => toString n.toInt
  | float x => NumberLayout.plain.write x
  | string s => quoted s
  | array _ => "[]"
  | map _ => "\x7b\x7d"

def Expr.label : Expr → String
  | literal l => l.label
  | root name _ => name
  | call receiver name _ => receiver.label ++ "." ++ name
  | block _ => "\x7b\x7d"
  | element => "_"

end AssetQuery
