import AssetQuery.Entries
import AssetQuery.Ty.Label

/-!
# Built-in functions

What the built-in functions of each dispatch class accept and give, as far as compilation needs to
know it. There are functions that every query can use; others may be put beside them, with result
types and ways to compile of their own.
-/

namespace AssetQuery

/-- The declared types of a function's arguments, of which the first `required` have to be there. -/
structure Signature where
  required : Nat
  args : List Ty
  deriving DecidableEq, Repr, Inhabited

/-- The type that a function gives, by a rule that is in common use. -/
inductive ResultRule where
  /-- Always the same type. -/
  | fixed (t : Ty)
  /-- The type of the receiver. -/
  | receiver
  /-- The element type of the receiver. -/
  | child
  /-- An array of the keys of the receiver. -/
  | keys
  /-- An array of the values of the receiver. -/
  | values
  deriving DecidableEq, Repr

def ResultRule.apply (rule : ResultRule) (receiver : Ty) : Ty :=
  match rule with
  | .fixed t => t
  | .receiver => receiver
  | .child => receiver.child?.getD .any
  | .keys => .array (receiver.key?.getD .string)
  | .values => .array (receiver.child?.getD .any)

/-- The functions in common use that compile in a way of their own. -/
inductive SpecialForm where
  /-- Whether an array of strings contains a string. -/
  | arrayContains
  /-- Whether a string contains a string or one of several strings. -/
  | stringContains
  /-- The length of the list that a resource is. -/
  | listLength
  /-- The elements, of the list that a resource is, for which a block holds. -/
  | listWhere
  deriving DecidableEq, Repr

/-- Whether calls of a function become calls of the same name, which give the type of some rule, or
compile in a way of their own. -/
inductive HandlerKind (Rule : Type := ResultRule) (Form : Type := SpecialForm) where
  | simple (result : Rule)
  | special (form : Form)
  deriving DecidableEq, Repr

/-- How calls of a function compile. -/
structure Handler (Rule : Type := ResultRule) (Form : Type := SpecialForm) where
  signature : Signature
  kind : HandlerKind Rule Form
  deriving DecidableEq, Repr

/-- The functions of each dispatch class by name. The function without a name stands for all
others. -/
structure Builtins (Rule : Type := ResultRule) (Form : Type := SpecialForm) where
  classes : List (Ty × Dict (Handler Rule Form))
  deriving Inhabited

namespace Builtins

section

variable {Rule Form : Type}

def empty : Builtins Rule Form := ⟨[]⟩

/-- The functions of the class of a type. -/
def handlers (b : Builtins Rule Form) (t : Ty) : Dict (Handler Rule Form) :=
  (b.classes.lookup t.underlying).getD .empty

/-- The function that a name stands for on a receiver of some type. -/
def lookup? (b : Builtins Rule Form) (t : Ty) (name : String) : Option (Handler Rule Form) :=
  ((b.handlers t).find? name).or ((b.handlers t).find? "")

/-- The names of the functions of the class of a type. -/
def names (b : Builtins Rule Form) (t : Ty) : List String :=
  (b.handlers t).keys.filter (· ≠ "")

/-- Adds a function to the class of a type, or replaces it. -/
def add (b : Builtins Rule Form) (t : Ty) (name : String) (handler : Handler Rule Form) :
    Builtins Rule Form :=
  let table := (b.handlers t).insert name handler
  ⟨(t.underlying, table) :: b.classes.filter fun c => c.1 ≠ t.underlying⟩

/-- Adds simple functions that share a signature and a result. -/
def addSimple (b : Builtins Rule Form) (t : Ty) (args : List Ty) (result : Rule)
    (names : List String) : Builtins Rule Form :=
  names.foldl (fun b name => b.add t name ⟨⟨args.length, args⟩, .simple result⟩) b

def addSpecial (b : Builtins Rule Form) (t : Ty) (name : String) (args : List Ty) (form : Form) :
    Builtins Rule Form :=
  b.add t name ⟨⟨args.length, args⟩, .special form⟩

end

/-- The functions that every query can use. -/
def standard : Builtins :=
  let b := (empty : Builtins)
    |>.addSimple .arrayLike [.int] .child ["[]"]
    |>.addSimple .arrayLike [.functionLike] (.fixed (.array (.map .string .any))) ["\x7b\x7d"]
    |>.addSimple .arrayLike [] (.fixed .int) ["length"]
    |>.addSimple .arrayLike [.functionLike] .receiver ["where"]
    |>.addSpecial .arrayLike "contains" [.any] .arrayContains
    |>.addSimple .mapLike [.string] .child ["[]"]
    |>.addSimple .mapLike [] (.fixed .int) ["length"]
    |>.addSimple .mapLike [] .keys ["keys"]
    |>.addSimple .mapLike [] .values ["values"]
    |>.addSpecial .resourceLike "where" [.functionLike] .listWhere
    |>.addSpecial .resourceLike "length" [] .listLength
    |>.addSpecial .string "contains" [.any] .stringContains
    |>.addSimple .string [] .receiver ["downcase", "upcase"]
    |>.addSimple .string [] (.fixed .int) ["length"]
    |>.addSimple .string [.string] (.fixed .bool) ["==", "!="]
  let ordered (b : Builtins) (t : Ty) : Builtins :=
    b.addSimple t [t] (.fixed .bool) ["==", "!=", "<", "<=", ">", ">="]
  [Ty.int, .float, .score].foldl ordered b
    |>.addSimple .bool [.bool] (.fixed .bool) ["==", "!=", "&&", "||"]
    |>.addSimple .time [.time] (.fixed .bool) ["==", "!=", "<", ">"]

end Builtins

/-- The functions of resources that only lists have. -/
def listFunctions : List String := ["length", "where"]

end AssetQuery
