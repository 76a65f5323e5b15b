import AssetQuery.Builtin.Apply
import AssetQuery.Builtin.Basic
import AssetQuery.Expr.Label

/-!
# What expressions mean

What an expression about an element evaluates to, by recursion on the expression alone. A constant
is its value, and a call applies a function to the values of its receiver and its arguments. A list
is filtered by the values of a block, or mapped to them. There are no resources.
-/

namespace AssetQuery

namespace Literal

mutual

/-- The value of a constant. -/
def toValue : Literal → Value
  | nil => .nil
  | bool b => .bool b
  | int n => .int n
  | float x => .float x
  | string s => .string s
  | array items => .array (itemValues items)
  | map entries => .map (entryValues entries)

def itemValues : List Literal → List Value
  | [] => []
  | l :: rest => l.toValue :: itemValues rest

def entryValues : List (String × Literal) → List (String × Value)
  | [] => []
  | (key, l) :: rest => (key, l.toValue) :: entryValues rest

end

/-- The value of a constant, with its own type. -/
def toData (l : Literal) : Data := .of l.toValue l.toValue.inferType

end Literal

/-- Whether all values in a row are true, none of which may be a failure. -/
def Row.holds (row : Row) : Except EvalError Bool :=
  match row.fault? with
  | some fault => .error (.invalidArgument "where" fault)
  | none => .ok row.truthy

namespace Builtin

/-- The function that runs when `name` is called on a receiver with arguments of some types, and the
type of what it gives. -/
def resolve? (receiver : Ty) (name : String) (args : List Ty) : Option (String × Ty) :=
  match Builtins.standard.lookup? receiver name with
  | some ⟨_, .simple result⟩ => some (name, result.apply receiver)
  | some ⟨_, .special .arrayContains⟩ => some ("containsString", .bool)
  | some ⟨_, .special .stringContains⟩ =>
    if args.head? = some (.array .string) then some ("containsArrayString", .bool)
    else some ("containsString", .bool)
  | _ => none

/-- Whether a function runs a block on the items of its receiver. -/
def RunsBlock (receiver : Ty) (name : String) : Prop :=
  receiver.underlying = .arrayLike ∧ (name = "where" ∨ name = projection)

instance (receiver : Ty) (name : String) : Decidable (RunsBlock receiver name) :=
  inferInstanceAs (Decidable (_ ∧ _))

/-- The items for which all values in their rows are true. -/
def filtered (row : Value → Except EvalError Row) (items : List Value) :
    Except EvalError (List Value) := do
  let verdicts ← items.mapM fun item => do (← row item).holds
  return ((items.zip verdicts).filter (·.2)).map (·.1)

/-- A map of the values in the row of each item. -/
def projected (row : Value → Except EvalError Row) (items : List Value) :
    Except EvalError (List Value) := do
  let rows ← items.mapM row
  return rows.map Row.toValue

/-- What a function that runs a block makes of a list, where `row` has the values of the block for
an item. -/
def clause (row : Data → Except EvalError Row) (name : String) (receiver : Data) :
    Except EvalError Data := do
  let items ← items name receiver
  let row (item : Value) := row (element receiver.typ item)
  if name = "where" then return .of (.array (← filtered row items)) receiver.typ
  else return .of (.array (← projected row items)) (.array (.map .string .any))

/-- What calling `name` gives, where `row` has the values of the block among the arguments for an
item. -/
def dispatch (row : Data → Except EvalError Row) (name : String) (receiver : Data)
    (args : List Data) : Except EvalError Data :=
  match resolve? receiver.typ name (args.map (·.typ)) with
  | none => .error (.unknownFunction name receiver.typ)
  | some (function, t) =>
    if RunsBlock receiver.typ function ∧ receiver.value.isNil = false then do
      let _ ← blockArg function args
      clause row function receiver
    else
      let block (_ : Ref) (_ : Data) : ExceptT EvalError Id Row := throw (.missingProperty "_")
      (apply block function t receiver args).run

end Builtin

namespace Expr

mutual

/-- The value of an expression about an item, if it is about one. -/
def evaluate : Expr → (item : Option Data) → Except EvalError Data
  | .literal l, _ => .ok l.toData
  | .element, some item => .ok item
  | .element, none => .error (.missingProperty "_")
  | .root name _, _ => .error (.resource (.unknownResource name))
  | .block _, _ => .ok (.of (.function 1) .functionLike)
  | .call receiver name args, item => do
    let receiver ← receiver.evaluate item
    let values ← evaluateArgs args item
    Builtin.dispatch (evaluateBlock args) name receiver values

def evaluateArgs : List (Arg Expr) → (item : Option Data) → Except EvalError (List Data)
  | [], _ => .ok []
  | ⟨_, value⟩ :: rest, item => do
    let data ← value.evaluate item
    return data :: (← evaluateArgs rest item)

/-- The row for an item of the first block among some arguments. -/
def evaluateBlock : List (Arg Expr) → (item : Data) → Except EvalError Row
  | [], _ => .ok []
  | ⟨_, .block body⟩ :: _, item => evaluateBody body item
  | _ :: rest, item => evaluateBlock rest item

/-- The values of expressions about an item, each with its label. -/
def evaluateBody : List Expr → (item : Data) → Except EvalError Row
  | [], _ => .ok []
  | e :: rest, item => do
    let data ← e.evaluate (some item)
    return (e.label, data) :: (← evaluateBody rest item)

end

mutual

/-- Whether no function is called at the root, so that no resource is asked for. -/
def rootless : Expr → Bool
  | .literal _ | .element => true
  | .root _ _ => false
  | .block body => rootlessBody body
  | .call receiver _ args => receiver.rootless && rootlessArgs args

def rootlessArgs : List (Arg Expr) → Bool
  | [] => true
  | ⟨_, value⟩ :: rest => value.rootless && rootlessArgs rest

def rootlessBody : List Expr → Bool
  | [] => true
  | e :: rest => e.rootless && rootlessBody rest

end

mutual

/-- The number of expressions that an expression is made of. -/
def size : Expr → Nat
  | .literal _ | .element => 1
  | .root _ args => argsSize args + 1
  | .block body => bodySize body + 1
  | .call receiver _ args => receiver.size + argsSize args + 1

def argsSize : List (Arg Expr) → Nat
  | [] => 0
  | ⟨_, value⟩ :: rest => value.size + argsSize rest

def bodySize : List Expr → Nat
  | [] => 0
  | e :: rest => e.size + bodySize rest

end

theorem size_le_argsSize {arg : Arg Expr} {args : List (Arg Expr)} (h : arg ∈ args) :
    arg.value.size ≤ argsSize args := by
  induction args with
  | nil => cases h
  | cons first rest ih =>
    rw [argsSize]
    rcases List.mem_cons.mp h with rfl | h
    · omega
    · have := ih h
      omega

theorem size_le_bodySize {e : Expr} {body : List Expr} (h : e ∈ body) :
    e.size ≤ bodySize body := by
  induction body with
  | nil => cases h
  | cons first rest ih =>
    rw [bodySize]
    rcases List.mem_cons.mp h with rfl | h
    · omega
    · have := ih h
      omega

theorem rootlessArgs_iff {args : List (Arg Expr)} :
    rootlessArgs args ↔ ∀ arg ∈ args, arg.value.rootless := by
  induction args with
  | nil => simp [rootlessArgs]
  | cons first rest ih => simp [rootlessArgs, ih]

theorem rootlessBody_iff {body : List Expr} :
    rootlessBody body ↔ ∀ e ∈ body, e.rootless := by
  induction body with
  | nil => simp [rootlessBody]
  | cons first rest ih => simp [rootlessBody, ih]

end Expr

end AssetQuery
