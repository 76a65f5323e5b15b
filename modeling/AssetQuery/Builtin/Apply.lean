import AssetQuery.Data.Basic
import AssetQuery.Entries
import AssetQuery.Eval.Error
import AssetQuery.Text.Case
import AssetQuery.Value.Basic

/-!
# Built-in functions at work

What the functions that chunks name do to an evaluated receiver and its arguments. A missing
receiver goes through all but the comparisons. Two functions go through a list with a block; how the
block is run on an element is a parameter of theirs, and so is the monad that it runs in.

What a block gives for an element is a row: the values of its entry points, each with its label. As
a value a row is a map. Its keys are the labels; a label that is taken is marked until it is free,
so that no entry is lost.
-/

namespace AssetQuery

/-- The values that a block has for an element, each with its label. -/
abbrev Row := List (String × Data)

namespace Row

/-- The first of a key and the keys that follow it with more and more marks which is not taken,
within as many tries as there are keys taken. -/
def freeKey (taken : List String) : (tries : Nat) → String → String
  | 0, key => key
  | tries + 1, key => if taken.contains key then freeKey taken tries (key.push '#') else key

/-- The key of a column: its label, marked with its position if that is taken. -/
def columnKey (taken : List String) (label : String) (position : Nat) : String :=
  if taken.contains label then freeKey taken taken.length s!"{label}#{position}" else label

/-- The keys of columns with some labels, from the one at `position` on. -/
def columnKeysFrom (taken : List String) (position : Nat) : List String → List String
  | [] => []
  | label :: rest =>
    let key := columnKey taken label position
    key :: columnKeysFrom (taken ++ [key]) (position + 1) rest

/-- The keys of columns with some labels. -/
def columnKeys (labels : List String) : List String := columnKeysFrom [] 0 labels

/-- The row as a value. -/
def toValue (row : Row) : Value :=
  .map (Entries.ofList ((columnKeys (row.map (·.1))).zip (row.map fun e => e.2.value)))

/-- The first error in a row. -/
def fault? (row : Row) : Option ArgumentFault :=
  row.findSome? fun e => e.2.error.map (.failedEntry e.1)

def truthy (row : Row) : Bool := row.all fun e => e.2.value.truthy

end Row

namespace Builtin

/-- An error about the arguments of a function. -/
def refuse {α : Type} (function : String) (fault : ArgumentFault) : Except EvalError α :=
  .error (.invalidArgument function fault)

def intArg (function : String) (args : List Data) : Except EvalError Int64 :=
  match args with
  | ⟨.int n, _, _⟩ :: _ => .ok n
  | _ => refuse function .notInt

def textArg (function : String) (args : List Data) : Except EvalError String :=
  match args with
  | ⟨.string s, _, _⟩ :: _ => .ok s
  | _ => refuse function .notString

def blockArg (function : String) (args : List Data) : Except EvalError Ref :=
  match args with
  | ⟨.function r, _, _⟩ :: _ => .ok r
  | _ => refuse function .notBlock

def items (function : String) (receiver : Data) : Except EvalError (List Value) :=
  match receiver.value with
  | .array items => .ok items
  | _ => refuse function (.receiver receiver.typ)

def entries (function : String) (receiver : Data) : Except EvalError (List (String × Value)) :=
  match receiver.value with
  | .map entries => .ok entries
  | _ => refuse function (.receiver receiver.typ)

/-- Whether a text occurs in another. -/
def occurs (needle : List Char) : List Char → Bool
  | [] => needle.isEmpty
  | c :: rest => needle.isPrefixOf (c :: rest) || occurs needle rest

/-- Whether a value is a text that occurs in another. -/
def isPart (text : String) : Value → Bool
  | .string needle => occurs needle.toList text.toList
  | _ => false

/-- The item at an index, which counts from the end if it is negative. -/
def itemAt (items : List Value) (index : Int) : Value :=
  let index := if index < 0 then index + items.length else index
  if index < 0 then .nil else (items[index.toNat]?).getD .nil

/-- How many items, entries or characters a value has. -/
def length (receiver : Data) : Except EvalError Data :=
  match receiver.value with
  | .array items => .ok (.int (Int64.ofNat items.length))
  | .map entries => .ok (.int (Int64.ofNat entries.length))
  | .string s => .ok (.int (Int64.ofNat s.length))
  | _ => refuse "length" (.receiver receiver.typ)

def ofArray (name : String) (t : Ty) (receiver : Data) (args : List Data) :
    Except EvalError Data := do
  match name with
  | "[]" =>
    let index ← intArg name args
    return .of (itemAt (← items name receiver) index.toInt) t
  | "length" => length receiver
  | "containsString" =>
    let needle ← textArg name args
    return .bool ((← items name receiver).any (·.same (.string needle)))
  | _ => throw (.unknownFunction name receiver.typ)

def ofMap (name : String) (t : Ty) (receiver : Data) (args : List Data) :
    Except EvalError Data := do
  match name with
  | "[]" =>
    let key ← textArg name args
    return .of (((← entries name receiver).lookup key).getD .nil) t
  | "length" => length receiver
  | "keys" => return .of (.array ((← entries name receiver).map (.string ·.1))) t
  | "values" => return .of (.array ((← entries name receiver).map (·.2))) t
  | _ => throw (.unknownFunction name receiver.typ)

def ofString (name : String) (receiver : Data) (args : List Data) : Except EvalError Data :=
  if name = "length" then length receiver
  else
    match receiver.value with
    | .string s =>
      match name with
      | "containsString" => do return .bool (isPart s (.string (← textArg name args)))
      | "containsArrayString" =>
        match args with
        | ⟨.array needles, _, _⟩ :: _ => .ok (.bool (needles.any (isPart s)))
        | _ => refuse name .notStrings
      | "downcase" => .ok (.string (downcase s))
      | "upcase" => .ok (.string (upcase s))
      | _ => .error (.unknownFunction name receiver.typ)
    | _ => refuse name (.receiver receiver.typ)

/-- The operators that join two truth values. -/
def ofBool (name : String) (receiver : Data) (args : List Data) : Except EvalError Data :=
  if name = "&&" || name = "||" then
    match receiver.value, args with
    | .bool a, ⟨.bool b, _, _⟩ :: _ => .ok (.bool (if name = "&&" then a && b else a || b))
    | _, _ => refuse name (.receiver receiver.typ)
  else .error (.unknownFunction name receiver.typ)

/-- A function without blocks, of a receiver that is there. What it gives has type `t` where the
receiver and the arguments do not tell. -/
def plain (name : String) (t : Ty) (receiver : Data) (args : List Data) : Except EvalError Data :=
  match receiver.typ.underlying with
  | .arrayLike => ofArray name t receiver args
  | .mapLike => ofMap name t receiver args
  | .string => ofString name receiver args
  | .bool => ofBool name receiver args
  | _ => .error (.unknownFunction name receiver.typ)

/-- An item of a list, with the type that the list declares for it, or else its own. -/
def element (list : Ty) (item : Value) : Data :=
  match list.child? with
  | none | some .any => .of item item.inferType
  | some t => .of item t

section Blocks

variable {m : Type → Type} [Monad m]

/-- The items for which a block holds. -/
def keepItems (block : Value → ExceptT EvalError m Row) :
    List Value → ExceptT EvalError m (List Value)
  | [] => return []
  | item :: rest => do
    let row ← block item
    match row.fault? with
    | some fault => throw (.invalidArgument "where" fault)
    | none =>
      let kept ← keepItems block rest
      return if row.truthy then item :: kept else kept

/-- The rows of a block, as values. -/
def projectItems (block : Value → ExceptT EvalError m Row) :
    List Value → ExceptT EvalError m (List Value)
  | [] => return []
  | item :: rest => do
    let row ← block item
    return row.toValue :: (← projectItems block rest)

/-- The name of the function that makes a row of each item. -/
def projection : String := "\x7b\x7d"

/-- What a function gives, where `block` runs a block on an element. -/
def apply (block : Ref → Data → ExceptT EvalError m Row) (name : String) (t : Ty)
    (receiver : Data) (args : List Data) : ExceptT EvalError m Data :=
  match Comparison.ofName? name with
  | some op =>
    return .bool (op.holds (receiver.value.compare? ((args.head?.map (·.value)).getD .nil)))
  | none =>
    if receiver.value.isNil then return .of .nil t
    else if receiver.typ.underlying = .arrayLike && (name = "where" || name = projection) then do
      let r ← MonadExcept.ofExcept (blockArg name args)
      let items ← MonadExcept.ofExcept (items name receiver)
      let run (item : Value) := block r (element receiver.typ item)
      if name = "where" then return .of (.array (← keepItems run items)) receiver.typ
      else return .of (.array (← projectItems run items)) (.array (.map .string .any))
    else MonadExcept.ofExcept (plain name t receiver args)

end Blocks

end Builtin

end AssetQuery
