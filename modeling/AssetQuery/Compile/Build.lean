import AssetQuery.Builtin.Basic
import AssetQuery.Code.Basic
import AssetQuery.Code.Checksum
import AssetQuery.Expr.Basic
import AssetQuery.Expr.Label
import AssetQuery.Primitive.Basic
import AssetQuery.Registry
import AssetQuery.Ty.Label

/-!
# Building code

The steps that compilation is made of. Each works on the code under construction, which it leaves
behind also when it fails. Of literals, the items of an array all have the type of the first; a map
whose values have several types holds `any`.
-/

namespace AssetQuery

/-- Why a query cannot be compiled. -/
inductive CompileError where
  | unknownFunction (name : String) (receiver : Ty) (available : List String)
  | unknownResource (name : String) (available : List String)
  | unknownField (resource field : String)
  | missingArgument (function : String) (position : Nat) (expected : Ty)
  | tooManyArguments (function : String) (most actual : Nat)
  | typeMismatch (function : String) (position : Nat) (expected actual : Ty)
  | unsupportedArgument (function : String) (typ : Ty)
  | namedArgument (function name : String)
  | unnamedResourceArgument (resource : String)
  | duplicateArgument (resource name : String)
  | notListResource (typ : Ty)
  | mixedArray (index : Nat) (found held : Ty)
  | elementOutsideBlock
  | unexpectedBlock
  deriving DecidableEq, Repr

def CompileError.message : CompileError → String
  | unknownFunction name receiver available =>
    let names := ", ".intercalate available
    s!"cannot find function '{name}' for type '{receiver.label}' (available: {names})"
  | unknownResource name available =>
    let names := ", ".intercalate available
    s!"cannot find resource '{name}' (available: {names})"
  | unknownField resource field => s!"resource '{resource}' has no field '{field}'"
  | missingArgument function position expected =>
    s!"function '{function}' is missing argument {position} of type '{expected.label}'"
  | tooManyArguments function most actual =>
    s!"function '{function}' takes at most {most} arguments, got {actual}"
  | typeMismatch function position expected actual =>
    s!"argument {position} of '{function}' must be '{expected.label}', found '{actual.label}'"
  | unsupportedArgument function typ => s!"cannot find #{function} with this type {typ.label}"
  | namedArgument function name => s!"function '{function}' does not accept named argument '{name}'"
  | unnamedResourceArgument resource => s!"arguments of resource '{resource}' must be named"
  | duplicateArgument resource name =>
    s!"argument '{name}' given more than once for resource '{resource}'"
  | notListResource typ => s!"resource '{typ.label}' is not a list"
  | mixedArray index found held =>
    s!"invalid literal: array element {index} is '{found.label}' but the array holds '{held.label}'"
  | elementOutsideBlock => "'_' can only be used inside a block"
  | unexpectedBlock => "a block must be passed as a function argument"

namespace Literal

/-- The first primitive of another type than `held`, counted from `index`. -/
def firstOther? (held : Ty) (index : Nat) : List Primitive → Option (Nat × Ty)
  | [] => none
  | p :: rest => if p.typ = held then firstOther? held (index + 1) rest else some (index, p.typ)

mutual

def toPrimitive : Literal → Except CompileError Primitive
  | nil => .ok .nil
  | bool b => .ok (.bool b)
  | int n => .ok (.int n)
  | float x => .ok (.float x)
  | string s => .ok (.string s)
  | array items => do
    let items ← itemPrimitives items
    let held := ((items.head?).map fun p => p.typ).getD .any
    match firstOther? held 0 items with
    | some (index, found) => throw (.mixedArray index found held)
    | none => return .array held items
  | map entries => do
    let entries ← entryPrimitives entries
    return .map .string (Value.commonType (entries.map fun e => e.2.typ)) entries

def itemPrimitives : List Literal → Except CompileError (List Primitive)
  | [] => .ok []
  | l :: rest => do
    let p ← l.toPrimitive
    return p :: (← itemPrimitives rest)

def entryPrimitives : List (String × Literal) → Except CompileError (List (String × Primitive))
  | [] => .ok []
  | (key, l) :: rest => do
    let p ← l.toPrimitive
    return (key, p) :: (← entryPrimitives rest)

end

end Literal

/-- What queries are compiled against. -/
structure Vocabulary (F : Type) (Rule : Type := ResultRule) (Form : Type := SpecialForm) where
  registry : Registry F
  builtins : Builtins Rule Form

/-- A step of a compiler with a state of type `σ`, which it leaves behind also when it fails. -/
abbrev Compiling (σ α : Type) := ExceptT CompileError (StateM σ) α

/-- A step of compilation: it appends to a code, and may fail. -/
abbrev Build (α : Type) := Compiling Code α

/-- An argument: a literal as it is, anything else as a reference to its chunk. -/
def Compiling.operand {σ : Type} (value : Expr) (compiled : Compiling σ Ref) :
    Compiling σ Primitive :=
  match value with
  | .literal l => MonadExcept.ofExcept l.toPrimitive
  | .block _ => throw .unexpectedBlock
  | _ => do return .ref (← compiled)

namespace Build

/-- Appends a chunk and gives its number. -/
def emit (chunk : Chunk) : Build Ref := do
  modify fun code => code.addChunk chunk
  return (← get).lastRef

/-- The type of a primitive in the code under construction. -/
def operandType (p : Primitive) : Build Ty := return (← get).dereference p

/-- Compiles the body of a block about an element of type `bound` into a code of its own, whose
first chunk is the element. The code outside gets the block as a whole or not at all. -/
def block (bound : Ty) (body : Build Unit) : Build Primitive := fun code =>
  let start := { Code.empty.addChunk (.property "_" bound) with parameters := 1 }
  match body start with
  | (.ok (), function) =>
    let code := code.addFunction function
    (.ok (.function code.lastFunction), code)
  | (.error e, _) => (.error e, code)

end Build

namespace Vocabulary

variable {F Rule Form σ : Type}

/-- Every name that can be called on a receiver of some type: the built-in functions and the public
fields, in order. Resources that are no lists lack the functions of lists. -/
def available (v : Vocabulary F Rule Form) (t : Ty) : List String :=
  let builtins := v.builtins.names t
  let names := match t.resourceName?.bind v.registry.resource? with
    | none => builtins
    | some entry =>
      let kept := if entry.info.listType.isNone then
          builtins.filter fun name => !listFunctions.contains name
        else builtins
      let fields := entry.info.fields.values.filter fun (f : Field) => !f.isPrivate
      kept ++ fields.map Field.name
  (names.mergeSort (· ≤ ·)).eraseReps

/-- The type of the element that a block on some receiver is about. -/
def blockBinding (v : Vocabulary F Rule Form) (receiver : Ty) : Ty :=
  match receiver with
  | .array elem => elem
  | .resource name => ((v.registry.resource? name).bind fun e => e.info.listType).getD receiver
  | t => t

/-- The field of a resource type that a name stands for. -/
def field? (v : Vocabulary F Rule Form) (t : Ty) (name : String) : Option Field :=
  t.resourceName?.bind fun resource => v.registry.field? resource name

/-- Appends the list that a resource is; gives its number and type. -/
def emitList (v : Vocabulary F Rule Form) (t : Ty) (binding : Ref) : Build (Ref × Ty) := do
  match (v.registry.resource? (t.resourceName?.getD "")).bind fun e => e.info.listType with
  | none => throw (.notListResource t)
  | some elem => return (← Build.emit (.call "list" (.array elem) binding []), .array elem)

/-- The type of the first argument. -/
def firstType (args : List Primitive) : Build Ty :=
  match args with
  | [] => return .nil
  | p :: _ => Build.operandType p

/-- The call of a function in common use that compiles in a way of its own. `args` compiles the
arguments for a signature and a type of receiver, and `step` does what is done to the code. -/
def specialCall (v : Vocabulary F Rule Form) (step : {α : Type} → Build α → Compiling σ α)
    (form : SpecialForm) (t : Ty) (binding : Ref) (name : String)
    (args : Signature → Ty → Compiling σ (List Primitive)) : Compiling σ Ref := do
  match form with
  | .arrayContains =>
    let function := t.label ++ "." ++ name
    if t.child? ≠ some .string then throw (.unsupportedArgument function t)
    let args ← args ⟨1, [.any]⟩ t
    let found ← step (firstType args)
    if found ≠ .string then throw (.unsupportedArgument function found)
    step (Build.emit (.call "containsString" .bool binding args))
  | .stringContains =>
    let args ← args ⟨1, [.any]⟩ t
    match ← step (firstType args) with
    | .string => step (Build.emit (.call "containsString" .bool binding args))
    | .array .string => step (Build.emit (.call "containsArrayString" .bool binding args))
    | found => throw (.unsupportedArgument ("string." ++ name) found)
  | .listLength =>
    let _ ← args ⟨0, []⟩ t
    let (list, _) ← step (v.emitList t binding)
    step (Build.emit (.call "length" .int list []))
  | .listWhere =>
    let (list, listType) ← step (v.emitList t binding)
    let args ← args ⟨1, [.functionLike]⟩ listType
    step (Build.emit (.call "where" listType list args))

/-- Checks that there are not too many arguments. -/
def checkCount (function : String) (signature : Signature) (count : Nat) : Build Unit :=
  if signature.args.length < count then
    throw (.tooManyArguments function signature.args.length count)
  else return ()

/-- Checks that an argument has a type that fits. -/
def checkType (function : String) (position : Nat) (expected : Ty) (p : Primitive) :
    Build Unit := do
  let actual ← Build.operandType p
  if !actual.compatible expected then throw (.typeMismatch function position expected actual)

/-- The public resource of a name. -/
def constructible (v : Vocabulary F Rule Form) (name : String) : Build ResourceInfo :=
  match v.registry.resource? name with
  | some entry =>
    if entry.info.isPrivate then throw (.unknownResource name v.registry.publicNames)
    else return entry.info
  | none => throw (.unknownResource name v.registry.publicNames)

end Vocabulary

end AssetQuery
