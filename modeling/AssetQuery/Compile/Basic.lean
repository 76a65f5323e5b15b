import AssetQuery.Compile.Build

/-!
# Compilation

Queries are compiled against the declared resources and the built-in functions. Calls become chunks
in the order in which they are evaluated; arguments are checked against the declared types as they
are compiled; blocks become codes of their own.

What a compiler keeps, how it goes about a block and what it makes of the rules and forms of the
built-in functions are put together in a workshop; compilation is written once for all of them.
-/

namespace AssetQuery

variable {F Rule Form σ S : Type}

/-- An argument of a call, with the ways to compile it: as an operand, and, if it is a block, for an
element of some type. -/
structure Argument (σ : Type) where
  name : Option String
  value : Expr
  operand : Compiling σ Primitive
  block : (bound : Ty) → Compiling σ Primitive

/-- The call of a function that compiles in a way of its own: the type of the receiver and its
chunk, the name that the function is called by, and the arguments. -/
structure Invocation (σ : Type) where
  receiver : Ty
  binding : Ref
  name : String
  args : List (Argument σ)

/-- What a compiler with a state of type `σ` works with. Of what it is inside of, it hands an `S`
down to the parts of an expression. -/
structure Workshop (F Rule Form σ S : Type) where
  /-- Does something to the code under construction. -/
  step : {α : Type} → Build α → Compiling σ α
  /-- The type of the element inside a block. -/
  scope? : S → Compiling σ (Option Ty)
  /-- Compiles the body of a block about an element of some type. -/
  block : S → (bound : Ty) → (S → Compiling σ Unit) → Compiling σ Primitive
  result : Rule → (receiver : Ty) → Ty
  special : Vocabulary F Rule Form → Form → Invocation σ → Compiling σ Ref

/-- Compiles an argument for what is declared of it. -/
def Argument.compile (arg : Argument σ) (v : Vocabulary F Rule Form) (receiver expected : Ty) :
    Compiling σ Primitive :=
  match arg.value, expected with
  | .block _, .functionLike => arg.block (v.blockBinding receiver)
  | _, _ => arg.operand

namespace Vocabulary

/-- Compiles the arguments from `position` on for what is declared of them, of which there is at
least as much. -/
def positional (v : Vocabulary F Rule Form) (step : {α : Type} → Build α → Compiling σ α)
    (function : String) (required : Nat) (receiver : Ty) :
    List (Argument σ) → (declared : List Ty) → (position : Nat) → Compiling σ (List Primitive)
  | _, [], _ => return []
  | [], expected :: _, position =>
    if position ≤ required then throw (.missingArgument function position expected)
    else return []
  | arg :: rest, expected :: declared, position => do
    if let some name := arg.name then throw (.namedArgument function name)
    let p ← arg.compile v receiver expected
    step (checkType function position expected p)
    return p :: (← v.positional step function required receiver rest declared (position + 1))

/-- Compiles the arguments of a function for a signature and a type of receiver. -/
def argumentList (v : Vocabulary F Rule Form) (step : {α : Type} → Build α → Compiling σ α)
    (function : String) (args : List (Argument σ)) (signature : Signature) (receiver : Ty) :
    Compiling σ (List Primitive) := do
  step (checkCount function signature args.length)
  v.positional step function signature.required receiver args signature.args 1

/-- Compiles the arguments of a resource: for each its name and its value. `seen` are the names
before. -/
def named (step : {α : Type} → Build α → Compiling σ α) (info : ResourceInfo)
    (resource : String) (seen : List String) : List (Argument σ) → Compiling σ (List Primitive)
  | [] => return []
  | arg :: rest => do
    match arg.name with
    | none => throw (.unnamedResourceArgument resource)
    | some name =>
      if seen.contains name then throw (.duplicateArgument resource name)
      match info.fields.find? name with
      | none => throw (.unknownField resource name)
      | some field =>
        let p ← arg.operand
        step (checkType resource (seen.length + 1) field.typ p)
        return .string name :: p :: (← named step info resource (seen ++ [name]) rest)

end Vocabulary

namespace Workshop

open Vocabulary (named)

/-- The call of `name` on the chunk `binding` of type `t`: a field of the resource if it has one of
that name, else a built-in function. -/
def method (w : Workshop F Rule Form σ S) (v : Vocabulary F Rule Form) (t : Ty) (binding : Ref)
    (name : String) (argCount : Nat) (args : Signature → Ty → Compiling σ (List Primitive))
    (special : Form → Compiling σ Ref) : Compiling σ Ref := do
  match v.field? t name with
  | some field =>
    if field.isPrivate then throw (.unknownField (t.resourceName?.getD "") name)
    if argCount ≠ 0 then throw (.tooManyArguments name 0 argCount)
    w.step (Build.emit (.call name field.typ binding []))
  | none =>
    match v.builtins.lookup? t name with
    | none => throw (.unknownFunction name t (v.available t))
    | some ⟨signature, .simple rule⟩ =>
      let args ← args signature t
      w.step (Build.emit (.call name (w.result rule t) binding args))
    | some ⟨_, .special form⟩ => special form

def call (w : Workshop F Rule Form σ S) (v : Vocabulary F Rule Form) (t : Ty) (binding : Ref)
    (name : String) (args : List (Argument σ)) : Compiling σ Ref :=
  w.method v t binding name args.length (v.argumentList w.step name args) fun form =>
    w.special v form ⟨t, binding, name, args⟩

mutual

/-- Appends the chunks of an expression and gives the number of the chunk that stands for it. -/
def expr (w : Workshop F Rule Form σ S) (v : Vocabulary F Rule Form) (s : S) :
    Expr → Compiling σ Ref
  | .literal l => w.step do Build.emit (.ofPrimitive (← MonadExcept.ofExcept l.toPrimitive))
  | .element => do if (← w.scope? s).isSome then return 1 else throw .elementOutsideBlock
  | .block _ => throw .unexpectedBlock
  | .call receiver name args => do
    let binding ← w.expr v s receiver
    let t := (← w.step get).chunkType binding
    w.call v t binding name (w.args v s args)
  | .root name args => do
    match (← w.scope? s).bind fun bound => (v.field? bound name).map fun _ => bound with
    | some bound => w.call v bound 1 name (w.args v s args)
    | none => do
      let info ← w.step (v.constructible name)
      let args ← named w.step info name [] (w.args v s args)
      w.step (Build.emit (.call name (.resource name) 0 args))

/-- The arguments of a call with the ways to compile them. -/
def args (w : Workshop F Rule Form σ S) (v : Vocabulary F Rule Form) (s : S) :
    List (Arg Expr) → List (Argument σ)
  | [] => []
  | ⟨name, value⟩ :: rest =>
    { name
      value
      operand := .operand value (w.expr v s value)
      block := fun bound =>
        match value with
        | .block body => w.block s bound fun s => w.body v s body
        | _ => throw .unexpectedBlock } :: w.args v s rest

/-- Compiles expressions, each to an entry point under its label. -/
def body (w : Workshop F Rule Form σ S) (v : Vocabulary F Rule Form) (s : S) :
    List Expr → Compiling σ Unit
  | [] => return ()
  | e :: rest => do
    let r ← w.expr v s e
    w.step (modify fun code => code.addEntrypoint r e.label)
    w.body v s rest

end

end Workshop

/-- What the rules and forms of built-in functions stand for. -/
class Handling (F Rule Form : Type) where
  result : Rule → (receiver : Ty) → Ty
  compile : Vocabulary F Rule Form → Form → Invocation Code → Build Ref

/-- The rules and forms in common use. -/
instance : Handling F ResultRule SpecialForm where
  result := ResultRule.apply
  compile v form call := v.specialCall id form call.receiver call.binding call.name
    (v.argumentList id call.name call.args)

/-- A way of its own in which the calls of a function compile. -/
abbrev CompileStep (F : Type) := Registry F → Invocation Code → Build Unit

/-- Any rule, and any way to compile: the chunk that is the last then stands for the call. -/
instance : Handling F (Ty → Ty) (CompileStep F) where
  result rule := rule
  compile v step call := do
    step v.registry call
    return (← get).lastRef

namespace Vocabulary

variable [Handling F Rule Form]

/-- A compiler of which the code under construction is all the state. It hands the type of the
element down. -/
def workshop : Workshop F Rule Form Code (Option Ty) where
  step := id
  scope? scope := return scope
  block _ bound body := Build.block bound (body (some bound))
  result := Handling.result F Form
  special := Handling.compile

/-- Appends the chunks of an expression and gives the number of the chunk that stands for it.
`scope` is the type of the element inside a block. -/
def compileExpr (v : Vocabulary F Rule Form) (scope : Option Ty) (e : Expr) : Build Ref :=
  workshop.expr v scope e

/-- Compiles expressions, each to an entry point under its label. -/
def compileBody (v : Vocabulary F Rule Form) (scope : Option Ty) (es : List Expr) : Build Unit :=
  workshop.body v scope es

/-- Compiles a query. Its checksums are worked out with a digest. -/
def compile (v : Vocabulary F Rule Form) (digest : Digest) (query : List Expr) :
    Except CompileError Code :=
  match v.compileBody none query Code.empty with
  | (.ok (), code) => .ok (code.stamp digest)
  | (.error e, _) => .error e

end Vocabulary

end AssetQuery
