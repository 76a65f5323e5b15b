import AssetQuery.Compile.Basic
import AssetQuery.Proofs.Builtin.Standard

/-!
# Successful steps of compilation

What each step of compilation has done to the code when it succeeds. On a receiver of one of the
types of constants, a call has compiled its arguments and then a chunk for the function that stands
for its name.
-/

namespace AssetQuery

namespace Build

variable {α β : Type} {code code' : Code}

/-- The outcome of a step on a code, and what it leaves behind. -/
def outcome (x : Build α) (code : Code) : Except CompileError α × Code := x code

/-- Whether a step succeeds on a code with `a` and leaves `code'` behind. -/
def Yields (x : Build α) (code : Code) (a : α) (code' : Code) : Prop :=
  x.outcome code = (.ok a, code')

theorem outcome_bind (x : Build α) (f : α → Build β) (code : Code) :
    (x >>= f).outcome code =
      match x.outcome code with
      | (.ok a, mid) => (f a).outcome mid
      | (.error e, mid) => (.error e, mid) := by
  show (match x.outcome code with | (a, mid) => ExceptT.bindCont f a mid) = _
  rcases x.outcome code with ⟨_ | a, mid⟩
  · rfl
  · rfl

theorem yields_bind {x : Build α} {f : α → Build β} {b : β} :
    (x >>= f).Yields code b code' ↔ ∃ a mid, x.Yields code a mid ∧ (f a).Yields mid b code' := by
  simp only [Yields, outcome_bind]
  rcases x.outcome code with ⟨e | a, mid⟩
  · simp
  · constructor
    · intro h
      exact ⟨a, mid, rfl, h⟩
    · rintro ⟨_, _, ha, h⟩
      cases ha
      exact h

theorem yields_pure {a b : α} :
    (pure a : Build α).Yields code b code' ↔ a = b ∧ code = code' := by
  show (Except.ok a, code) = (Except.ok b, code') ↔ _
  simp

theorem not_yields_throw {e : CompileError} {a : α} :
    ¬(throw e : Build α).Yields code a code' := by
  intro h
  cases h

theorem yields_unless {p : Prop} [Decidable p] {e : CompileError} {f : β → Build α} {x : Build α}
    {a : α} :
    (if p then (throw e : Build β) >>= f else x).Yields code a code' ↔
      ¬p ∧ x.Yields code a code' := by
  split
  · next hp =>
    refine ⟨fun h => ?_, fun h => absurd hp h.1⟩
    obtain ⟨_, _, hthrow, _⟩ := yields_bind.mp h
    exact absurd hthrow not_yields_throw
  · next hp => exact (and_iff_right hp).symm

theorem yields_get {found : Code} :
    (get : Build Code).Yields code found code' ↔ code = found ∧ code = code' := by
  show (Except.ok code, code) = (Except.ok found, code') ↔ _
  simp

theorem yields_modify {f : Code → Code} {u : PUnit} :
    (modify f : Build PUnit).Yields code u code' ↔ f code = code' := by
  show (Except.ok PUnit.unit, f code) = (Except.ok u, code') ↔ _
  simp

theorem yields_ofExcept {x : Except CompileError α} {a : α} :
    (MonadExcept.ofExcept x : Build α).Yields code a code' ↔ x = .ok a ∧ code = code' := by
  cases x with
  | ok b =>
    refine yields_pure.trans ?_
    simp
  | error e =>
    refine (iff_false_intro not_yields_throw).trans ?_
    simp

theorem yields_emit {chunk : Chunk} {r : Ref} :
    (emit chunk).Yields code r code' ↔ code.addChunk chunk = code' ∧ code'.lastRef = r := by
  show (Except.ok (code.addChunk chunk).lastRef, code.addChunk chunk) = (Except.ok r, code') ↔ _
  simp only [Prod.mk.injEq, Except.ok.injEq]
  constructor
  · rintro ⟨rfl, rfl⟩
    exact ⟨rfl, rfl⟩
  · rintro ⟨rfl, rfl⟩
    exact ⟨rfl, rfl⟩

theorem yields_operandType {p : Primitive} {t : Ty} :
    (operandType p).Yields code t code' ↔ code.dereference p = t ∧ code = code' := by
  show (Except.ok (code.dereference p), code) = (Except.ok t, code') ↔ _
  simp

/-- The code that a block starts with. -/
def blockStart (bound : Ty) : Code :=
  { Code.empty.addChunk (.property "_" bound) with parameters := 1 }

theorem outcome_block (bound : Ty) (body : Build Unit) (code : Code) :
    (block bound body).outcome code =
      match body.outcome (blockStart bound) with
      | (.ok (), function) =>
        (.ok (.function (code.addFunction function).lastFunction), code.addFunction function)
      | (.error e, _) => (.error e, code) := by
  show (match body.outcome (blockStart bound) with
    | (.ok (), function) => _
    | (.error e, _) => _ : Except CompileError Primitive × Code) = _
  rcases body.outcome (blockStart bound) with ⟨_ | _, function⟩
  · rfl
  · rfl

theorem yields_block {bound : Ty} {body : Build Unit} {p : Primitive} :
    (block bound body).Yields code p code' ↔
      ∃ function, body.Yields (blockStart bound) () function ∧
        code.addFunction function = code' ∧ .function code'.lastFunction = p := by
  simp only [Yields, outcome_block]
  rcases body.outcome (blockStart bound) with ⟨_ | _, function⟩
  · simp
  · simp only [Prod.mk.injEq, Except.ok.injEq]
    constructor
    · rintro ⟨rfl, rfl⟩
      exact ⟨function, ⟨trivial, rfl⟩, rfl, rfl⟩
    · rintro ⟨_, ⟨_, rfl⟩, rfl, rfl⟩
      exact ⟨rfl, rfl⟩

/-- An argument: a literal as it is, anything else as a reference to its chunk. -/
def operand (value : Expr) (compiled : Build Ref) : Build Primitive :=
  Compiling.operand value compiled

section Failures

variable {e : CompileError}

/-- Whether a step fails on a code with `e` and leaves `code'` behind. -/
def Fails (x : Build α) (code : Code) (e : CompileError) (code' : Code) : Prop :=
  x.outcome code = (.error e, code')

theorem Yields.not_fails {x : Build α} {a : α} {mid : Code} (h : x.Yields code a mid) :
    ¬x.Fails code e code' := by
  intro hfails
  cases Eq.trans h.symm hfails

theorem fails_bind {x : Build α} {f : α → Build β} :
    (x >>= f).Fails code e code' ↔
      x.Fails code e code' ∨ ∃ a mid, x.Yields code a mid ∧ (f a).Fails mid e code' := by
  simp only [Fails, Yields, outcome_bind]
  rcases x.outcome code with ⟨e | a, mid⟩
  · simp
  · constructor
    · intro h
      exact .inr ⟨a, mid, rfl, h⟩
    · rintro (h | ⟨_, _, ha, h⟩)
      · cases h
      · cases ha
        exact h

theorem not_fails_pure {a : α} : ¬(pure a : Build α).Fails code e code' := by
  intro h
  cases h

theorem fails_throw {thrown : CompileError} :
    (throw thrown : Build α).Fails code e code' ↔ thrown = e ∧ code = code' := by
  show (Except.error thrown, code) = ((.error e, code') : Except CompileError α × Code) ↔ _
  simp

theorem fails_throw_bind {f : β → Build α} : ((throw e : Build β) >>= f).Fails code e code :=
  fails_bind.mpr (.inl (fails_throw.mpr ⟨rfl, rfl⟩))

theorem fails_ofExcept {x : Except CompileError α} :
    (MonadExcept.ofExcept x : Build α).Fails code e code' ↔ x = .error e ∧ code = code' := by
  cases x with
  | ok a =>
    refine (iff_false_intro not_fails_pure).trans ?_
    simp
  | error thrown =>
    refine fails_throw.trans ?_
    simp

theorem not_fails_operandType {p : Primitive} : ¬(operandType p).Fails code e code' := by
  intro h
  cases h

theorem fails_block {bound : Ty} {body : Build Unit} :
    (block bound body).Fails code e code' ↔
      (∃ function, body.Fails (blockStart bound) e function) ∧ code = code' := by
  simp only [Fails, outcome_block]
  rcases body.outcome (blockStart bound) with ⟨_ | _, function⟩
  · simp
  · simp

end Failures

end Build

open Build (yields_bind yields_pure yields_get yields_emit yields_operandType not_yields_throw)

namespace Vocabulary

variable {F : Type} {v : Vocabulary F} {scope : Option Ty} {code code' : Code}

theorem yields_checkCount {function : String} {signature : Signature} {count : Nat} {u : Unit} :
    (checkCount function signature count).Yields code u code' ↔
      count ≤ signature.args.length ∧ code = code' := by
  rw [checkCount]
  split
  · next h =>
    simp only [iff_false_intro not_yields_throw, false_iff]
    omega
  · next h =>
    simp only [yields_pure, true_and]
    exact (and_iff_right (by omega)).symm

theorem yields_checkType {function : String} {position : Nat} {expected : Ty} {p : Primitive}
    {u : Unit} :
    (checkType function position expected p).Yields code u code' ↔
      (code.dereference p).compatible expected = true ∧ code = code' := by
  simp only [checkType, yields_bind, yields_operandType]
  constructor
  · rintro ⟨_, _, ⟨rfl, rfl⟩, h⟩
    split at h
    · exact absurd h not_yields_throw
    · next hfits => exact ⟨by simpa using hfits, (yields_pure.mp h).2⟩
  · rintro ⟨hfits, rfl⟩
    refine ⟨_, _, ⟨rfl, rfl⟩, ?_⟩
    rw [hfits]
    exact yields_pure.mpr ⟨rfl, rfl⟩

section Syntax

variable {Rule Form : Type} [Handling F Rule Form] {v : Vocabulary F Rule Form}

/-- Compiles the arguments from `position` on for what is declared of them. -/
def compileArgs (v : Vocabulary F Rule Form) (scope : Option Ty) (function : String)
    (required : Nat) (receiver : Ty) (args : List (Arg Expr)) (declared : List Ty)
    (position : Nat) : Build (List Primitive) :=
  v.positional id function required receiver (workshop.args v scope args) declared position

/-- Compiles the arguments of a resource. -/
def compileNamedArgs (v : Vocabulary F Rule Form) (scope : Option Ty) (info : ResourceInfo)
    (resource : String) (seen : List String) (args : List (Arg Expr)) : Build (List Primitive) :=
  named id info resource seen (workshop.args v scope args)

/-- One argument that is compiled for what is declared of it. -/
def compileArg (v : Vocabulary F Rule Form) (scope : Option Ty) (receiver : Ty) (value : Expr)
    (expected : Ty) : Build Primitive :=
  match value, expected with
  | .block body, .functionLike =>
    let bound := v.blockBinding receiver
    Build.block bound (v.compileBody (some bound) body)
  | value, _ => Build.operand value (v.compileExpr scope value)

/-- Compiles the arguments of a call for a signature and a type of receiver. -/
def arguments (v : Vocabulary F Rule Form) (scope : Option Ty) (function : String)
    (args : List (Arg Expr)) (signature : Signature) (receiver : Ty) :
    Build (List Primitive) := do
  checkCount function signature args.length
  v.compileArgs scope function signature.required receiver args signature.args 1

private theorem length_args (scope : Option Ty) (args : List (Arg Expr)) :
    (workshop.args v scope args).length = args.length := by
  induction args with
  | nil => rfl
  | cons arg rest ih => exact congrArg (· + 1) ih

theorem compileExpr_literal (l : Literal) :
    v.compileExpr scope (.literal l) =
      (do Build.emit (.ofPrimitive (← MonadExcept.ofExcept l.toPrimitive)) : Build Ref) := rfl

theorem compileExpr_element :
    v.compileExpr scope .element =
      (if scope.isSome then return 1 else throw .elementOutsideBlock : Build Ref) := rfl

theorem compileExpr_block (body : List Expr) :
    v.compileExpr scope (.block body) = throw .unexpectedBlock := rfl

theorem compileArgs_done (function : String) (required : Nat) (receiver : Ty)
    (args : List (Arg Expr)) (position : Nat) :
    v.compileArgs scope function required receiver args [] position = pure [] := by
  cases args <;> rfl

theorem compileArgs_nil (function : String) (required : Nat) (receiver : Ty) (expected : Ty)
    (declared : List Ty) (position : Nat) :
    v.compileArgs scope function required receiver [] (expected :: declared) position =
      (if position ≤ required then throw (.missingArgument function position expected)
        else return [] : Build (List Primitive)) := rfl

theorem compileArgs_named (function : String) (required : Nat) (receiver : Ty) (name : String)
    (value : Expr) (rest : List (Arg Expr)) (expected : Ty) (declared : List Ty) (position : Nat) :
    v.compileArgs scope function required receiver (⟨some name, value⟩ :: rest)
        (expected :: declared) position =
      (do
        throw (.namedArgument function name)
        let p ← v.compileArg scope receiver value expected
        checkType function position expected p
        return p :: (← v.compileArgs scope function required receiver rest declared
          (position + 1)) : Build (List Primitive)) := by
  cases value <;> cases expected <;> rfl

theorem compileArgs_cons (function : String) (required : Nat) (receiver : Ty) (value : Expr)
    (rest : List (Arg Expr)) (expected : Ty) (declared : List Ty) (position : Nat) :
    v.compileArgs scope function required receiver (⟨none, value⟩ :: rest) (expected :: declared)
        position =
      (do
        let p ← v.compileArg scope receiver value expected
        checkType function position expected p
        return p :: (← v.compileArgs scope function required receiver rest declared
          (position + 1)) : Build (List Primitive)) := by
  cases value <;> cases expected <;> rfl

theorem compileNamedArgs_nil (info : ResourceInfo) (resource : String) (seen : List String) :
    v.compileNamedArgs scope info resource seen [] = pure [] := rfl

theorem compileNamedArgs_unnamed (info : ResourceInfo) (resource : String) (seen : List String)
    (value : Expr) (rest : List (Arg Expr)) :
    v.compileNamedArgs scope info resource seen (⟨none, value⟩ :: rest) =
      throw (.unnamedResourceArgument resource) := rfl

theorem compileNamedArgs_cons (info : ResourceInfo) (resource : String) (seen : List String)
    (name : String) (value : Expr) (rest : List (Arg Expr)) :
    v.compileNamedArgs scope info resource seen (⟨some name, value⟩ :: rest) =
      (do
        if seen.contains name then throw (.duplicateArgument resource name)
        match info.fields.find? name with
        | none => throw (.unknownField resource name)
        | some field =>
          let p ← Build.operand value (v.compileExpr scope value)
          checkType resource (seen.length + 1) field.typ p
          return .string name :: p ::
            (← v.compileNamedArgs scope info resource (seen ++ [name]) rest) :
        Build (List Primitive)) := rfl

theorem compileBody_nil : v.compileBody scope [] = pure () := rfl

theorem compileBody_cons (e : Expr) (rest : List Expr) :
    v.compileBody scope (e :: rest) =
      (do
        let r ← v.compileExpr scope e
        modify fun code => code.addEntrypoint r e.label
        v.compileBody scope rest : Build Unit) := rfl

end Syntax

section Standard

variable {t : Ty} {binding : Ref} {name : String} {args : Signature → Ty → Build (List Primitive)}

/-- The call of a function in common use that compiles in a way of its own. -/
def special (v : Vocabulary F) (form : SpecialForm) (t : Ty) (binding : Ref) (name : String)
    (args : Signature → Ty → Build (List Primitive)) : Build Ref :=
  v.specialCall id form t binding name args

/-- The call of `name` on the chunk `binding` of type `t`, with functions in common use. -/
def method (v : Vocabulary F) (t : Ty) (binding : Ref) (name : String) (count : Nat)
    (args : Signature → Ty → Build (List Primitive)) : Build Ref :=
  workshop.method v t binding name count args fun form => v.special form t binding name args

theorem method_eq (count : Nat) :
    v.method t binding name count args =
      match v.field? t name with
      | some field => (do
        if field.isPrivate then throw (.unknownField (t.resourceName?.getD "") name)
        if count ≠ 0 then throw (.tooManyArguments name 0 count)
        Build.emit (.call name field.typ binding []) : Build Ref)
      | none =>
        match v.builtins.lookup? t name with
        | none => throw (.unknownFunction name t (v.available t))
        | some ⟨signature, .simple result⟩ => (do
          let args ← args signature t
          Build.emit (.call name (result.apply t) binding args) : Build Ref)
        | some ⟨_, .special form⟩ => v.special form t binding name args := by
  rw [method, Workshop.method]
  cases v.field? t name with
  | some field => rfl
  | none =>
    rcases v.builtins.lookup? t name with _ | ⟨signature, rule | form⟩
    · rfl
    · rfl
    · rfl

theorem call_args (scope : Option Ty) (args : List (Arg Expr)) :
    workshop.call v t binding name (workshop.args v scope args) =
      v.method t binding name args.length (v.arguments scope name args) := by
  rw [Workshop.call, length_args]
  have hargs :
      v.argumentList id name (workshop.args v scope args) = v.arguments scope name args := by
    funext signature receiver
    rw [argumentList, length_args]
    rfl
  show workshop.method v t binding name args.length (v.argumentList id name _)
    (fun form => v.special form t binding name (v.argumentList id name _)) = _
  rw [hargs]
  rfl

theorem compileExpr_call (e : Expr) (name : String) (args : List (Arg Expr)) :
    v.compileExpr scope (.call e name args) =
      (do
        let binding ← v.compileExpr scope e
        let t := (← get).chunkType binding
        v.method t binding name args.length (v.arguments scope name args) : Build Ref) := by
  simp only [← call_args]
  rfl

theorem compileExpr_root (name : String) (args : List (Arg Expr)) :
    v.compileExpr scope (.root name args) =
      match scope.bind fun bound => (v.field? bound name).map fun _ => bound with
      | some bound => v.method bound 1 name args.length (v.arguments scope name args)
      | none => (do
        let info ← v.constructible name
        let args ← v.compileNamedArgs scope info name [] args
        Build.emit (.call name (.resource name) 0 args) : Build Ref) := by
  simp only [← call_args]
  rfl

theorem special_arrayContains :
    v.special .arrayContains t binding name args =
      (do
        let function := t.label ++ "." ++ name
        if t.child? ≠ some .string then throw (.unsupportedArgument function t)
        let args ← args ⟨1, [.any]⟩ t
        let found ← firstType args
        if found ≠ .string then throw (.unsupportedArgument function found)
        Build.emit (.call "containsString" .bool binding args) : Build Ref) := rfl

theorem special_stringContains :
    v.special .stringContains t binding name args =
      (do
        let args ← args ⟨1, [.any]⟩ t
        match ← firstType args with
        | .string => Build.emit (.call "containsString" .bool binding args)
        | .array .string => Build.emit (.call "containsArrayString" .bool binding args)
        | found => throw (.unsupportedArgument ("string." ++ name) found) : Build Ref) := rfl

theorem special_listLength :
    v.special .listLength t binding name args =
      (do
        let _ ← args ⟨0, []⟩ t
        let (list, _) ← v.emitList t binding
        Build.emit (.call "length" .int list []) : Build Ref) := rfl

theorem special_listWhere :
    v.special .listWhere t binding name args =
      (do
        let (list, listType) ← v.emitList t binding
        let args ← args ⟨1, [.functionLike]⟩ listType
        Build.emit (.call "where" listType list args) : Build Ref) := rfl

end Standard

/-- Where one argument at most is declared, and has to be there, it is what is compiled. -/
theorem yields_compileArgs {function : String} {signature : Signature} {receiver : Ty}
    {args : List (Arg Expr)} {ps : List Primitive}
    (hrequired : signature.required = signature.args.length) (hone : signature.args.length ≤ 1)
    (hcount : args.length ≤ signature.args.length)
    (h : (v.compileArgs scope function signature.required receiver args signature.args 1).Yields
      code ps code') :
    (args = [] ∧ ps = [] ∧ signature.args = [] ∧ code = code') ∨
      ∃ value expected p, args = [⟨none, value⟩] ∧ signature.args = [expected] ∧ ps = [p] ∧
        (v.compileArg scope receiver value expected).Yields code p code' ∧
        (code'.dereference p).compatible expected = true := by
  obtain ⟨required, declared⟩ := signature
  simp only at hrequired hone hcount h ⊢
  subst hrequired
  rcases declared with _ | ⟨expected, _ | ⟨_, _⟩⟩
  · cases args with
    | nil =>
      simp only [compileArgs_done, yields_pure] at h
      exact .inl ⟨rfl, h.1.symm, rfl, h.2⟩
    | cons arg rest => simp at hcount
  · rcases args with _ | ⟨⟨name, value⟩, _ | ⟨_, _⟩⟩
    · rw [compileArgs_nil, List.length_singleton, if_pos (Nat.le_refl 1)] at h
      exact absurd h not_yields_throw
    · refine .inr ⟨value, expected, ?_⟩
      cases name with
      | some name =>
        rw [compileArgs_named] at h
        obtain ⟨_, _, hthrow, _⟩ := yields_bind.mp h
        exact absurd hthrow not_yields_throw
      | none =>
        rw [compileArgs_cons] at h
        obtain ⟨p, mid, hp, h⟩ := yields_bind.mp h
        obtain ⟨_, _, hcheck, h⟩ := yields_bind.mp h
        obtain ⟨hfits, rfl⟩ := yields_checkType.mp hcheck
        obtain ⟨rest, _, hrest, h⟩ := yields_bind.mp h
        rw [compileArgs_done] at hrest
        obtain ⟨rfl, rfl⟩ := yields_pure.mp hrest
        obtain ⟨rfl, rfl⟩ := yields_pure.mp h
        exact ⟨p, rfl, rfl, rfl, hp, hfits⟩
    · simp at hcount
  · simp at hone

theorem yields_firstType {ps : List Primitive} {t : Ty} :
    (firstType ps).Yields code t code' ↔
      ((ps.head?).map code.dereference).getD .nil = t ∧ code = code' := by
  cases ps with
  | nil => exact yields_pure
  | cons p rest => exact yields_operandType

/-- On a receiver of a type of constants a call compiles its arguments and then a chunk for the
function that its name stands for. -/
theorem yields_method {registry : Registry F} {t : Ty} (ht : t.isLiteral) {binding : Ref}
    {name : String} {count : Nat} {args : Signature → Ty → Build (List Primitive)} {r : Ref}
    (h : ((⟨registry, .standard⟩ : Vocabulary F).method t binding name count args).Yields
      code r code') :
    ∃ signature ps mid function u, (args signature t).Yields code ps mid ∧
      mid.addChunk (.call function u binding ps) = code' ∧ code'.lastRef = r ∧
      t ≠ .any ∧ Builtin.Takes t function signature ∧ u.isLiteral ∧
      ∀ types, (∀ found, (ps.head?).map mid.dereference = some found → found ≠ .any →
        types.head? = some found) → Builtin.resolve? t name types = some (function, u) := by
  have hfield : (⟨registry, .standard⟩ : Vocabulary F).field? t name = none := by
    rw [field?, Ty.resourceName?_of_isLiteral ht]
    rfl
  rw [method_eq, hfield] at h
  cases hlookup : Builtins.standard.lookup? t name with
  | none =>
    rw [hlookup] at h
    exact absurd h not_yields_throw
  | some handler =>
    have hsound := Builtins.sound_standard hlookup
    have hany : t ≠ .any := by
      rintro rfl
      rw [Builtins.lookup?_any] at hlookup
      cases hlookup
    obtain ⟨signature, kind⟩ := handler
    cases kind with
    | simple result =>
      obtain ⟨htakes, _, hresult⟩ := hsound
      rw [hlookup] at h
      obtain ⟨ps, mid, hps, h⟩ := yields_bind.mp h
      obtain ⟨hchunk, hr⟩ := yields_emit.mp h
      refine ⟨signature, ps, mid, name, result.apply t, hps, hchunk, hr, hany, htakes.of_underlying,
        ResultRule.isLiteral_apply hresult ht, fun types _ => ?_⟩
      rw [Builtin.resolve?, hlookup]
    | special form =>
      rw [hlookup] at h
      cases form with
      | arrayContains =>
        simp only [special_arrayContains, Build.yields_unless] at h
        obtain ⟨ps, mid, hps, h⟩ := yields_bind.mp h.2
        obtain ⟨found, _, hfound, h⟩ := yields_bind.mp h
        obtain ⟨_, rfl⟩ := yields_firstType.mp hfound
        obtain ⟨hchunk, hr⟩ := yields_emit.mp (Build.yields_unless.mp h).2
        refine ⟨⟨1, [.any]⟩, ps, mid, "containsString", .bool, hps, hchunk, hr, hany,
          Builtin.takes_containsString t, rfl, fun types _ => ?_⟩
        rw [Builtin.resolve?, hlookup]
      | stringContains =>
        simp only [special_stringContains] at h
        obtain ⟨ps, mid, hps, h⟩ := yields_bind.mp h
        obtain ⟨found, _, hfirst, h⟩ := yields_bind.mp h
        obtain ⟨hfound, rfl⟩ := yields_firstType.mp hfirst
        split at h
        · obtain ⟨hchunk, hr⟩ := yields_emit.mp h
          refine ⟨⟨1, [.any]⟩, ps, mid, "containsString", .bool, hps, hchunk, hr, hany,
            Builtin.takes_containsString t, rfl, fun types htypes => ?_⟩
          have hhead := htypes .string
            ((Option.getD_eq_iff.mp hfound).resolve_right fun h => by cases h.2) (by decide)
          rw [Builtin.resolve?, hlookup]
          exact if_neg (by rw [hhead]; decide)
        · obtain ⟨hchunk, hr⟩ := yields_emit.mp h
          refine ⟨⟨1, [.any]⟩, ps, mid, "containsArrayString", .bool, hps, hchunk, hr, hany,
            Builtin.takes_containsArrayString t, rfl, fun types htypes => ?_⟩
          have hhead := htypes (.array .string)
            ((Option.getD_eq_iff.mp hfound).resolve_right fun h => by cases h.2) (by decide)
          rw [Builtin.resolve?, hlookup]
          exact if_pos hhead
        · exact absurd h not_yields_throw
      | listLength => exact absurd hsound (Ty.underlying_of_isLiteral ht)
      | listWhere => exact absurd hsound (Ty.underlying_of_isLiteral ht)

end Vocabulary

end AssetQuery
