import AssetQuery.Proofs.Compile.Build

/-!
# Compilation only appends

Whether a step of compilation succeeds or fails, the code that it leaves behind is the one that it
was given with more chunks and blocks behind, and nothing else about it has changed. What a block is
compiled to is a code of its own until it is complete. An expression that compiles is either the
element or stands at the last chunk.
-/

namespace AssetQuery

variable {F Rule Form α β : Type}

/-- Whether a code has the chunks and blocks of another and perhaps more behind, and is the same in
everything else. -/
structure Code.Continues (code code' : Code) : Prop where
  chunks : code.chunks <+: code'.chunks
  functions : code.functions <+: code'.functions
  entrypoints : code'.entrypoints = code.entrypoints
  labels : code'.labels = code.labels
  parameters : code'.parameters = code.parameters
  id : code'.id = code.id
  checksums : code'.checksums = code.checksums

namespace Code.Continues

variable {code mid code' : Code}

theorem refl (code : Code) : code.Continues code :=
  ⟨List.prefix_rfl, List.prefix_rfl, rfl, rfl, rfl, rfl, rfl⟩

private theorem trans (h : code.Continues mid) (h' : mid.Continues code') :
    code.Continues code' where
  chunks := h.chunks.trans h'.chunks
  functions := h.functions.trans h'.functions
  entrypoints := h'.entrypoints.trans h.entrypoints
  labels := h'.labels.trans h.labels
  parameters := h'.parameters.trans h.parameters
  id := h'.id.trans h.id
  checksums := h'.checksums.trans h.checksums

private theorem addChunk (code : Code) (chunk : Chunk) : code.Continues (code.addChunk chunk) :=
  ⟨List.prefix_append _ _, List.prefix_rfl, rfl, rfl, rfl, rfl, rfl⟩

private theorem addFunction (code function : Code) : code.Continues (code.addFunction function) :=
  ⟨List.prefix_rfl, List.prefix_append _ _, rfl, rfl, rfl, rfl, rfl⟩

end Code.Continues

namespace Build

variable {x : Build α} {f : α → Build β}

/-- Whether a step only appends, also when it fails. -/
def Appends (x : Build α) : Prop :=
  ∀ code : Code, code.Continues (x.outcome code).2

namespace Appends

theorem pure (a : α) : Appends (Pure.pure a : Build α) := fun code => .refl code

theorem throw (e : CompileError) : Appends (MonadExcept.throw e : Build α) :=
  fun code => .refl code

theorem get : Appends (MonadState.get : Build Code) := fun code => .refl code

theorem bind (hx : Appends x) (hf : ∀ a, Appends (f a)) : Appends (x >>= f) := by
  intro code
  have hfirst := hx code
  rw [outcome_bind]
  rcases hrun : x.outcome code with ⟨e | a, mid⟩
  · rwa [hrun] at hfirst
  · rw [hrun] at hfirst
    exact hfirst.trans (hf a mid)

theorem throw_bind (e : CompileError) (f : α → Build β) :
    Appends ((MonadExcept.throw e : Build α) >>= f) := fun code => .refl code

theorem guarded {p : Prop} [Decidable p] {e : CompileError} {y : Build β} {f : α → Build β}
    (hy : Appends y) : Appends (if p then (MonadExcept.throw e : Build α) >>= f else y) := by
  split
  · exact .throw_bind e f
  · exact hy

theorem emit (chunk : Chunk) : Appends (Build.emit chunk) := fun code => .addChunk code chunk

theorem operandType (p : Primitive) : Appends (Build.operandType p) :=
  fun code => .refl code

theorem ofExcept (outcome : Except CompileError α) :
    Appends (MonadExcept.ofExcept outcome : Build α) := by
  cases outcome with
  | ok a => exact .pure a
  | error e => exact .throw e

/-- The code outside of a block only gets the block, whatever the body does. -/
theorem block (bound : Ty) (body : Build Unit) : Appends (Build.block bound body) := by
  intro code
  rw [outcome_block]
  rcases body.outcome (blockStart bound) with ⟨_ | _, function⟩
  · exact .refl code
  · exact .addFunction code function

theorem operand (value : Expr) {compiled : Build Ref} (h : Appends compiled) :
    Appends (Build.operand value compiled) := by
  cases value with
  | literal l => exact .ofExcept _
  | block body => exact .throw _
  | _ => exact .bind h fun r => .pure _

end Appends

structure Emits (x : Build Ref) : Prop where
  appends : x.Appends
  last : ∀ code r code', x.Yields code r code' →
    code.chunks.length < code'.chunks.length ∧ r = code'.lastRef

namespace Emits

theorem emit (chunk : Chunk) : Emits (Build.emit chunk) := by
  refine ⟨.emit chunk, fun code r code' h => ?_⟩
  obtain ⟨rfl, rfl⟩ := yields_emit.mp h
  exact ⟨by simp [Code.addChunk], rfl⟩

theorem throw (e : CompileError) : Emits (MonadExcept.throw e) :=
  ⟨.throw e, fun _ _ _ h => absurd h not_yields_throw⟩

theorem bind {f : α → Build Ref} (hx : Appends x) (hf : ∀ a, Emits (f a)) :
    Emits (x >>= f) := by
  refine ⟨.bind hx fun a => (hf a).appends, fun code r code' h => ?_⟩
  obtain ⟨a, mid, ha, h⟩ := yields_bind.mp h
  have hfirst := hx code
  rw [ha] at hfirst
  obtain ⟨hlt, hr⟩ := (hf a).last mid r code' h
  exact ⟨Nat.lt_of_le_of_lt hfirst.chunks.length_le hlt, hr⟩

theorem guarded {p : Prop} [Decidable p] {e : CompileError} {y : Build Ref} {f : α → Build Ref}
    (hy : Emits y) : Emits (if p then (MonadExcept.throw e : Build α) >>= f else y) :=
  ⟨.guarded hy.appends, fun code r code' h => hy.last code r code' (yields_unless.mp h).2⟩

end Emits

end Build

open Build (Appends yields_pure not_yields_throw)

/-- Whether an argument only appends, however it is compiled. -/
structure Argument.Appends (arg : Argument Code) : Prop where
  operand : Build.Appends arg.operand
  block : ∀ bound, Build.Appends (arg.block bound)

/-- Whether the calls of functions that compile in a way of their own only append. -/
def Vocabulary.OnlyAppends [Handling F Rule Form] (v : Vocabulary F Rule Form) : Prop :=
  ∀ t name signature form, v.builtins.lookup? t name = some ⟨signature, .special form⟩ →
    ∀ call : Invocation Code, (∀ arg ∈ call.args, arg.Appends) →
      (Handling.compile v form call).Appends

namespace Vocabulary

variable {t : Ty} {binding : Ref} {name : String}

theorem appends_checkCount (function : String) (signature : Signature) (count : Nat) :
    (checkCount function signature count).Appends := by
  rw [checkCount]
  split
  · exact .throw _
  · exact .pure _

theorem appends_checkType (function : String) (position : Nat) (expected : Ty) (p : Primitive) :
    (checkType function position expected p).Appends := by
  refine .bind (.operandType p) fun actual => ?_
  split
  · exact .throw _
  · exact .pure _

section Arguments

variable {v : Vocabulary F Rule Form} {args : List (Argument Code)}

theorem appends_constructible (v : Vocabulary F Rule Form) (name : String) :
    (v.constructible name).Appends := by
  rw [constructible]
  split
  · split
    · exact .throw _
    · exact .pure _
  · exact .throw _

private theorem appends_argument {arg : Argument Code} (h : arg.Appends) (receiver expected : Ty) :
    Build.Appends (arg.compile v receiver expected) := by
  unfold Argument.compile
  split
  · exact h.block _
  · exact h.operand

theorem appends_positional (h : ∀ arg ∈ args, arg.Appends) (function : String) (required : Nat)
    (receiver : Ty) (declared : List Ty) (position : Nat) :
    Build.Appends (v.positional id function required receiver args declared position) := by
  induction args generalizing declared position with
  | nil =>
    cases declared with
    | nil => exact .pure _
    | cons expected declared =>
      rw [positional]
      split
      · exact .throw _
      · exact .pure _
  | cons arg rest ih =>
    cases declared with
    | nil => exact .pure _
    | cons expected declared =>
      rw [positional]
      split
      · exact .throw_bind _ _
      · exact .bind (appends_argument (h arg List.mem_cons_self) receiver expected) fun p =>
          .bind (appends_checkType _ _ _ p) fun _ =>
            .bind (ih (fun a ha => h a (List.mem_cons_of_mem _ ha)) declared _) fun _ => .pure _

theorem appends_argumentList (h : ∀ arg ∈ args, arg.Appends) (signature : Signature)
    (receiver : Ty) : Build.Appends (v.argumentList id name args signature receiver) :=
  .bind (appends_checkCount _ _ _) fun _ => appends_positional h _ _ _ _ _

theorem appends_named (h : ∀ arg ∈ args, arg.Appends) (info : ResourceInfo) (resource : String)
    (seen : List String) : Build.Appends (named id info resource seen args) := by
  induction args generalizing seen with
  | nil => exact .pure _
  | cons arg rest ih =>
    rw [named]
    split
    · exact .throw _
    · refine .guarded ?_
      split
      · exact .throw _
      · exact .bind (h arg List.mem_cons_self).operand fun p =>
          .bind (appends_checkType _ _ _ p) fun _ =>
            .bind (ih (fun a ha => h a (List.mem_cons_of_mem _ ha)) _) fun _ => .pure _

end Arguments

section Syntax

variable [Handling F Rule Form] {v : Vocabulary F Rule Form}

theorem appends_call (hv : v.OnlyAppends) {args : List (Argument Code)}
    (h : ∀ arg ∈ args, arg.Appends) : Build.Appends (workshop.call v t binding name args) := by
  rw [Workshop.call, Workshop.method]
  split
  · exact .guarded (.guarded (.emit _))
  · split
    · exact .throw _
    · exact .bind (appends_argumentList h _ _) fun _ => .emit _
    · next hlookup => exact hv _ _ _ _ hlookup _ h

mutual

theorem appends_compileExpr (hv : v.OnlyAppends) (scope : Option Ty) (e : Expr) :
    (v.compileExpr scope e).Appends := by
  cases e with
  | literal l => exact .bind (.ofExcept _) fun _ => .emit _
  | element =>
    rw [compileExpr_element]
    split
    · exact .pure _
    · exact .throw _
  | block body => exact .throw _
  | call receiver name args =>
    exact .bind (appends_compileExpr hv scope receiver) fun binding => .bind .get fun code =>
      appends_call hv (appends_args hv scope args)
  | root name args =>
    rw [compileExpr, Workshop.expr]
    refine .bind (.pure scope) fun scope' => ?_
    split
    · exact appends_call hv (appends_args hv scope args)
    · exact .bind (appends_constructible v name) fun info =>
        .bind (appends_named (appends_args hv scope args) info name []) fun _ => .emit _

theorem appends_args (hv : v.OnlyAppends) (scope : Option Ty) (args : List (Arg Expr)) :
    ∀ arg ∈ workshop.args v scope args, arg.Appends := by
  rcases args with _ | ⟨⟨name, value⟩, rest⟩
  · exact fun _ h => nomatch h
  · rw [Workshop.args]
    refine List.forall_mem_cons.mpr ⟨⟨?_, fun bound => ?_⟩, appends_args hv scope rest⟩
    · exact .operand value (appends_compileExpr hv scope value)
    · dsimp only
      split
      · exact .block bound _
      · exact .throw _

end

end Syntax

section Standard

variable {v : Vocabulary F} {scope : Option Ty} {args : Signature → Ty → Build (List Primitive)}

private theorem appends_emitList (v : Vocabulary F) (t : Ty) (binding : Ref) :
    (v.emitList t binding).Appends := by
  rw [emitList]
  split
  · exact .throw _
  · exact .bind (.emit _) fun _ => .pure _

private theorem appends_firstType (ps : List Primitive) : (firstType ps).Appends := by
  cases ps with
  | nil => exact .pure _
  | cons p rest => exact .operandType p

theorem special_emits (hargs : ∀ signature receiver, (args signature receiver).Appends)
    (form : SpecialForm) : (v.special form t binding name args).Emits := by
  cases form with
  | arrayContains =>
    simp only [special_arrayContains]
    exact .guarded (.bind (hargs _ _) fun ps => .bind (appends_firstType ps) fun _ =>
      .guarded (.emit _))
  | stringContains =>
    simp only [special_stringContains]
    refine .bind (hargs _ _) fun ps => .bind (appends_firstType ps) fun _ => ?_
    split
    · exact .emit _
    · exact .emit _
    · exact .throw _
  | listLength =>
    simp only [special_listLength]
    exact .bind (hargs _ _) fun _ => .bind (appends_emitList v t binding) fun _ => .emit _
  | listWhere =>
    simp only [special_listWhere]
    exact .bind (appends_emitList v t binding) fun _ => .bind (hargs _ _) fun _ => .emit _

/-- The functions in common use only append. -/
theorem onlyAppends (v : Vocabulary F) : v.OnlyAppends :=
  fun _ _ _ form _ _ h => (special_emits (fun _ _ => appends_argumentList h _ _) form).appends

private theorem method_emits (hargs : ∀ signature receiver, (args signature receiver).Appends)
    (count : Nat) : (v.method t binding name count args).Emits := by
  rw [method_eq]
  split
  · exact .guarded (.guarded (.emit _))
  · split
    · exact .throw _
    · exact .bind (hargs _ _) fun _ => .emit _
    · exact special_emits hargs _

private theorem appends_arguments (scope : Option Ty) (args : List (Arg Expr))
    (signature : Signature)
    (receiver : Ty) : (v.arguments scope name args signature receiver).Appends :=
  .bind (appends_checkCount _ _ _) fun _ =>
    appends_positional (appends_args v.onlyAppends scope args) _ _ _ _ _

private theorem compileExpr_emits (v : Vocabulary F) (scope : Option Ty) (e : Expr) :
    e = .element ∨ (v.compileExpr scope e).Emits := by
  cases e with
  | literal l =>
    rw [compileExpr_literal]
    exact .inr (.bind (.ofExcept _) fun _ => .emit _)
  | element => exact .inl rfl
  | block body => exact .inr (.throw _)
  | call receiver name args =>
    rw [compileExpr_call]
    exact .inr (.bind (appends_compileExpr v.onlyAppends scope receiver) fun binding =>
      .bind .get fun code => method_emits (appends_arguments scope args) _)
  | root name args =>
    rw [compileExpr_root]
    split
    · exact .inr (method_emits (appends_arguments scope args) _)
    · exact .inr (.bind (appends_constructible v name) fun info =>
        .bind (appends_named (appends_args v.onlyAppends scope args) info name []) fun _ => .emit _)

/-- What compiles is the element or has been appended last. -/
theorem compileExpr_last {e : Expr} {code code' : Code} {r : Ref}
    (h : (v.compileExpr scope e).Yields code r code') :
    (e = .element ∧ r = 1 ∧ code' = code) ∨
      (code.chunks.length < code'.chunks.length ∧ r = code'.lastRef) := by
  rcases compileExpr_emits v scope e with rfl | hemits
  · rw [compileExpr_element] at h
    split at h
    · obtain ⟨rfl, rfl⟩ := yields_pure.mp h
      exact .inl ⟨rfl, rfl, rfl⟩
    · exact absurd h not_yields_throw
  · exact .inr (hemits.last code r code' h)

end Standard

end Vocabulary

end AssetQuery
