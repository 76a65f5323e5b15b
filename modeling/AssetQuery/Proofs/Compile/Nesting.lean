import AssetQuery.Proofs.Compile.Appends
import Mathlib.Data.List.Forall2

/-!
# Blocks under construction

A compiler with a single code under construction sets that aside when it comes to a block, and goes
back to it when the block is done or has failed. In between it keeps the codes set aside on a stack.
What it does to the code under construction is what compilation does, and the stack ends up as it
was.
-/

namespace AssetQuery

variable {F α β : Type}

/-- What a block under construction is inside of: the code that is set aside for it. The block is
about an element of type `bound`. -/
structure Enclosure where
  outside : Code
  bound : Ty

/-- The state of a compiler: the code under construction, and the blocks that it is inside of, the
innermost first. -/
structure Site where
  code : Code
  blocks : List Enclosure

/-- The type of the element of the innermost block. -/
def Site.scope (site : Site) : Option Ty := site.blocks.head?.map (·.bound)

/-- A step of a compiler, which leaves its state behind also when it fails. -/
abbrev Construction (α : Type) := ExceptT CompileError (StateM Site) α

namespace Construction

/-- Works on the code under construction. -/
def step (x : Build α) : Construction α := fun site =>
  let (reply, code) := x site.code
  (reply, { site with code })

/-- The type of the element, if construction is inside a block. -/
def scope : Construction (Option Ty) := return (← get).scope

/-- Sets the code under construction aside for that of a block. -/
def enter (bound : Ty) : Construction Unit :=
  modify fun site => ⟨Build.blockStart bound, ⟨site.code, bound⟩ :: site.blocks⟩

/-- Takes the code under construction away and goes back to the one set aside for it. -/
def leave : Construction Code := do
  let site ← get
  match site.blocks with
  | [] => set { site with code := Code.empty }
  | block :: rest => set (⟨block.outside, rest⟩ : Site)
  return site.code

/-- Compiles the body of a block. The block is left also if that fails. -/
def block (bound : Ty) (body : Construction Unit) : Construction Primitive := do
  enter bound
  let reply ← ExceptT.lift body.run
  let function ← leave
  -- only now, with the code outside in its place again, may the failure of the body be passed on
  MonadExcept.ofExcept reply
  step do
    modify fun code => code.addFunction function
    return .function (← get).lastFunction

def operand (value : Expr) (compiled : Construction Ref) : Construction Primitive :=
  Compiling.operand value compiled

/-- A compiler that keeps codes aside. It reads the type of the element off the blocks. -/
def workshop : Workshop F ResultRule SpecialForm Site Unit where
  step := step
  scope? _ := scope
  block _ bound body := block bound (body ())
  result := ResultRule.apply
  special v form call := v.specialCall step form call.receiver call.binding call.name
    (v.argumentList step call.name call.args)

end Construction

namespace Vocabulary

/-- Appends the chunks of an expression and gives the number of the chunk that stands for it. -/
def constructExpr (v : Vocabulary F) (e : Expr) : Construction Ref :=
  Construction.workshop.expr v () e

/-- Compiles expressions, each to an entry point under its label. -/
def constructBody (v : Vocabulary F) (body : List Expr) : Construction Unit :=
  Construction.workshop.body v () body

/-- Compiles the arguments of a call for a signature and a type of receiver. -/
def constructArguments (v : Vocabulary F) (function : String) (args : List (Arg Expr)) :
    Signature → Ty → Construction (List Primitive) :=
  v.argumentList Construction.step function (Construction.workshop.args v () args)

/-- Compiles a query from the start, inside no block. -/
def construct (v : Vocabulary F) (digest : Digest) (query : List Expr) :
    Except CompileError Code :=
  match v.constructBody query ⟨.empty, []⟩ with
  | (.ok (), site) => .ok (site.code.stamp digest)
  | (.error e, _) => .error e

end Vocabulary

namespace Construction

/-- The outcome of a step in a state, and the state that it leaves behind. -/
def outcome (x : Construction α) (site : Site) : Except CompileError α × Site := x site

theorem outcome_bind (x : Construction α) (f : α → Construction β) (site : Site) :
    (x >>= f).outcome site =
      match x.outcome site with
      | (.ok a, mid) => (f a).outcome mid
      | (.error e, mid) => (.error e, mid) := by
  show (match x.outcome site with | (a, mid) => ExceptT.bindCont f a mid) = _
  rcases x.outcome site with ⟨_ | a, mid⟩
  · rfl
  · rfl

private theorem outcome_enter (bound : Ty) (site : Site) :
    (enter bound).outcome site =
      (.ok (), ⟨Build.blockStart bound, ⟨site.code, bound⟩ :: site.blocks⟩) := rfl

theorem outcome_lift_run (x : Construction α) (site : Site) :
    outcome (ExceptT.lift x.run) site = (.ok (x.outcome site).1, (x.outcome site).2) := rfl

/-- What is left is the block that was entered last. -/
theorem outcome_leave (code : Code) (block : Enclosure) (rest : List Enclosure) :
    leave.outcome ⟨code, block :: rest⟩ = (.ok code, ⟨block.outside, rest⟩) := rfl

/-- Whether a step, in a scope, does to the code under construction what a step of compilation does
to it, and to the blocks that this is inside of nothing. -/
def Mirrors (scope : Option Ty) (x : Construction α) (y : Build α) : Prop :=
  ∀ site : Site, site.scope = scope →
    x.outcome site = ((y.outcome site.code).1, ⟨(y.outcome site.code).2, site.blocks⟩)

namespace Mirrors

variable {scope : Option Ty} {x : Construction α} {y : Build α}

theorem pure (a : α) : Mirrors scope (Pure.pure a) (Pure.pure a) := fun _ _ => rfl

theorem throw (e : CompileError) :
    Mirrors scope (MonadExcept.throw e : Construction α) (MonadExcept.throw e) := fun _ _ => rfl

theorem step (y : Build α) : Mirrors scope (Construction.step y) y := fun _ _ => rfl

private theorem ofExcept (reply : Except CompileError α) :
    Mirrors scope (MonadExcept.ofExcept reply) (MonadExcept.ofExcept reply) := by
  cases reply with
  | ok a => exact .pure a
  | error e => exact .throw e

theorem bind {f : α → Construction β} {g : α → Build β} (hx : Mirrors scope x y)
    (hf : ∀ a, Mirrors scope (f a) (g a)) : Mirrors scope (x >>= f) (y >>= g) := by
  intro site hscope
  rw [outcome_bind, hx site hscope, Build.outcome_bind]
  rcases y.outcome site.code with ⟨e | a, mid⟩
  · rfl
  · -- the first step has left the blocks, so the second runs in the same scope
    exact hf a ⟨mid, site.blocks⟩ hscope

theorem throw_bind (e : CompileError) (f : α → Construction β) (g : α → Build β) :
    Mirrors scope ((MonadExcept.throw e : Construction α) >>= f)
      ((MonadExcept.throw e : Build α) >>= g) := fun _ _ => rfl

theorem guarded {p : Prop} [Decidable p] (e : CompileError) {f : α → Construction β}
    {g : α → Build β} {x : Construction β} {y : Build β} (hx : Mirrors scope x y) :
    Mirrors scope (if p then (MonadExcept.throw e : Construction α) >>= f else x)
      (if p then (MonadExcept.throw e : Build α) >>= g else y) := by
  by_cases hp : p
  · rw [if_pos hp, if_pos hp]
    exact .throw_bind e f g
  · rw [if_neg hp, if_neg hp]
    exact hx

theorem work (x : Build α) :
    Mirrors scope ((workshop : Workshop F _ _ _ _).step x)
      ((Vocabulary.workshop : Workshop F ResultRule SpecialForm _ _).step x) := fun _ _ => rfl

private theorem scope? : Mirrors scope ((workshop : Workshop F _ _ _ _).scope? ())
    ((Vocabulary.workshop : Workshop F ResultRule SpecialForm _ _).scope? scope) := by
  rintro site rfl
  rfl

/-- In a block the scope is its own; once it is left everything is as it was. -/
theorem block {bound : Ty} {body : Construction Unit} {compiled : Build Unit}
    (h : Mirrors (some bound) body compiled) :
    Mirrors scope (Construction.block bound body) (Build.block bound compiled) := by
  intro site _
  have hbody := h ⟨Build.blockStart bound, ⟨site.code, bound⟩ :: site.blocks⟩ rfl
  rw [Construction.block, outcome_bind, outcome_enter, Build.outcome_block]
  simp only [outcome_bind, outcome_lift_run, hbody, outcome_leave]
  rcases compiled.outcome (Build.blockStart bound) with ⟨e | _, function⟩
  · rfl
  · rfl

theorem operand (value : Expr) {compiled : Construction Ref} {compiled' : Build Ref}
    (h : Mirrors scope compiled compiled') :
    Mirrors scope (Compiling.operand value compiled) (Compiling.operand value compiled') := by
  cases value with
  | literal l => exact .ofExcept _
  | block body => exact .throw _
  | _ => exact .bind h fun r => .pure _

end Mirrors

end Construction

open Construction (step Mirrors)

structure Argument.Mirrors (scope : Option Ty) (arg : Argument Site) (arg' : Argument Code) :
    Prop where
  name : arg.name = arg'.name
  value : arg.value = arg'.value
  operand : Construction.Mirrors scope arg.operand arg'.operand
  block : ∀ bound, Construction.Mirrors scope (arg.block bound) (arg'.block bound)

namespace Vocabulary

variable {v : Vocabulary F} {scope : Option Ty} {t : Ty} {binding : Ref} {name : String}

section Calls

variable {args : Signature → Ty → Construction (List Primitive)}
  {args' : Signature → Ty → Build (List Primitive)}
  (hargs : ∀ signature receiver, Mirrors scope (args signature receiver) (args' signature receiver))

include hargs

private theorem special_mirrors (form : SpecialForm) :
    Mirrors scope (v.specialCall step form t binding name args)
      (v.special form t binding name args') := by
  cases form with
  | arrayContains =>
    simp only [special_arrayContains, specialCall]
    exact .guarded _ (.bind (hargs _ _) fun ps => .bind (.step _) fun found =>
      .guarded _ (.step _))
  | stringContains =>
    simp only [special_stringContains, specialCall]
    refine .bind (hargs _ _) fun ps => .bind (.step _) fun found => ?_
    cases found with
    | string => exact .step _
    | array elem =>
      cases elem with
      | string => exact .step _
      | _ => exact .throw _
    | _ => exact .throw _
  | listLength =>
    simp only [special_listLength, specialCall]
    exact .bind (hargs _ _) fun _ => .bind (.step _) fun _ => .step _
  | listWhere =>
    simp only [special_listWhere, specialCall]
    exact .bind (.step _) fun _ => .bind (hargs _ _) fun _ => .step _

end Calls

section Arguments

variable {args : List (Argument Site)} {args' : List (Argument Code)}

private theorem argument_mirrors {arg : Argument Site} {arg' : Argument Code}
    (h : arg.Mirrors scope arg') (receiver expected : Ty) :
    Mirrors scope (arg.compile v receiver expected) (arg'.compile v receiver expected) := by
  unfold Argument.compile
  rw [h.value]
  split
  · exact h.block _
  · exact h.operand

private theorem positional_mirrors (h : List.Forall₂ (Argument.Mirrors scope) args args')
    (function : String) (required : Nat) (receiver : Ty) (declared : List Ty) (position : Nat) :
    Mirrors scope (v.positional step function required receiver args declared position)
      (v.positional id function required receiver args' declared position) := by
  induction h generalizing declared position with
  | nil =>
    cases declared with
    | nil => exact .pure _
    | cons expected declared =>
      rw [positional, positional]
      split
      · exact .throw _
      · exact .pure _
  | cons harg _ ih =>
    cases declared with
    | nil => exact .pure _
    | cons expected declared =>
      rw [positional, positional, harg.name]
      split
      · exact .throw_bind _ _ _
      · exact .bind (argument_mirrors harg receiver expected) fun p => .bind (.step _) fun _ =>
          .bind (ih declared _) fun _ => .pure _

theorem argumentList_mirrors (h : List.Forall₂ (Argument.Mirrors scope) args args')
    (function : String) (signature : Signature) (receiver : Ty) :
    Mirrors scope (v.argumentList step function args signature receiver)
      (v.argumentList id function args' signature receiver) := by
  rw [argumentList, argumentList, h.length_eq]
  exact .bind (.step _) fun _ => positional_mirrors h _ _ _ _ _

private theorem named_mirrors (h : List.Forall₂ (Argument.Mirrors scope) args args')
    (info : ResourceInfo) (resource : String) (seen : List String) :
    Mirrors scope (named step info resource seen args) (named id info resource seen args') := by
  induction h generalizing seen with
  | nil => exact .pure _
  | cons harg _ ih =>
    rw [named, named, harg.name]
    split
    · exact .throw _
    · refine .guarded _ ?_
      split
      · exact .throw _
      · exact .bind harg.operand fun p => .bind (.step _) fun _ => .bind (ih _) fun _ => .pure _

private theorem call_mirrors (h : List.Forall₂ (Argument.Mirrors scope) args args') :
    Mirrors scope (Construction.workshop.call v t binding name args)
      (workshop.call v t binding name args') := by
  have hargs := argumentList_mirrors (v := v) h name
  rw [Workshop.call, Workshop.call, Workshop.method, Workshop.method, h.length_eq]
  cases v.field? t name with
  | some field => exact .guarded _ (.guarded _ (.work _))
  | none =>
    rcases v.builtins.lookup? t name with _ | ⟨signature, result | form⟩
    · exact .throw _
    · exact .bind (hargs _ _) fun _ => .work _
    · exact special_mirrors hargs form

end Arguments

mutual

private theorem compileExpr_mirrors (v : Vocabulary F) (scope : Option Ty) (e : Expr) :
    Mirrors scope (v.constructExpr e) (v.compileExpr scope e) := by
  cases e with
  | literal l => exact .work _
  | element =>
    refine .bind .scope? fun found => ?_
    split
    · exact .pure _
    · exact .throw _
  | block body => exact .throw _
  | call receiver name args =>
    exact .bind (compileExpr_mirrors v scope receiver) fun binding => .bind (.work _) fun code =>
      call_mirrors (args_mirrors v scope args)
  | root name args =>
    rw [constructExpr, compileExpr, Workshop.expr, Workshop.expr]
    refine .bind .scope? fun found => ?_
    split
    · exact call_mirrors (args_mirrors v scope args)
    · exact .bind (.work _) fun info =>
        .bind (named_mirrors (args_mirrors v scope args) info name []) fun _ => .work _

private theorem args_mirrors (v : Vocabulary F) (scope : Option Ty) (args : List (Arg Expr)) :
    List.Forall₂ (Argument.Mirrors scope) (Construction.workshop.args v () args)
      (workshop.args v scope args) := by
  rcases args with _ | ⟨⟨name, value⟩, rest⟩
  · exact .nil
  · rw [Workshop.args, Workshop.args]
    refine .cons ⟨rfl, rfl, ?_, fun bound => ?_⟩ (args_mirrors v scope rest)
    · exact .operand value (compileExpr_mirrors v scope value)
    · dsimp only
      split
      · exact .block (compileBody_mirrors v (some bound) _)
      · exact .throw _

theorem compileBody_mirrors (v : Vocabulary F) (scope : Option Ty) (body : List Expr) :
    Mirrors scope (v.constructBody body) (v.compileBody scope body) := by
  cases body with
  | nil => exact .pure _
  | cons e rest =>
    exact .bind (compileExpr_mirrors v scope e) fun r => .bind (.work _) fun _ =>
      compileBody_mirrors v scope rest

end

private theorem construct_eq_compile (v : Vocabulary F) (digest : Digest) (query : List Expr) :
    v.construct digest query = v.compile digest query := by
  have hbody : v.constructBody query ⟨.empty, []⟩ =
      ((v.compileBody none query Code.empty).1, ⟨(v.compileBody none query Code.empty).2, []⟩) :=
    compileBody_mirrors v none query ⟨.empty, []⟩ rfl
  rw [construct, hbody, compile]
  rcases v.compileBody none query Code.empty with ⟨_ | _, code⟩
  · rfl
  · rfl

end Vocabulary

/-- Whether a step, in whatever state it starts and whether it succeeds or fails, leaves the blocks
that construction is inside of as they are, and only appends to the code under construction. -/
def Construction.Appends (x : Construction α) : Prop :=
  ∀ site, (x.outcome site).2.blocks = site.blocks ∧
    site.code.Continues (x.outcome site).2.code

private theorem Construction.Appends.of_mirrors {x : Construction α} {y : Option Ty → Build α}
    (h : ∀ scope, Mirrors scope x (y scope)) (hy : ∀ scope, (y scope).Appends) : x.Appends := by
  intro site
  rw [h site.scope site rfl]
  exact ⟨rfl, hy site.scope site.code⟩

namespace Vocabulary

open Construction (Mirrors)

/-- Compilation only appends, also when it fails: an expression, be it a call on a receiver or at
the root, an operand, the arguments of a call and a block leave the blocks that they are inside of
as they are, and the code under construction as it was but for chunks and blocks behind those that
there were. What an expression gives is 1 if it is the element, and else the last chunk, which it
has appended. So it is for compilation itself, which does the same with no stack of its own. -/
theorem construct_appends (v : Vocabulary F) :
    (∀ e, (v.constructExpr e).Appends) ∧
    (∀ value, (Construction.operand value (v.constructExpr value)).Appends) ∧
    (∀ function args signature receiver,
      (v.constructArguments function args signature receiver).Appends) ∧
    (∀ bound body, (Construction.block bound (v.constructBody body)).Appends) ∧
    (∀ e site r after, (v.constructExpr e).outcome site = (.ok r, after) →
      (e = .element ∧ r = 1 ∧ after = site) ∨
        (site.code.chunks.length < after.code.chunks.length ∧ r = after.code.lastRef)) ∧
    (∀ e scope, Mirrors scope (v.constructExpr e) (v.compileExpr scope e)) ∧
    ∀ digest query, v.construct digest query = v.compile digest query := by
  refine ⟨fun e => ?_, fun value => ?_, fun function args signature receiver => ?_,
    fun bound body => ?_, fun e site r after h => ?_, fun e scope => compileExpr_mirrors v scope e,
    construct_eq_compile v⟩
  · exact .of_mirrors (compileExpr_mirrors v · e) (appends_compileExpr v.onlyAppends · e)
  · exact .of_mirrors (fun scope => .operand value (compileExpr_mirrors v scope value))
      (fun scope => .operand value (appends_compileExpr v.onlyAppends scope value))
  · exact .of_mirrors
      (fun scope => argumentList_mirrors (args_mirrors v scope args) function signature receiver)
      fun scope => appends_argumentList (appends_args v.onlyAppends scope args) signature receiver
  · exact .of_mirrors (fun _ => .block (compileBody_mirrors v _ body)) fun _ => .block bound _
  · rw [compileExpr_mirrors v site.scope e site rfl] at h
    obtain ⟨hreply, rfl⟩ := Prod.mk.inj h
    rcases compileExpr_last (Prod.ext hreply rfl) with ⟨rfl, hr, hcode⟩ | hlast
    · exact .inl ⟨rfl, hr, congrArg (Site.mk · site.blocks) hcode⟩
    · exact .inr hlast

/-- Inside a block about lists, which is inside a code with a chunk. -/
def nestedSite : Site :=
  ⟨Build.blockStart (.array .int), [⟨Code.empty.addChunk (.property "p" .int), .array .int⟩]⟩

theorem construct_appends_nested :
    ∃ after : Site,
      ((⟨.empty, .standard⟩ : Vocabulary Unit).constructExpr (.call .element "length" [])).outcome
        nestedSite = (.ok 2, after) ∧
      after.blocks = nestedSite.blocks ∧ nestedSite.code.Continues after.code ∧
      after.code.lastRef = 2 := by
  obtain ⟨happends, _, _, _, hlast, _⟩ := construct_appends (⟨.empty, .standard⟩ : Vocabulary Unit)
  have hrun : ((⟨.empty, .standard⟩ : Vocabulary Unit).constructExpr
      (.call .element "length" [])).outcome nestedSite =
      (.ok 2, { nestedSite with
        code := nestedSite.code.addChunk (.call "length" .int 1 []) }) := rfl
  obtain ⟨hblocks, hcontinues⟩ := happends (.call .element "length" []) nestedSite
  rw [hrun] at hblocks hcontinues
  rcases hlast _ nestedSite 2 _ hrun with ⟨helement, _⟩ | ⟨_, hr⟩
  · cases helement
  · exact ⟨_, hrun, hblocks, hcontinues, hr.symm⟩

/-- A block that fails inside another leaves nothing but the list that the outer one is called on.
-/
example :
    let list : Expr := .literal (.array [.int 1])
    let failing : Expr := .call list "where" [⟨none, .block [.root "x" []]⟩]
    let step := (⟨.empty, .standard⟩ : Vocabulary Unit).constructExpr
      (.call list "where" [⟨none, .block [failing]⟩])
    let after := step.outcome ⟨.empty, []⟩
    after.1.toOption.isNone ∧ after.2.blocks.isEmpty ∧ after.2.code.chunks.length = 1 := by
  decide

end Vocabulary

end AssetQuery
