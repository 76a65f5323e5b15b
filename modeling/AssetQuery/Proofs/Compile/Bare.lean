import AssetQuery.Proofs.Compile.Assembly
import AssetQuery.Proofs.Eval.Contract

/-!
# Compiled queries hold no resources

What is written in the chunks of a compiled query and of its blocks are texts, numbers and the like,
references and blocks, however long the query is. Resources only come from replies.
-/

namespace AssetQuery

open Build (yields_bind yields_pure yields_get yields_modify yields_emit yields_ofExcept
  yields_unless not_yields_throw)

variable {F α β : Type} {v : Vocabulary F} {scope : Option Ty} {code : Code}

namespace Primitive

theorem Constant.bare {p : Primitive} (h : p.Constant) : p.Bare :=
  fun _ _ hdata _ => h.toData_refers hdata

private theorem bare_ref (r : Ref) : (ref r).Bare := fun hne => absurd rfl hne

private theorem bare_function (k : Ref) : (function k).Bare :=
  fun _ _ hdata _ => toData_function_refers hdata

end Primitive

namespace Chunk

private theorem bare_ofPrimitive {p : Primitive} (h : p.Bare) : (ofPrimitive p).Bare := by
  refine ⟨?_, List.forall_mem_nil _⟩
  rintro _ _ ⟨⟩
  exact h

private theorem bare_property (name : String) (t : Ty) : (property name t).Bare :=
  ⟨nofun, List.forall_mem_nil _⟩

theorem bare_call {id : String} {t : Ty} {binding : Ref} {ps : List Primitive}
    (h : ∀ p ∈ ps, p.Bare) : (call id t binding ps).Bare := ⟨nofun, h⟩

end Chunk

namespace Code

/-- Whether the chunks of a code hold no resources, nor do those of the blocks in it. -/
inductive Unladen : Code → Prop
  | mk {code : Code} : (∀ c ∈ code.chunks, c.Bare) → (∀ block ∈ code.functions, block.Unladen) →
    Unladen code

theorem bare_unladen : Code.Bare Unladen where
  chunk _ _ _ h hc := by
    cases h with
    | mk hchunks _ => exact hchunks _ (mem_of_nth? hc)
  block _ _ _ h hblock := by
    cases h with
    | mk _ hfunctions => exact hfunctions _ (mem_of_nth? hblock)

namespace Unladen

theorem empty : Code.empty.Unladen := .mk (List.forall_mem_nil _) (List.forall_mem_nil _)

theorem addChunk (h : code.Unladen) {c : Chunk} (hc : c.Bare) : (code.addChunk c).Unladen := by
  cases h with
  | mk hchunks hfunctions =>
    exact .mk (List.forall_mem_append.mpr ⟨hchunks, List.forall_mem_singleton.mpr hc⟩) hfunctions

private theorem addFunction (h : code.Unladen) {block : Code} (hblock : block.Unladen) :
    (code.addFunction block).Unladen := by
  cases h with
  | mk hchunks hfunctions =>
    exact .mk hchunks
      (List.forall_mem_append.mpr ⟨hfunctions, List.forall_mem_singleton.mpr hblock⟩)

private theorem addEntrypoint (h : code.Unladen) (r : Ref) (label : String) :
    (code.addEntrypoint r label).Unladen := by
  cases h with
  | mk hchunks hfunctions => exact .mk hchunks hfunctions

private theorem blockStart (bound : Ty) : (Build.blockStart bound).Unladen := by
  cases empty.addChunk (Chunk.bare_property "_" bound) with
  | mk hchunks hfunctions => exact .mk hchunks hfunctions

private theorem stamp (h : code.Unladen) (digest : Digest) : (code.stamp digest).Unladen := by
  induction h with
  | @mk code hchunks _ ih =>
    obtain ⟨hsame, _, _, hfunctions⟩ := code.stamp_eq digest
    refine .mk (hsame ▸ hchunks) fun block hblock => ?_
    rw [hfunctions] at hblock
    obtain ⟨inner, hinner, rfl⟩ := List.mem_map.mp hblock
    exact ih inner hinner

end Unladen

end Code

/-- Whether a step of compilation adds only what holds no resources, and gives what is as stated. -/
def Build.AddsBare (x : Build α) (post : α → Prop) : Prop :=
  ∀ code a code', code.Unladen → x.Yields code a code' → code'.Unladen ∧ post a

namespace Build

variable {x : Build α} {P : α → Prop} {Q : β → Prop}

theorem addsBare_pure {a : α} (h : P a) : (pure a : Build α).AddsBare P := by
  intro code b code' hcode hb
  obtain ⟨rfl, rfl⟩ := yields_pure.mp hb
  exact ⟨hcode, h⟩

theorem addsBare_throw (e : CompileError) : (throw e : Build α).AddsBare P :=
  fun _ _ _ _ h => absurd h not_yields_throw

theorem AddsBare.bind {f : α → Build β} (hx : x.AddsBare P) (hf : ∀ a, P a → (f a).AddsBare Q) :
    (x >>= f).AddsBare Q := by
  intro code b code' hcode hb
  obtain ⟨a, mid, ha, hb⟩ := yields_bind.mp hb
  obtain ⟨hmid, hpost⟩ := hx code a mid hcode ha
  exact hf a hpost mid b code' hmid hb

theorem AddsBare.unless {p : Prop} [Decidable p] {e : CompileError} {f : β → Build α}
    (h : x.AddsBare P) : (if p then (throw e : Build β) >>= f else x).AddsBare P :=
  fun code a code' hcode ha => h code a code' hcode (yields_unless.mp ha).2

theorem addsBare_get {f : Code → Build β} (hf : ∀ code, (f code).AddsBare Q) :
    ((get : Build Code) >>= f).AddsBare Q := by
  intro code b code' hcode hb
  obtain ⟨found, _, hget, hb⟩ := yields_bind.mp hb
  obtain ⟨_, rfl⟩ := yields_get.mp hget
  exact hf found code b code' hcode hb

theorem addsBare_emit {c : Chunk} (hc : c.Bare) : (emit c).AddsBare fun _ => True := by
  intro code r code' hcode hr
  obtain ⟨rfl, _⟩ := yields_emit.mp hr
  exact ⟨hcode.addChunk hc, trivial⟩

theorem addsBare_literal (l : Literal) :
    (MonadExcept.ofExcept l.toPrimitive : Build Primitive).AddsBare Primitive.Bare := by
  intro code p code' hcode hp
  obtain ⟨hl, rfl⟩ := yields_ofExcept.mp hp
  exact ⟨hcode, (Literal.constant_of_toPrimitive hl).bare⟩

private theorem addsBare_addEntrypoint (r : Ref) (label : String) :
    (modify fun code => code.addEntrypoint r label : Build PUnit).AddsBare fun _ => True := by
  intro code _ code' hcode h
  obtain rfl := yields_modify.mp h
  exact ⟨hcode.addEntrypoint r label, trivial⟩

private theorem addsBare_block (bound : Ty) {body : Build Unit} (h : body.AddsBare fun _ => True) :
    (block bound body).AddsBare Primitive.Bare := by
  intro code p code' hcode hp
  obtain ⟨function, hbody, rfl, rfl⟩ := yields_block.mp hp
  obtain ⟨hfunction, _⟩ := h _ () function (.blockStart bound) hbody
  exact ⟨hcode.addFunction hfunction, Primitive.bare_function _⟩

theorem addsBare_operand (value : Expr) {compiled : Build Ref}
    (h : compiled.AddsBare fun _ => True) : (operand value compiled).AddsBare Primitive.Bare := by
  have hreference : (do return .ref (← compiled) : Build Primitive).AddsBare Primitive.Bare :=
    h.bind fun r _ => addsBare_pure (Primitive.bare_ref r)
  cases value with
  | literal l => exact addsBare_literal l
  | block => exact addsBare_throw _
  | root => exact hreference
  | call => exact hreference
  | element => exact hreference

end Build

namespace Vocabulary

open Build (addsBare_pure addsBare_throw addsBare_get addsBare_emit)

section Calls

variable {args : Signature → Ty → Build (List Primitive)} {t : Ty} {binding : Ref} {name : String}

private theorem emitList_addsBare : (v.emitList t binding).AddsBare fun _ => True := by
  rw [emitList]
  split
  · exact addsBare_throw _
  · exact (addsBare_emit (Chunk.bare_call (List.forall_mem_nil _))).bind fun _ _ =>
      addsBare_pure trivial

private theorem firstType_addsBare (ps : List Primitive) :
    (firstType ps).AddsBare fun _ => True := by
  cases ps with
  | nil => exact addsBare_pure trivial
  | cons p rest => exact addsBare_get fun _ => addsBare_pure trivial

variable (hargs : ∀ signature receiver,
  (args signature receiver).AddsBare fun ps => ∀ p ∈ ps, p.Bare)

include hargs

private theorem special_addsBare (form : SpecialForm) :
    (v.special form t binding name args).AddsBare fun _ => True := by
  have hcall (function : String) (u : Ty) (receiver : Ref) {ps : List Primitive}
      (hps : ∀ p ∈ ps, p.Bare) :
      (Build.emit (.call function u receiver ps)).AddsBare fun _ => True :=
    addsBare_emit (Chunk.bare_call hps)
  cases form with
  | arrayContains =>
    simp only [special_arrayContains]
    exact ((hargs _ _).bind fun ps hps => (firstType_addsBare ps).bind fun _ _ =>
      (hcall _ _ _ hps).unless).unless
  | stringContains =>
    simp only [special_stringContains]
    refine (hargs _ _).bind fun ps hps => (firstType_addsBare ps).bind fun _ _ => ?_
    split
    · exact hcall _ _ _ hps
    · exact hcall _ _ _ hps
    · exact addsBare_throw _
  | listLength =>
    simp only [special_listLength]
    exact (hargs _ _).bind fun _ _ => emitList_addsBare.bind fun _ _ =>
      hcall _ _ _ (List.forall_mem_nil _)
  | listWhere =>
    simp only [special_listWhere]
    exact emitList_addsBare.bind fun _ _ => (hargs _ _).bind fun _ hps => hcall _ _ _ hps

private theorem method_addsBare (count : Nat) :
    (v.method t binding name count args).AddsBare fun _ => True := by
  rw [method_eq]
  split
  · exact (addsBare_emit (Chunk.bare_call (List.forall_mem_nil _))).unless.unless
  · split
    · exact addsBare_throw _
    · exact (hargs _ _).bind fun _ hps => addsBare_emit (Chunk.bare_call hps)
    · exact special_addsBare hargs _

end Calls

private theorem checkCount_addsBare (function : String) (signature : Signature) (count : Nat) :
    (checkCount function signature count).AddsBare fun _ => True := by
  rw [checkCount]
  split
  · exact addsBare_throw _
  · exact addsBare_pure trivial

theorem checkType_addsBare (function : String) (position : Nat) (expected : Ty) (p : Primitive) :
    (checkType function position expected p).AddsBare fun _ => True := by
  intro code _ code' hcode h
  obtain ⟨_, rfl⟩ := yields_checkType.mp h
  exact ⟨hcode, trivial⟩

private theorem constructible_addsBare (name : String) :
    (v.constructible name).AddsBare fun _ => True := by
  rw [constructible]
  split
  · split
    · exact addsBare_throw _
    · exact addsBare_pure trivial
  · exact addsBare_throw _

end Vocabulary

namespace Expr

open Build (addsBare_pure addsBare_throw addsBare_get addsBare_emit addsBare_literal
  addsBare_operand addsBare_block addsBare_addEntrypoint)
open Vocabulary (checkCount_addsBare checkType_addsBare constructible_addsBare method_addsBare)

/-- Whether compilation of an expression adds only what holds no resources. -/
def AddsBare (v : Vocabulary F) (e : Expr) : Prop :=
  ∀ scope, (v.compileExpr scope e).AddsBare fun _ => True

theorem compileBody_addsBare {body : List Expr}
    (h : ∀ e : Expr, e.size ≤ bodySize body → e.AddsBare v) :
    (v.compileBody scope body).AddsBare fun _ => True := by
  induction body with
  | nil =>
    rw [Vocabulary.compileBody_nil]
    exact addsBare_pure trivial
  | cons e rest ih =>
    have hsize : bodySize (e :: rest) = e.size + bodySize rest := by rw [bodySize]
    rw [Vocabulary.compileBody_cons]
    exact (h e (by omega) scope).bind fun r _ => (addsBare_addEntrypoint r e.label).bind fun _ _ =>
      ih fun f hf => h f (by omega)

private theorem compileArg_addsBare {value : Expr}
    (h : ∀ e : Expr, e.size ≤ value.size → e.AddsBare v) (receiver expected : Ty) :
    (v.compileArg scope receiver value expected).AddsBare Primitive.Bare := by
  have hoperand : (Build.operand value (v.compileExpr scope value)).AddsBare Primitive.Bare :=
    addsBare_operand value (h value (Nat.le_refl _) scope)
  cases value with
  | block body =>
    have hsize : (block body).size = bodySize body + 1 := by rw [size]
    cases expected with
    | functionLike =>
      exact addsBare_block _ (compileBody_addsBare fun f hf => h f (by omega))
    | _ => exact hoperand
  | _ => exact hoperand

section Arguments

variable {name : String} {args : List (Arg Expr)}
  (h : ∀ e : Expr, e.size ≤ argsSize args → e.AddsBare v)

include h

private theorem compileArgs_addsBare (required : Nat) (receiver : Ty) (declared : List Ty)
    (position : Nat) :
    (v.compileArgs scope name required receiver args declared position).AddsBare
      fun ps => ∀ p ∈ ps, p.Bare := by
  induction args generalizing declared position with
  | nil =>
    cases declared with
    | nil =>
      rw [Vocabulary.compileArgs_done]
      exact addsBare_pure (List.forall_mem_nil _)
    | cons expected declared =>
      rw [Vocabulary.compileArgs_nil]
      split
      · exact addsBare_throw _
      · exact addsBare_pure (List.forall_mem_nil _)
  | cons arg rest ih =>
    obtain ⟨key, value⟩ := arg
    cases declared with
    | nil =>
      rw [Vocabulary.compileArgs_done]
      exact addsBare_pure (List.forall_mem_nil _)
    | cons expected declared =>
      cases key with
      | some key =>
        rw [Vocabulary.compileArgs_named]
        exact (addsBare_throw (P := fun _ => False) _).bind fun _ h => h.elim
      | none =>
        have hsize : argsSize (⟨none, value⟩ :: rest) = value.size + argsSize rest := by
          rw [argsSize]
        rw [Vocabulary.compileArgs_cons]
        exact (compileArg_addsBare (fun f hf => h f (by omega)) receiver expected).bind fun p hp =>
          (checkType_addsBare _ _ _ p).bind fun _ _ =>
            (ih (fun f hf => h f (by omega)) declared (position + 1)).bind fun ps hps =>
              addsBare_pure (List.forall_mem_cons.mpr ⟨hp, hps⟩)

private theorem compileNamedArgs_addsBare (info : ResourceInfo) (resource : String)
    (seen : List String) :
    (v.compileNamedArgs scope info resource seen args).AddsBare fun ps => ∀ p ∈ ps, p.Bare := by
  induction args generalizing seen with
  | nil =>
    rw [Vocabulary.compileNamedArgs_nil]
    exact addsBare_pure (List.forall_mem_nil _)
  | cons arg rest ih =>
    obtain ⟨key, value⟩ := arg
    cases key with
    | none =>
      rw [Vocabulary.compileNamedArgs_unnamed]
      exact addsBare_throw _
    | some key =>
      have hsize : argsSize (⟨some key, value⟩ :: rest) = value.size + argsSize rest := by
        rw [argsSize]
      have hname : (Primitive.string key).Bare := Primitive.Constant.bare (.flat rfl)
      rw [Vocabulary.compileNamedArgs_cons]
      refine Build.AddsBare.unless ?_
      split
      · exact addsBare_throw _
      · exact (addsBare_operand value (h value (by omega) scope)).bind fun p hp =>
          (checkType_addsBare _ _ _ p).bind fun _ _ =>
            (ih (fun f hf => h f (by omega)) _).bind fun ps hps => addsBare_pure
              (List.forall_mem_cons.mpr ⟨hname, List.forall_mem_cons.mpr ⟨hp, hps⟩⟩)

private theorem fill_addsBare (signature : Signature) (receiver : Ty) :
    (do Vocabulary.checkCount name signature args.length
        v.compileArgs scope name signature.required receiver args signature.args 1 :
      Build (List Primitive)).AddsBare fun ps => ∀ p ∈ ps, p.Bare :=
  (checkCount_addsBare _ _ _).bind fun _ _ => compileArgs_addsBare h _ receiver _ 1

end Arguments

private theorem addsBare (v : Vocabulary F) (e : Expr) : e.AddsBare v := by
  -- by size, since the expressions in the blocks of a call are two levels below it
  induction hsize : e.size using Nat.strongRecOn generalizing e with
  | _ n ih =>
    subst hsize
    have hlower (args : List (Arg Expr)) (hlt : argsSize args < e.size) (f : Expr)
        (hf : f.size ≤ argsSize args) : f.AddsBare v := ih _ (by omega) f rfl
    intro scope
    cases e with
    | literal l =>
      rw [Vocabulary.compileExpr_literal]
      exact (addsBare_literal l).bind fun _ hp => addsBare_emit (Chunk.bare_ofPrimitive hp)
    | element =>
      rw [Vocabulary.compileExpr_element]
      split
      · exact addsBare_pure trivial
      · exact addsBare_throw _
    | block body =>
      rw [Vocabulary.compileExpr_block]
      exact addsBare_throw _
    | root name args =>
      have hargs := hlower args (by rw [size]; omega)
      rw [Vocabulary.compileExpr_root]
      split
      · exact method_addsBare (fill_addsBare hargs) _
      · exact (constructible_addsBare name).bind fun info _ =>
          (compileNamedArgs_addsBare hargs info name []).bind fun _ hps =>
            addsBare_emit (Chunk.bare_call hps)
    | call receiver name args =>
      have hargs := hlower args (by rw [size]; omega)
      have hreceiver := ih receiver.size (by rw [size]; omega) receiver rfl scope
      rw [Vocabulary.compileExpr_call]
      exact hreceiver.bind fun _ _ => addsBare_get fun _ =>
        method_addsBare (fill_addsBare hargs) _

end Expr

namespace Vocabulary

variable {digest : Digest}

theorem unladen_of_compile {query : List Expr} (h : v.compile digest query = .ok code) :
    code.Unladen := by
  rw [compile] at h
  split at h
  · next built hbuilt =>
    obtain rfl := Except.ok.inj h
    have hbody : (v.compileBody none query).AddsBare fun _ => True :=
      Expr.compileBody_addsBare fun e _ => e.addsBare v
    exact (hbody .empty () built .empty hbuilt).1.stamp digest
  · cases h

private theorem Compiled.unladen (h : v.Compiled digest code) : code.Unladen := by
  induction h with
  | query _ h => exact unladen_of_compile h
  | block _ hblock ih =>
    cases ih with
    | mk _ hfunctions => exact hfunctions _ hblock

theorem bare_compiled (v : Vocabulary F) (digest : Digest) : Code.Bare (v.Compiled digest) where
  chunk code r c h hc := Code.bare_unladen.chunk code r c h.unladen hc
  block _ _ _ h hblock := .block h (mem_of_nth? hblock)

end Vocabulary

end AssetQuery
