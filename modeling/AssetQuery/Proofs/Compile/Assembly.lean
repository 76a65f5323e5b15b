import AssetQuery.Expr.Evaluate
import AssetQuery.Proofs.Compile.Assembled

/-!
# Compilation assembles codes

Whatever the resources and the built-in functions are, each step of compilation goes from an
assembled code to another, and the number that it gives for an expression is that of a chunk.
-/

namespace AssetQuery

open Build (yields_bind yields_pure yields_get yields_modify yields_emit yields_ofExcept
  yields_unless not_yields_throw)

variable {F : Type} {v : Vocabulary F} {roots : Prop} {scope : Option Ty} {code mid code' : Code}
  {r : Ref}

theorem Appends.then_emit {most : Nat} (h : Appends v roots scope most code mid) {c : Chunk}
    (hc : mid.Admits v roots c) (hroom : code.Room (most + 1))
    (hemit : (Build.emit c).Yields mid r code') :
    Places v roots scope (most + 1) code r code' :=
  (Places.emit h.assembled hc (hroom.of_grows h.grows) hemit).1.after h

namespace Vocabulary

section Method

variable {most : Nat} {args : Signature → Ty → Build (List Primitive)} {t : Ty} {binding : Ref}
  {name : String}

/-- What the arguments of a call do to a code where there is room for them. -/
def Fill (v : Vocabulary F) (roots : Prop) (scope : Option Ty) (most : Nat)
    (args : Signature → Ty → Build (List Primitive)) : Prop :=
  ∀ signature receiver code ps code', code.Assembled v roots scope → code.Room most →
    (args signature receiver).Yields code ps code' →
    Appends v roots scope most code code' ∧ code'.Supplies v receiver signature ps

private theorem emitList_places (hcode : code.Assembled v roots scope)
    (hbinding : code.HasType binding t)
    (hroom : code.Room 1) {signature : Signature} {form : SpecialForm}
    (hlookup : v.builtins.lookup? t name = some ⟨signature, .special form⟩)
    (hform : form = .listLength ∨ form = .listWhere) {u : Ty}
    (h : (v.emitList t binding).Yields code (r, u) code') :
    ∃ elem, u = .array elem ∧ Appends v roots scope 1 code code' ∧
      code'.HasType r (.array elem) := by
  rw [emitList] at h
  split at h
  · exact absurd h not_yields_throw
  · next elem helem =>
    obtain ⟨list, _, hlist, h⟩ := yields_bind.mp h
    obtain ⟨hpair, rfl⟩ := yields_pure.mp h
    obtain ⟨rfl, rfl⟩ := Prod.mk.inj hpair
    obtain ⟨hplaces, hchunk⟩ := Places.emit hcode (.list hbinding hlookup hform helem) hroom hlist
    exact ⟨elem, rfl, hplaces.appends, Code.hasType_call hchunk⟩

private theorem Supplies.operand_of_firstType {ps : List Primitive} {receiver found : Ty}
    (h : code.Supplies v receiver ⟨1, [.any]⟩ ps)
    (hfound : (firstType ps).Yields code found code') :
    ∃ p, ps = [p] ∧ code.Operand p found ∧ code' = code := by
  obtain ⟨p, rfl, hp⟩ := h.exists_eq
  obtain ⟨u, hoperand, _⟩ := hp.exists_operand nofun
  obtain ⟨hu, rfl⟩ := yields_firstType.mp hfound
  rw [List.head?_cons, Option.map_some, Option.getD_some, hoperand.dereference] at hu
  exact ⟨p, rfl, hu ▸ hoperand, rfl⟩

private theorem special_places (hargs : v.Fill roots scope most args)
    (hcode : code.Assembled v roots scope) (hbinding : code.HasType binding t)
    (hroom : code.Room (most + 2)) {signature : Signature} {form : SpecialForm}
    (hlookup : v.builtins.lookup? t name = some ⟨signature, .special form⟩)
    (h : (v.special form t binding name args).Yields code r code') :
    Places v roots scope (most + 2) code r code' := by
  have hfill {function : String} {found : Ty} {ps : List Primitive} {mid mid' : Code}
      (hps : (args ⟨1, [.any]⟩ t).Yields code ps mid)
      (hfound : (firstType ps).Yields mid found mid') (hfinds : form.Finds t found function)
      (h : (Build.emit (.call function .bool binding ps)).Yields mid' r code') :
      Places v roots scope (most + 2) code r code' := by
    obtain ⟨happends, hsupplies⟩ := hargs _ _ _ _ _ hcode (hroom.mono (by omega)) hps
    obtain ⟨p, rfl, hoperand, rfl⟩ := Supplies.operand_of_firstType hsupplies hfound
    refine (happends.then_emit ?_ (hroom.mono (by omega)) h).mono (by omega)
    exact .contains (hbinding.of_within happends.grows.within) hlookup hfinds hoperand
  cases form with
  | arrayContains =>
    simp only [special_arrayContains, yields_unless] at h
    obtain ⟨hchild, h⟩ := h
    obtain ⟨ps, mid, hps, h⟩ := yields_bind.mp h
    obtain ⟨found, _, hfound, h⟩ := yields_bind.mp h
    obtain ⟨hstring, h⟩ := yields_unless.mp h
    obtain rfl := not_not.mp hstring
    exact hfill hps hfound (.item (not_not.mp hchild)) h
  | stringContains =>
    simp only [special_stringContains] at h
    obtain ⟨ps, mid, hps, h⟩ := yields_bind.mp h
    obtain ⟨found, _, hfound, h⟩ := yields_bind.mp h
    split at h
    · exact hfill hps hfound .part h
    · exact hfill hps hfound .parts h
    · exact absurd h not_yields_throw
  | listLength =>
    simp only [special_listLength] at h
    obtain ⟨ps, mid, hps, h⟩ := yields_bind.mp h
    obtain ⟨⟨list, u⟩, _, hlist, h⟩ := yields_bind.mp h
    obtain ⟨happends, _⟩ := hargs _ _ _ _ _ hcode (hroom.mono (by omega)) hps
    obtain ⟨elem, rfl, hlisted, htype⟩ := emitList_places happends.assembled
      (hbinding.of_within happends.grows.within)
      ((hroom.of_grows happends.grows).mono (by omega)) hlookup (.inl rfl) hlist
    exact (happends.trans hlisted).then_emit (.length htype) hroom h
  | listWhere =>
    simp only [special_listWhere] at h
    obtain ⟨⟨list, u⟩, _, hlist, h⟩ := yields_bind.mp h
    obtain ⟨ps, mid, hps, h⟩ := yields_bind.mp h
    obtain ⟨elem, rfl, hlisted, htype⟩ :=
      emitList_places hcode hbinding (hroom.mono (by omega)) hlookup (.inr rfl) hlist
    have hleft := (hroom.mono (m := 1 + (most + 1)) (by omega)).of_grows hlisted.grows
    obtain ⟨happends, hsupplies⟩ :=
      hargs _ _ _ _ _ hlisted.assembled (hleft.mono (by omega)) hps
    refine ((hlisted.trans happends).then_emit ?_ (hroom.mono (by omega)) h).mono (by omega)
    exact .filter (htype.of_within happends.grows.within) hsupplies

/-- A call on a chunk appends what its arguments need, the list that the receiver is if the function
goes through one, and a chunk for itself. -/
theorem method_places (hargs : v.Fill roots scope most args)
    (hcode : code.Assembled v roots scope) (hbinding : code.HasType binding t)
    (hroom : code.Room (most + 2)) {count : Nat}
    (h : (v.method t binding name count args).Yields code r code') :
    Places v roots scope (most + 2) code r code' := by
  rw [method_eq] at h
  split at h
  · next field hfield =>
    obtain ⟨hpublic, h⟩ := yields_unless.mp h
    obtain ⟨_, h⟩ := yields_unless.mp h
    refine (Places.emit hcode ?_ (hroom.mono (by omega)) h).1.mono (by omega)
    exact .field hbinding hfield (Bool.eq_false_iff.mpr hpublic)
  · next hfield =>
    split at h
    · exact absurd h not_yields_throw
    · next signature result hlookup =>
      obtain ⟨ps, mid, hps, h⟩ := yields_bind.mp h
      obtain ⟨happends, hsupplies⟩ := hargs _ _ _ _ _ hcode (hroom.mono (by omega)) hps
      refine (happends.then_emit ?_ (hroom.mono (by omega)) h).mono (by omega)
      exact .function (hbinding.of_within happends.grows.within) hfield hlookup hsupplies
    · next signature form hlookup =>
      exact special_places hargs hcode hbinding hroom hlookup h

end Method

end Vocabulary

namespace Expr

/-- Whether compilation of an expression, where there is room, goes from any assembled code to
another and places the expression in it. -/
def Assembles (v : Vocabulary F) (roots : Prop) (e : Expr) : Prop :=
  ∀ scope code r code', code.Assembled v roots scope → code.Room (2 * e.size) →
    (v.compileExpr scope e).Yields code r code' → Places v roots scope (2 * e.size) code r code'

theorem compileOperand_operand {value : Expr} (h : value.Assembles v roots)
    (hcode : code.Assembled v roots scope) (hroom : code.Room (2 * value.size)) {p : Primitive}
    (hp : (Build.operand value (v.compileExpr scope value)).Yields code p code') :
    Appends v roots scope (2 * value.size) code code' ∧ ∃ t, code'.Operand p t := by
  have hreference (hp : (do return .ref (← v.compileExpr scope value) :
      Build Primitive).Yields code p code') :
      Appends v roots scope (2 * value.size) code code' ∧ ∃ t, code'.Operand p t := by
    obtain ⟨r, _, hr, hp⟩ := yields_bind.mp hp
    obtain ⟨rfl, rfl⟩ := yields_pure.mp hp
    have hplaces := h scope code r _ hcode hroom hr
    exact ⟨hplaces.appends, _, .chunk (hplaces.appends.assembled.hasType hplaces.isSome)⟩
  cases value with
  | literal l =>
    obtain ⟨hl, rfl⟩ := yields_ofExcept.mp hp
    exact ⟨.refl hcode _, _, .constant hl⟩
  | block body => exact absurd hp not_yields_throw
  | root name args => exact hreference hp
  | call receiver name args => exact hreference hp
  | element => exact hreference hp

theorem compileBody_assembled {body : List Expr} (h : ∀ e ∈ body, e.Assembles v roots)
    (hcode : code.Assembled v roots scope) (hroom : code.Room (2 * bodySize body))
    (hbody : (v.compileBody scope body).Yields code () code') :
    code'.Assembled v roots scope ∧ code.Grows (2 * bodySize body) code' := by
  induction body generalizing code with
  | nil =>
    rw [Vocabulary.compileBody_nil] at hbody
    obtain ⟨_, rfl⟩ := yields_pure.mp hbody
    exact ⟨hcode, .refl code _⟩
  | cons e rest ih =>
    rw [Vocabulary.compileBody_cons] at hbody
    obtain ⟨r, mid, he, hbody⟩ := yields_bind.mp hbody
    obtain ⟨_, _, hentry, hrest⟩ := yields_bind.mp hbody
    obtain rfl := yields_modify.mp hentry
    rw [bodySize, Nat.mul_add] at hroom ⊢
    have hplaces := h e List.mem_cons_self scope code r mid hcode (hroom.mono (by omega)) he
    have hgrows : code.Grows (2 * e.size) (mid.addEntrypoint r e.label) :=
      hplaces.appends.grows.trans (.addEntrypoint mid r e.label)
    obtain ⟨hassembled, hlater⟩ := ih (fun f hf => h f (List.mem_cons_of_mem _ hf))
      (.entrypoint hplaces.appends.assembled hplaces.isSome) (hroom.of_grows hgrows) hrest
    exact ⟨hassembled, hgrows.trans hlater⟩

private theorem compileBlock_argument {body : List Expr} (h : ∀ e ∈ body, e.Assembles v roots)
    (hcode : code.Assembled v roots scope) {receiver : Ty}
    (hroom : code.Room (2 * (block body).size)) {p : Primitive}
    (hp : (Build.block (v.blockBinding receiver)
      (v.compileBody (some (v.blockBinding receiver)) body)).Yields code p code') :
    Appends v roots scope (2 * (block body).size) code code' ∧
      code'.Argument v receiver .functionLike p := by
  obtain ⟨function, hbody, rfl, rfl⟩ := Build.yields_block.mp hp
  have hinner : (Build.blockStart (v.blockBinding receiver)).Room (2 * bodySize body) := by
    have := hroom.1
    rw [size] at this
    have hchunks : (Build.blockStart (v.blockBinding receiver)).chunks.length = 1 := rfl
    have hfunctions : (Build.blockStart (v.blockBinding receiver)).functions.length = 0 := rfl
    exact ⟨by omega, by omega⟩
  obtain ⟨hassembled, _⟩ := compileBody_assembled h (.start _) hinner hbody
  have hone : code.Room 1 := hroom.mono (by rw [size]; omega)
  refine ⟨⟨(Code.Grows.addFunction code function).mono (by rw [size]; omega),
    .function hcode hassembled, rfl, rfl⟩, ?_⟩
  exact .block rfl (Code.function?_addFunction hone function) (hassembled.opens _ rfl)

private theorem compileArg_argument {value : Expr} (h : value.Assembles v roots)
    (hbody : ∀ body, value = .block body → ∀ e ∈ body, e.Assembles v roots)
    (hcode : code.Assembled v roots scope) (hroom : code.Room (2 * value.size))
    {receiver expected : Ty} {p : Primitive}
    (hp : (v.compileArg scope receiver value expected).Yields code p code')
    (hfits : (code'.dereference p).compatible expected) :
    Appends v roots scope (2 * value.size) code code' ∧ code'.Argument v receiver expected p := by
  have hoperand (hp : (Build.operand value (v.compileExpr scope value)).Yields code p code') :
      Appends v roots scope (2 * value.size) code code' ∧
        code'.Argument v receiver expected p := by
    obtain ⟨happends, t, ht⟩ := compileOperand_operand h hcode hroom hp
    exact ⟨happends, .operand ht (ht.dereference ▸ hfits)⟩
  cases value with
  | block body =>
    cases expected with
    | functionLike => exact compileBlock_argument (hbody body rfl) hcode hroom hp
    | _ => exact hoperand hp
  | _ => exact hoperand hp

private theorem compileArgs_fit {args : List (Arg Expr)}
    (h : ∀ arg ∈ args, arg.value.Assembles v roots)
    (hbodies : ∀ arg ∈ args, ∀ body, arg.value = .block body → ∀ e ∈ body, e.Assembles v roots)
    (hcode : code.Assembled v roots scope) (hroom : code.Room (2 * argsSize args))
    {name : String} {required position : Nat} {receiver : Ty} {declared : List Ty}
    {ps : List Primitive}
    (hps : (v.compileArgs scope name required receiver args declared position).Yields
      code ps code') :
    Appends v roots scope (2 * argsSize args) code code' ∧
      List.Forall₂ (code'.Argument v receiver) (declared.take ps.length) ps ∧
      (required < position + ps.length ∨ declared.length ≤ ps.length) := by
  induction args generalizing code declared position ps with
  | nil =>
    cases declared with
    | nil =>
      rw [Vocabulary.compileArgs_done] at hps
      obtain ⟨rfl, rfl⟩ := yields_pure.mp hps
      exact ⟨.refl hcode _, .nil, .inr (Nat.le_refl _)⟩
    | cons expected declared =>
      rw [Vocabulary.compileArgs_nil] at hps
      split at hps
      · exact absurd hps not_yields_throw
      · next hposition =>
        obtain ⟨rfl, rfl⟩ := yields_pure.mp hps
        exact ⟨.refl hcode _, .nil, .inl (by simpa using hposition)⟩
  | cons arg rest ih =>
    obtain ⟨named, value⟩ := arg
    cases declared with
    | nil =>
      rw [Vocabulary.compileArgs_done] at hps
      obtain ⟨rfl, rfl⟩ := yields_pure.mp hps
      exact ⟨.refl hcode _, .nil, .inr (Nat.le_refl _)⟩
    | cons expected declared =>
      cases named with
      | some named =>
        rw [Vocabulary.compileArgs_named] at hps
        obtain ⟨_, _, hthrow, _⟩ := yields_bind.mp hps
        exact absurd hthrow not_yields_throw
      | none =>
        rw [Vocabulary.compileArgs_cons] at hps
        obtain ⟨p, mid, hp, hps⟩ := yields_bind.mp hps
        obtain ⟨_, _, hcheck, hps⟩ := yields_bind.mp hps
        obtain ⟨hfits, rfl⟩ := Vocabulary.yields_checkType.mp hcheck
        obtain ⟨others, _, hothers, hps⟩ := yields_bind.mp hps
        obtain ⟨rfl, rfl⟩ := yields_pure.mp hps
        rw [argsSize, Nat.mul_add] at hroom ⊢
        have hvalue : value.Assembles v roots := h _ List.mem_cons_self
        obtain ⟨hfirst, hargument⟩ := compileArg_argument hvalue (hbodies _ List.mem_cons_self)
          hcode (hroom.mono (by omega)) hp hfits
        obtain ⟨hlater, hrest, henough⟩ := ih (fun a ha => h a (List.mem_cons_of_mem _ ha))
          (fun a ha => hbodies a (List.mem_cons_of_mem _ ha)) hfirst.assembled
          (hroom.of_grows hfirst.grows) hothers
        refine ⟨hfirst.trans hlater, .cons (hargument.of_within hlater.grows.within) hrest, ?_⟩
        simp only [List.length_cons]
        omega

private theorem compileNamedArgs_describes {args : List (Arg Expr)}
    (h : ∀ arg ∈ args, arg.value.Assembles v roots) (hcode : code.Assembled v roots scope)
    (hroom : code.Room (2 * argsSize args)) {info : ResourceInfo} {resource : String}
    {seen : List String} {ps : List Primitive}
    (hps : (v.compileNamedArgs scope info resource seen args).Yields code ps code') :
    Appends v roots scope (2 * argsSize args) code code' ∧ code'.Describes info ps := by
  induction args generalizing code seen ps with
  | nil =>
    rw [Vocabulary.compileNamedArgs_nil] at hps
    obtain ⟨rfl, rfl⟩ := yields_pure.mp hps
    exact ⟨.refl hcode _, .nil⟩
  | cons arg rest ih =>
    obtain ⟨named, value⟩ := arg
    cases named with
    | none =>
      rw [Vocabulary.compileNamedArgs_unnamed] at hps
      exact absurd hps not_yields_throw
    | some name =>
      rw [Vocabulary.compileNamedArgs_cons] at hps
      obtain ⟨_, hps⟩ := yields_unless.mp hps
      split at hps
      · exact absurd hps not_yields_throw
      · next field hfield =>
        obtain ⟨p, mid, hp, hps⟩ := yields_bind.mp hps
        obtain ⟨_, _, hcheck, hps⟩ := yields_bind.mp hps
        obtain ⟨hfits, rfl⟩ := Vocabulary.yields_checkType.mp hcheck
        obtain ⟨others, _, hothers, hps⟩ := yields_bind.mp hps
        obtain ⟨rfl, rfl⟩ := yields_pure.mp hps
        rw [argsSize, Nat.mul_add] at hroom ⊢
        have hvalue : value.Assembles v roots := h _ List.mem_cons_self
        obtain ⟨hfirst, t, ht⟩ := compileOperand_operand hvalue hcode (hroom.mono (by omega)) hp
        obtain ⟨hlater, hdescribes⟩ := ih (fun a ha => h a (List.mem_cons_of_mem _ ha))
          hfirst.assembled (hroom.of_grows hfirst.grows) hothers
        exact ⟨hfirst.trans hlater,
          .cons hfield (ht.of_within hlater.grows.within) (ht.dereference ▸ hfits) hdescribes⟩

private theorem compileNamedArgs_names {args : List (Arg Expr)} {info : ResourceInfo}
    {resource : String} {seen : List String} {ps : List Primitive}
    (hps : (v.compileNamedArgs scope info resource seen args).Yields code ps code') :
    (Code.argumentNames ps).Nodup ∧ ∀ name ∈ seen, .string name ∉ Code.argumentNames ps := by
  induction args generalizing code seen ps with
  | nil =>
    rw [Vocabulary.compileNamedArgs_nil] at hps
    obtain ⟨rfl, rfl⟩ := yields_pure.mp hps
    exact ⟨.nil, fun _ _ => List.not_mem_nil⟩
  | cons arg rest ih =>
    obtain ⟨named, value⟩ := arg
    cases named with
    | none =>
      rw [Vocabulary.compileNamedArgs_unnamed] at hps
      exact absurd hps not_yields_throw
    | some name =>
      rw [Vocabulary.compileNamedArgs_cons] at hps
      obtain ⟨hnew, hps⟩ := yields_unless.mp hps
      split at hps
      · exact absurd hps not_yields_throw
      · obtain ⟨p, _, _, hps⟩ := yields_bind.mp hps
        obtain ⟨_, _, _, hps⟩ := yields_bind.mp hps
        obtain ⟨others, _, hothers, hps⟩ := yields_bind.mp hps
        obtain ⟨rfl, rfl⟩ := yields_pure.mp hps
        obtain ⟨hdistinct, hlater⟩ := ih hothers
        have hname : .string name ∉ Code.argumentNames others := by
          apply hlater
          simp
        refine ⟨List.nodup_cons.mpr ⟨hname, hdistinct⟩, fun other hother => ?_⟩
        have hne : Primitive.string other ≠ .string name := by
          intro heq
          have htext := congrArg Primitive.asText heq
          rw [Primitive.asText_string, Primitive.asText_string] at htext
          exact hnew (List.contains_iff_mem.mpr (Except.ok.inj htext ▸ hother))
        have hrest := hlater other (List.mem_append_left _ hother)
        exact List.not_mem_cons_of_ne_of_not_mem hne hrest

theorem fill_compileArgs {args : List (Arg Expr)}
    (h : ∀ arg ∈ args, arg.value.Assembles v roots)
    (hbodies : ∀ arg ∈ args, ∀ body, arg.value = .block body → ∀ e ∈ body, e.Assembles v roots)
    (scope : Option Ty) (name : String) :
    v.Fill roots scope (2 * argsSize args) (fun signature receiver => (do
      Vocabulary.checkCount name signature args.length
      v.compileArgs scope name signature.required receiver args signature.args 1)) := by
  intro signature receiver code ps code' hcode hroom hps
  obtain ⟨_, _, hcheck, hps⟩ := yields_bind.mp hps
  obtain ⟨_, rfl⟩ := Vocabulary.yields_checkCount.mp hcheck
  obtain ⟨happends, hfit, henough⟩ := compileArgs_fit h hbodies hcode hroom hps
  exact ⟨happends, hfit, by omega⟩

private theorem assembles_call {receiver : Expr} {name : String} {args : List (Arg Expr)}
    (hreceiver : receiver.Assembles v roots) (h : ∀ arg ∈ args, arg.value.Assembles v roots)
    (hbodies : ∀ arg ∈ args, ∀ body, arg.value = .block body →
      ∀ e ∈ body, e.Assembles v roots) :
    (call receiver name args).Assembles v roots := by
  intro scope code r code' hcode hroom hcall
  have hsize : 2 * (call receiver name args).size =
      2 * receiver.size + (2 * argsSize args + 2) := by
    rw [size]
    omega
  rw [hsize] at hroom ⊢
  rw [Vocabulary.compileExpr_call] at hcall
  obtain ⟨binding, mid, hbinding, hcall⟩ := yields_bind.mp hcall
  obtain ⟨_, _, hget, hcall⟩ := yields_bind.mp hcall
  obtain ⟨rfl, rfl⟩ := yields_get.mp hget
  have hfirst := hreceiver scope code binding mid hcode (hroom.mono (by omega)) hbinding
  exact (Vocabulary.method_places (fill_compileArgs h hbodies scope name) hfirst.appends.assembled
    (hfirst.appends.assembled.hasType hfirst.isSome)
    (hroom.of_grows hfirst.appends.grows) hcall).after hfirst.appends

private theorem assembles_root (hroots : roots) {name : String} {args : List (Arg Expr)}
    (h : ∀ arg ∈ args, arg.value.Assembles v roots)
    (hbodies : ∀ arg ∈ args, ∀ body, arg.value = .block body →
      ∀ e ∈ body, e.Assembles v roots) :
    (root name args).Assembles v roots := by
  intro scope code r code' hcode hroom hcall
  have hsize : 2 * (root name args).size = 2 * argsSize args + 2 := by
    rw [size]
    omega
  rw [hsize] at hroom ⊢
  rw [Vocabulary.compileExpr_root] at hcall
  split at hcall
  · next bound hbound =>
    obtain ⟨t, hscope, hfield⟩ := Option.bind_eq_some_iff.mp hbound
    obtain ⟨field, hfield, rfl⟩ := Option.map_eq_some_iff.mp hfield
    have hne : t ≠ .ref := by
      rintro rfl
      cases hfield
    have htype := Code.hasType_property (hcode.opens _ hscope)
    rw [if_neg hne] at htype
    exact Vocabulary.method_places (fill_compileArgs h hbodies scope name) hcode htype hroom hcall
  · obtain ⟨info, _, hinfo, hargs⟩ := yields_bind.mp hcall
    obtain ⟨ps, _, hps, hemit⟩ := yields_bind.mp hargs
    rw [Vocabulary.constructible] at hinfo
    split at hinfo
    · next entry hentry =>
      split at hinfo
      · exact absurd hinfo not_yields_throw
      · next hpublic =>
        obtain ⟨rfl, rfl⟩ := yields_pure.mp hinfo
        obtain ⟨happends, hdescribes⟩ :=
          compileNamedArgs_describes h hcode (hroom.mono (by omega)) hps
        have hadmits := Code.Admits.resource hroots hentry hdescribes
          (Bool.eq_false_iff.mpr hpublic) (compileNamedArgs_names hps).1
        exact (happends.then_emit hadmits (hroom.mono (by omega)) hemit).mono (by omega)
    · exact absurd hinfo not_yields_throw

private theorem assembles_literal (l : Literal) : (literal l).Assembles v roots := by
  intro scope code r code' hcode hroom h
  rw [Vocabulary.compileExpr_literal] at h
  obtain ⟨p, _, hstep, h⟩ := yields_bind.mp h
  obtain ⟨hp, rfl⟩ := yields_ofExcept.mp hstep
  have hsize : (literal l).size = 1 := by rw [size]
  exact (Places.emit hcode (.constant hp) (hroom.mono (by omega)) h).1.mono (by omega)

private theorem assembles_element : element.Assembles v roots := by
  intro scope code r code' hcode hroom h
  rw [Vocabulary.compileExpr_element] at h
  cases scope with
  | none => exact absurd h not_yields_throw
  | some t =>
    obtain ⟨rfl, rfl⟩ := yields_pure.mp h
    exact ⟨.refl hcode _, .inl ⟨⟨t, rfl, hcode.opens t rfl⟩, rfl⟩⟩

private theorem assembles_block (body : List Expr) : (block body).Assembles v roots := by
  intro scope code r code' _ _ h
  rw [Vocabulary.compileExpr_block] at h
  exact absurd h not_yields_throw

/-- Compilation places every expression, if resources may be created or it creates none. -/
theorem assembles (v : Vocabulary F) {e : Expr} (h : roots ∨ e.rootless) :
    e.Assembles v roots := by
  -- by size, since the expressions in the blocks of a call are two levels below it
  induction hsize : e.size using Nat.strongRecOn generalizing e with
  | _ n ih =>
    subst hsize
    have hlower (args : List (Arg Expr)) (hargs : roots ∨ rootlessArgs args)
        (hlt : argsSize args < e.size) :
        (∀ arg ∈ args, arg.value.Assembles v roots) ∧ ∀ arg ∈ args, ∀ body,
          arg.value = .block body → ∀ f ∈ body, f.Assembles v roots := by
      have hvalue {arg : Arg Expr} (harg : arg ∈ args) : roots ∨ arg.value.rootless :=
        hargs.imp id fun hargs => rootlessArgs_iff.mp hargs arg harg
      refine ⟨fun arg harg => ih _ ?_ (hvalue harg) rfl, fun arg harg body hbody f hf =>
        ih _ ?_ ((hvalue harg).imp id fun hrootless => ?_) rfl⟩
      · have := size_le_argsSize harg
        omega
      · have harg := size_le_argsSize harg
        have hf := size_le_bodySize hf
        rw [hbody, size] at harg
        omega
      · rw [hbody, rootless] at hrootless
        exact rootlessBody_iff.mp hrootless f hf
    cases e with
    | literal l => exact assembles_literal l
    | element => exact assembles_element
    | block body => exact assembles_block body
    | root name args =>
      have hroots : roots := h.resolve_right (by rw [rootless]; exact nofun)
      obtain ⟨hargs, hbodies⟩ := hlower args (.inl hroots) (by rw [size]; omega)
      exact assembles_root hroots hargs hbodies
    | call receiver name args =>
      rw [rootless, Bool.and_eq_true_iff] at h
      obtain ⟨hargs, hbodies⟩ := hlower args (h.imp id And.right) (by rw [size]; omega)
      exact assembles_call (ih _ (by rw [size]; omega) (h.imp id And.left) rfl) hargs hbodies

end Expr

namespace Code

theorem Assembled.exists_of_mem (h : code.Assembled v roots scope) {block : Code}
    (hblock : block ∈ code.functions) : ∃ bound, block.Assembled v roots (some bound) := by
  induction h with
  | empty => cases hblock
  | start => cases hblock
  | chunk _ _ ih => exact ih hblock
  | @function scope bound code found _ hfound ih _ =>
    rcases List.mem_append.mp hblock with hblock | hblock
    · exact ih hblock
    · exact ⟨bound, List.mem_singleton.mp hblock ▸ hfound⟩
  | entrypoint _ _ ih => exact ih hblock

end Code

/-- A compiled code is an assembled one that was stamped. -/
theorem Vocabulary.assembled_of_compile {digest : Digest} {query : List Expr}
    (hquery : ∀ e ∈ query, roots ∨ e.rootless) (hsize : 2 * Expr.bodySize query < 2 ^ 31)
    (h : v.compile digest query = .ok code) :
    ∃ built : Code, code = built.stamp digest ∧ built.Assembled v roots none := by
  rw [compile] at h
  split at h
  · next built hbuilt =>
    obtain rfl := Except.ok.inj h
    have hroom : Code.empty.Room (2 * Expr.bodySize query) := by
      constructor
      · simpa [Code.empty] using hsize
      · simpa [Code.empty] using hsize
    have hassembles : ∀ e ∈ query, e.Assembles v roots := fun e he => e.assembles v (hquery e he)
    exact ⟨built, rfl, (Expr.compileBody_assembled hassembles .empty hroom hbuilt).1⟩
  · cases h

namespace Vocabulary

variable {digest : Digest}

/-- What is compiled of a query, and the blocks in it. -/
inductive Compiled (v : Vocabulary F) (digest : Digest) : Code → Prop
  | query {query : List Expr} {code : Code} : 2 * Expr.bodySize query < 2 ^ 31 →
    v.compile digest query = .ok code → Compiled v digest code
  | block {code block : Code} : Compiled v digest code → block ∈ code.functions →
    Compiled v digest block

theorem Compiled.exists_built (h : v.Compiled digest code) :
    ∃ (built : Code) (scope : Option Ty), built.Assembled v True scope ∧
      code = built.stamp digest := by
  induction h with
  | query hsize h =>
    obtain ⟨built, rfl, hassembled⟩ := assembled_of_compile (fun _ _ => .inl trivial) hsize h
    exact ⟨built, none, hassembled, rfl⟩
  | block _ hblock ih =>
    obtain ⟨built, scope, hassembled, rfl⟩ := ih
    rw [(Code.stamp_eq digest built).2.2.2] at hblock
    obtain ⟨block, hmem, rfl⟩ := List.mem_map.mp hblock
    obtain ⟨bound, hblock⟩ := hassembled.exists_of_mem hmem
    exact ⟨block, some bound, hblock, rfl⟩

end Vocabulary

end AssetQuery
