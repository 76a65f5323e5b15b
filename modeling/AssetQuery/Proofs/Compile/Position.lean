import AssetQuery.Proofs.Code.Alike
import AssetQuery.Proofs.Compile.Appends

/-!
# Checksums do not depend on position

An expression is compiled to chunks that are alike wherever it stands in a query: what uses chunks
that are alike is alike, and a block is compiled to the same code everywhere. A function with a way
of its own to compile has to keep to this; one that writes the number of a chunk down as a constant
does not.
-/

namespace AssetQuery

open Build (yields_bind yields_pure yields_get yields_modify yields_emit yields_ofExcept
  yields_unless not_yields_throw)

variable {F Rule Form α : Type} {digest : Digest} {a a' b b' : Code} {r q i j : Ref}

theorem Code.Continues.begins (h : a.Continues a') : a.Begins a' := ⟨h.chunks, h.functions⟩

theorem Build.Appends.continues {x : Build α} (hx : x.Appends) {found : α}
    (h : x.Yields a found a') : a.Continues a' := by
  have hcontinues := hx a
  rwa [h] at hcontinues

theorem Build.Appends.begins {x : Build α} (hx : x.Appends) {found : α}
    (h : x.Yields a found a') : a.Begins a' := (hx.continues h).begins

/-- Whether what a step gives on two codes, if it succeeds on both, is always related. -/
structure Build.Placeless (related : Code → α → Code → α → Prop) (x : Build α) : Prop where
  alike : ∀ {a found a' b found' b'}, x.Yields a found a' → x.Yields b found' b' → a'.Room 0 →
    b'.Room 0 → related a' found b' found'

/-- Whether an argument, however it is compiled, only appends and is alike everywhere. -/
structure Argument.Placeless (digest : Digest) (arg : Argument Code) : Prop where
  appends : arg.Appends
  operand : Build.Placeless (AlikePart digest) arg.operand
  block : ∀ bound, Build.Placeless (AlikePart digest) (arg.block bound)

private theorem Build.placeless_operand (value : Expr) {compiled : Build Ref}
    (h : Build.Placeless (Alike digest) compiled) :
    Build.Placeless (AlikePart digest) (Build.operand value compiled) := by
  have hreference : Build.Placeless (AlikePart digest)
      (do return .ref (← compiled) : Build Primitive) := by
    constructor
    intro a p a' b p' b' hp hp' hroom hroom'
    obtain ⟨r, _, hr, hp⟩ := yields_bind.mp hp
    obtain ⟨q, _, hq, hp'⟩ := yields_bind.mp hp'
    obtain ⟨rfl, rfl⟩ := yields_pure.mp hp
    obtain ⟨rfl, rfl⟩ := yields_pure.mp hp'
    exact (h.alike hr hq hroom hroom').part
  cases value with
  | literal l =>
    constructor
    intro a p a' b p' b' hp hp' _ _
    obtain ⟨hl, rfl⟩ := yields_ofExcept.mp hp
    obtain ⟨hl', rfl⟩ := yields_ofExcept.mp hp'
    obtain rfl := Except.ok.inj (hl.symm.trans hl')
    exact .constant (Literal.constant_of_toPrimitive hl)
  | block body => exact ⟨fun h => absurd h not_yields_throw⟩
  | _ => exact hreference

private theorem Build.placeless_block (bound : Ty) (body : Build Unit) :
    Build.Placeless (AlikePart digest) (Build.block bound body) := by
  constructor
  intro a p a' b p' b' hp hp' _ _
  obtain ⟨function, hbody, rfl, rfl⟩ := Build.yields_block.mp hp
  obtain ⟨function', hbody', rfl, rfl⟩ := Build.yields_block.mp hp'
  obtain rfl := congrArg Prod.snd (hbody.symm.trans hbody')
  exact .block function

namespace Vocabulary

/-- Whether a way to compile calls only appends, and makes chunks that are alike of receivers that
are alike and arguments that are alike everywhere. -/
structure Placeless [Handling F Rule Form] (v : Vocabulary F Rule Form) (digest : Digest)
    (form : Form) : Prop where
  appends : ∀ call : Invocation Code, (∀ arg ∈ call.args, arg.Appends) →
    (Handling.compile v form call).Appends
  alike : ∀ {name args a r i a' b q j b'}, (∀ arg ∈ args, arg.Placeless digest) →
    Alike digest a r b q →
    (Handling.compile v form ⟨a.chunkType r, r, name, args⟩).Yields a i a' →
    (Handling.compile v form ⟨a.chunkType r, q, name, args⟩).Yields b j b' →
    a'.Room 0 → b'.Room 0 → Alike digest a' i b' j

section Arguments

variable {v : Vocabulary F Rule Form} {args : List (Argument Code)}

private theorem placeless_argument {arg : Argument Code} (h : arg.Placeless digest)
    (receiver expected : Ty) :
    Build.Placeless (AlikePart digest) (arg.compile v receiver expected) := by
  unfold Argument.compile
  split
  · exact h.block _
  · exact h.operand

private theorem yields_positional_cons {arg : Argument Code} {function : String} {required : Nat}
    {receiver expected : Ty} {declared : List Ty} {position : Nat} {ps : List Primitive}
    (h : Build.Yields (v.positional id function required receiver (arg :: args)
      (expected :: declared) position) a ps a') :
    ∃ p mid rest, Build.Yields (arg.compile v receiver expected) a p mid ∧
      Build.Yields (v.positional id function required receiver args declared (position + 1))
        mid rest a' ∧ p :: rest = ps := by
  rw [positional] at h
  split at h
  · obtain ⟨_, _, hthrow, _⟩ := yields_bind.mp h
    exact absurd hthrow not_yields_throw
  · obtain ⟨p, mid, hp, h⟩ := yields_bind.mp h
    obtain ⟨_, _, hcheck, h⟩ := yields_bind.mp h
    obtain ⟨_, rfl⟩ := yields_checkType.mp hcheck
    obtain ⟨rest, _, hrest, h⟩ := yields_bind.mp h
    obtain ⟨rfl, rfl⟩ := yields_pure.mp h
    exact ⟨p, mid, rest, hp, hrest, rfl⟩

private theorem placeless_positional (h : ∀ arg ∈ args, arg.Placeless digest) (function : String)
    (required : Nat) (receiver : Ty) (declared : List Ty) (position : Nat) :
    Build.Placeless (AlikeParts digest)
      (v.positional id function required receiver args declared position) := by
  induction args generalizing declared position with
  | nil =>
    constructor
    intro a ps a' b ps' b' hps hps' _ _
    cases declared with
    | nil =>
      obtain ⟨rfl, _⟩ := yields_pure.mp hps
      obtain ⟨rfl, _⟩ := yields_pure.mp hps'
      exact .nil
    | cons expected declared =>
      rw [positional] at hps hps'
      split at hps
      · exact absurd hps not_yields_throw
      · next hposition =>
        rw [if_neg hposition] at hps'
        obtain ⟨rfl, _⟩ := yields_pure.mp hps
        obtain ⟨rfl, _⟩ := yields_pure.mp hps'
        exact .nil
  | cons arg rest ih =>
    constructor
    intro a ps a' b ps' b' hps hps' hroom hroom'
    have hrest : ∀ arg ∈ rest, arg.Placeless digest :=
      fun arg harg => h arg (List.mem_cons_of_mem _ harg)
    cases declared with
    | nil =>
      obtain ⟨rfl, _⟩ := yields_pure.mp hps
      obtain ⟨rfl, _⟩ := yields_pure.mp hps'
      exact .nil
    | cons expected declared =>
      have hlater : Build.Appends
          (v.positional id function required receiver rest declared (position + 1)) :=
        appends_positional (fun arg harg => (hrest arg harg).appends) _ _ _ _ _
      obtain ⟨p, mid, others, hp, hothers, rfl⟩ := yields_positional_cons hps
      obtain ⟨p', mid', others', hp', hothers', rfl⟩ := yields_positional_cons hps'
      have hbegins := hlater.begins hothers
      have hbegins' := hlater.begins hothers'
      have hpart := (placeless_argument (h arg List.mem_cons_self) receiver expected).alike hp hp'
        (hbegins.room hroom) (hbegins'.room hroom')
      exact .cons (hpart.of_begins hbegins hbegins')
        ((ih hrest _ _).alike hothers hothers' hroom hroom')

theorem placeless_argumentList (h : ∀ arg ∈ args, arg.Placeless digest) (function : String)
    (signature : Signature) (receiver : Ty) :
    Build.Placeless (AlikeParts digest) (v.argumentList id function args signature receiver) := by
  constructor
  intro a ps a' b ps' b' hps hps' hroom hroom'
  obtain ⟨_, _, hcheck, hps⟩ := yields_bind.mp hps
  obtain ⟨_, rfl⟩ := yields_checkCount.mp hcheck
  obtain ⟨_, _, hcheck, hps'⟩ := yields_bind.mp hps'
  obtain ⟨_, rfl⟩ := yields_checkCount.mp hcheck
  exact (placeless_positional h _ _ _ _ _).alike hps hps' hroom hroom'

private theorem yields_named_cons {arg : Argument Code} {info : ResourceInfo} {resource : String}
    {seen : List String} {ps : List Primitive}
    (h : Build.Yields (named id info resource seen (arg :: args)) a ps a') :
    ∃ name p mid rest, arg.name = some name ∧ Build.Yields arg.operand a p mid ∧
      Build.Yields (named id info resource (seen ++ [name]) args) mid rest a' ∧
      .string name :: p :: rest = ps := by
  rw [named] at h
  split at h
  · exact absurd h not_yields_throw
  · next name hname =>
    obtain ⟨_, h⟩ := yields_unless.mp h
    split at h
    · exact absurd h not_yields_throw
    · obtain ⟨p, mid, hp, h⟩ := yields_bind.mp h
      obtain ⟨_, _, hcheck, h⟩ := yields_bind.mp h
      obtain ⟨_, rfl⟩ := yields_checkType.mp hcheck
      obtain ⟨rest, _, hrest, h⟩ := yields_bind.mp h
      obtain ⟨rfl, rfl⟩ := yields_pure.mp h
      exact ⟨name, p, mid, rest, hname, hp, hrest, rfl⟩

private theorem placeless_named (h : ∀ arg ∈ args, arg.Placeless digest) (info : ResourceInfo)
    (resource : String) (seen : List String) :
    Build.Placeless (AlikeParts digest) (named id info resource seen args) := by
  induction args generalizing seen with
  | nil =>
    constructor
    intro a ps a' b ps' b' hps hps' _ _
    obtain ⟨rfl, _⟩ := yields_pure.mp hps
    obtain ⟨rfl, _⟩ := yields_pure.mp hps'
    exact .nil
  | cons arg rest ih =>
    constructor
    intro a ps a' b ps' b' hps hps' hroom hroom'
    have hrest : ∀ arg ∈ rest, arg.Placeless digest :=
      fun arg harg => h arg (List.mem_cons_of_mem _ harg)
    obtain ⟨name, p, mid, others, hname, hp, hothers, rfl⟩ := yields_named_cons hps
    obtain ⟨_, p', mid', others', hname', hp', hothers', rfl⟩ := yields_named_cons hps'
    obtain rfl := Option.some.inj (hname.symm.trans hname')
    have hlater : Build.Appends (named id info resource (seen ++ [name]) rest) :=
      appends_named (fun arg harg => (hrest arg harg).appends) _ _ _
    have hbegins := hlater.begins hothers
    have hbegins' := hlater.begins hothers'
    have hpart := (h arg List.mem_cons_self).operand.alike hp hp' (hbegins.room hroom)
      (hbegins'.room hroom')
    exact .cons (.constant (.flat rfl)) (.cons (hpart.of_begins hbegins hbegins')
      ((ih hrest _).alike hothers hothers' hroom hroom'))

end Arguments

private theorem yields_constructible {v : Vocabulary F Rule Form} {name : String}
    {info info' : ResourceInfo} (h : (v.constructible name).Yields a info a')
    (h' : (v.constructible name).Yields b info' b') : info = info' := by
  rw [constructible] at h h'
  split at h
  · next entry hentry =>
    rw [hentry] at h'
    simp only at h'
    split at h
    · exact absurd h not_yields_throw
    · next hpublic =>
      rw [if_neg hpublic] at h'
      exact (yields_pure.mp h).1.symm.trans (yields_pure.mp h').1
  · exact absurd h not_yields_throw

section Standard

variable {v : Vocabulary F} {t u u' : Ty} {name : String} {mid mid' : Code}
  {ps ps' : List Primitive} {args : Signature → Ty → Build (List Primitive)}

private theorem yields_emitList (h : (v.emitList t r).Yields a (i, u) a') :
    (v.registry.resource? (t.resourceName?.getD "")).bind (fun e => e.info.listType) =
        u.child? ∧ (∃ elem, u = .array elem) ∧ a.addChunk (.call "list" u r []) = a' ∧
      a'.lastRef = i := by
  rw [emitList] at h
  split at h
  · exact absurd h not_yields_throw
  · next elem helem =>
    obtain ⟨list, _, hlist, h⟩ := yields_bind.mp h
    obtain ⟨hpair, rfl⟩ := yields_pure.mp h
    obtain ⟨rfl, rfl⟩ := Prod.mk.inj hpair
    obtain ⟨rfl, rfl⟩ := yields_emit.mp hlist
    exact ⟨helem, ⟨elem, rfl⟩, rfl, rfl⟩

private theorem alike_emitList (h : Alike digest a r b q) (ha : (v.emitList t r).Yields a (i, u) a')
    (hb : (v.emitList t q).Yields b (j, u') b') (hroom : a'.Room 0) (hroom' : b'.Room 0) :
    u = u' ∧ Alike digest a' i b' j := by
  obtain ⟨helem, ⟨elem, rfl⟩, rfl, rfl⟩ := yields_emitList ha
  obtain ⟨helem', ⟨elem', rfl⟩, rfl, rfl⟩ := yields_emitList hb
  obtain rfl := Option.some.inj (helem.symm.trans helem')
  exact ⟨rfl, .call h .nil hroom hroom'⟩

variable (hargs : ∀ signature receiver, (args signature receiver).Appends)
  (hplaceless : ∀ signature receiver,
    Build.Placeless (AlikeParts digest) (args signature receiver))

private theorem firstType_eq (h : AlikeParts digest a ps b ps') (hroom : a.Room 0)
    (hroom' : b.Room 0) :
    ((ps.head?).map a.dereference).getD .nil = ((ps'.head?).map b.dereference).getD .nil := by
  cases h with
  | nil => rfl
  | cons hp _ => exact (hp.same (.refl a) (.refl b) hroom hroom').1

include hargs hplaceless

private theorem alike_emit {signature : Signature} {receiver : Ty} {function : String} {c d : Chunk}
    (h : Alike digest a r b q)
    (hps : (args signature receiver).Yields a ps mid)
    (hps' : (args signature receiver).Yields b ps' mid')
    (hc : .call function u r ps = c) (hd : .call function u q ps' = d)
    (hroom : (mid.addChunk c).Room 0) (hroom' : (mid'.addChunk d).Room 0) :
    Alike digest (mid.addChunk c) (mid.addChunk c).lastRef (mid'.addChunk d)
      (mid'.addChunk d).lastRef := by
  subst hc hd
  have hparts := (hplaceless _ _).alike hps hps' (Code.room_of_addChunk hroom)
    (Code.room_of_addChunk hroom')
  exact .call (h.of_begins ((hargs _ _).begins hps) ((hargs _ _).begins hps')) hparts hroom hroom'

private theorem alike_special (form : SpecialForm) (h : Alike digest a r b q)
    (ha : (v.special form t r name args).Yields a i a')
    (hb : (v.special form t q name args).Yields b j b') (hroom : a'.Room 0)
    (hroom' : b'.Room 0) : Alike digest a' i b' j := by
  cases form with
  | arrayContains =>
    have hcall {code code' : Code} {binding k : Ref}
        (h : (v.special .arrayContains t binding name args).Yields code k code') :
        ∃ ps mid, (args ⟨1, [.any]⟩ t).Yields code ps mid ∧
          mid.addChunk (.call "containsString" .bool binding ps) = code' ∧ code'.lastRef = k := by
      simp only [special_arrayContains, yields_unless] at h
      obtain ⟨_, h⟩ := h
      obtain ⟨ps, mid, hps, h⟩ := yields_bind.mp h
      obtain ⟨_, _, hfound, h⟩ := yields_bind.mp h
      obtain ⟨_, rfl⟩ := yields_firstType.mp hfound
      exact ⟨ps, mid, hps, yields_emit.mp (yields_unless.mp h).2⟩
    obtain ⟨ps, mid, hps, rfl, rfl⟩ := hcall ha
    obtain ⟨ps', mid', hps', rfl, rfl⟩ := hcall hb
    exact alike_emit hargs hplaceless h hps hps' rfl rfl hroom hroom'
  | stringContains =>
    have hcall {code code' : Code} {binding k : Ref}
        (h : (v.special .stringContains t binding name args).Yields code k code') :
        ∃ ps mid, (args ⟨1, [.any]⟩ t).Yields code ps mid ∧
          mid.addChunk (.call (if ((ps.head?).map mid.dereference).getD .nil = .string
            then "containsString" else "containsArrayString") .bool binding ps) = code' ∧
          code'.lastRef = k := by
      simp only [special_stringContains] at h
      obtain ⟨ps, mid, hps, h⟩ := yields_bind.mp h
      obtain ⟨found, _, hfirst, h⟩ := yields_bind.mp h
      obtain ⟨hfound, rfl⟩ := yields_firstType.mp hfirst
      refine ⟨ps, mid, hps, ?_⟩
      rw [hfound]
      split at h
      · exact yields_emit.mp h
      · exact yields_emit.mp h
      · exact absurd h not_yields_throw
    obtain ⟨ps, mid, hps, rfl, rfl⟩ := hcall ha
    obtain ⟨ps', mid', hps', rfl, rfl⟩ := hcall hb
    have hmid := Code.room_of_addChunk hroom
    have hmid' := Code.room_of_addChunk hroom'
    rw [firstType_eq ((hplaceless _ _).alike hps hps' hmid hmid') hmid hmid'] at hroom ⊢
    exact alike_emit hargs hplaceless h hps hps' rfl rfl hroom hroom'
  | listLength =>
    simp only [special_listLength] at ha hb
    obtain ⟨ps, mid, hps, ha⟩ := yields_bind.mp ha
    obtain ⟨ps', mid', hps', hb⟩ := yields_bind.mp hb
    obtain ⟨⟨list, u⟩, code, hlist, ha⟩ := yields_bind.mp ha
    obtain ⟨⟨list', u'⟩, code', hlist', hb⟩ := yields_bind.mp hb
    obtain ⟨rfl, rfl⟩ := yields_emit.mp ha
    obtain ⟨rfl, rfl⟩ := yields_emit.mp hb
    have hreceiver := h.of_begins ((hargs _ _).begins hps) ((hargs _ _).begins hps')
    obtain ⟨_, hlisted⟩ := alike_emitList hreceiver hlist hlist'
      (Code.room_of_addChunk hroom) (Code.room_of_addChunk hroom')
    exact .call hlisted .nil hroom hroom'
  | listWhere =>
    simp only [special_listWhere] at ha hb
    obtain ⟨⟨list, u⟩, code, hlist, ha⟩ := yields_bind.mp ha
    obtain ⟨⟨list', u'⟩, code', hlist', hb⟩ := yields_bind.mp hb
    obtain ⟨ps, mid, hps, ha⟩ := yields_bind.mp ha
    obtain ⟨ps', mid', hps', hb⟩ := yields_bind.mp hb
    obtain ⟨rfl, rfl⟩ := yields_emit.mp ha
    obtain ⟨rfl, rfl⟩ := yields_emit.mp hb
    obtain ⟨rfl, hlisted⟩ := alike_emitList h hlist hlist'
      (((hargs _ _).begins hps).room (Code.room_of_addChunk hroom))
      (((hargs _ _).begins hps').room (Code.room_of_addChunk hroom'))
    exact alike_emit hargs hplaceless hlisted hps hps' rfl rfl hroom hroom'

end Standard

private theorem placeless (v : Vocabulary F) (digest : Digest) (form : SpecialForm) :
    v.Placeless digest form where
  appends _ h := (special_emits (fun _ _ => appends_argumentList h _ _) form).appends
  alike h halike ha hb hroom hroom' :=
    alike_special (fun _ _ => appends_argumentList (fun arg harg => (h arg harg).appends) _ _)
      (fun _ _ => placeless_argumentList h _ _ _) form halike ha hb hroom hroom'

section Syntax

variable [Handling F Rule Form] {v : Vocabulary F Rule Form}

/-- Whether all functions of a vocabulary compile to chunks that are alike. -/
def AllPlaceless (v : Vocabulary F Rule Form) (digest : Digest) : Prop :=
  ∀ t name signature form, v.builtins.lookup? t name = some ⟨signature, .special form⟩ →
    v.Placeless digest form

/-- The functions in common use are all of that kind. -/
theorem allPlaceless (v : Vocabulary F) (digest : Digest) : v.AllPlaceless digest :=
  fun _ _ _ form _ => placeless v digest form

theorem AllPlaceless.onlyAppends (hv : v.AllPlaceless digest) : v.OnlyAppends :=
  fun _ _ _ _ hlookup => (hv _ _ _ _ hlookup).appends

private theorem alike_call (hv : v.AllPlaceless digest) {args : List (Argument Code)}
    (hargs : ∀ arg ∈ args, arg.Placeless digest) {name : String} (h : Alike digest a r b q)
    (ha : Build.Yields (workshop.call v (a.chunkType r) r name args) a i a')
    (hb : Build.Yields (workshop.call v (a.chunkType r) q name args) b j b')
    (hroom : a'.Room 0) (hroom' : b'.Room 0) : Alike digest a' i b' j := by
  have hcall (binding : Ref) : workshop.call v (a.chunkType r) binding name args =
      workshop.method v (a.chunkType r) binding name args.length (v.argumentList id name args)
        fun form => Handling.compile v form ⟨a.chunkType r, binding, name, args⟩ := rfl
  rw [hcall, Workshop.method] at ha hb
  cases hfield : v.field? (a.chunkType r) name with
  | some field =>
    simp only [hfield, yields_unless] at ha hb
    obtain ⟨rfl, rfl⟩ := yields_emit.mp ha.2.2
    obtain ⟨rfl, rfl⟩ := yields_emit.mp hb.2.2
    exact .call h .nil hroom hroom'
  | none =>
    rcases hlookup : v.builtins.lookup? (a.chunkType r) name with _ | ⟨signature, rule | form⟩
    · simp only [hfield, hlookup] at ha
      exact absurd ha not_yields_throw
    · simp only [hfield, hlookup] at ha hb
      obtain ⟨ps, mid, hps, ha⟩ := yields_bind.mp ha
      obtain ⟨ps', mid', hps', hb⟩ := yields_bind.mp hb
      obtain ⟨rfl, rfl⟩ := yields_emit.mp ha
      obtain ⟨rfl, rfl⟩ := yields_emit.mp hb
      have happends : Build.Appends (v.argumentList id name args signature (a.chunkType r)) :=
        appends_argumentList (fun arg harg => (hargs arg harg).appends) _ _
      have hparts := (placeless_argumentList hargs _ _ _).alike hps hps'
        (Code.room_of_addChunk hroom) (Code.room_of_addChunk hroom')
      exact .call (h.of_begins (happends.begins hps) (happends.begins hps')) hparts hroom hroom'
    · simp only [hfield, hlookup] at ha hb
      exact (hv _ _ _ _ hlookup).alike hargs h ha hb hroom hroom'

mutual

private theorem placeless_compileExpr (hv : v.AllPlaceless digest) (e : Expr) :
    Build.Placeless (Alike digest) (v.compileExpr none e) := by
  constructor
  intro a i a' b j b' ha hb hroom hroom'
  cases e with
  | literal l =>
    rw [compileExpr_literal] at ha hb
    obtain ⟨p, _, hp, ha⟩ := yields_bind.mp ha
    obtain ⟨p', _, hp', hb⟩ := yields_bind.mp hb
    obtain ⟨hl, rfl⟩ := yields_ofExcept.mp hp
    obtain ⟨hl', rfl⟩ := yields_ofExcept.mp hp'
    obtain rfl := Except.ok.inj (hl.symm.trans hl')
    obtain ⟨rfl, rfl⟩ := yields_emit.mp ha
    obtain ⟨rfl, rfl⟩ := yields_emit.mp hb
    exact .constant (Literal.constant_of_toPrimitive hl) hroom hroom'
  | element => exact absurd ha not_yields_throw
  | block body => exact absurd ha not_yields_throw
  | call receiver name args =>
    have hargs := placeless_args hv args
    have happends : ∀ t binding,
        Build.Appends (workshop.call v t binding name (workshop.args v none args)) :=
      fun _ _ => appends_call hv.onlyAppends (appends_args hv.onlyAppends none args)
    obtain ⟨r, mid, hr, ha⟩ := yields_bind.mp ha
    obtain ⟨q, mid', hq, hb⟩ := yields_bind.mp hb
    obtain ⟨_, _, hget, ha⟩ := yields_bind.mp ha
    obtain ⟨rfl, rfl⟩ := yields_get.mp hget
    obtain ⟨_, _, hget, hb⟩ := yields_bind.mp hb
    obtain ⟨rfl, rfl⟩ := yields_get.mp hget
    have hmid := ((happends _ _).begins ha).room hroom
    have hmid' := ((happends _ _).begins hb).room hroom'
    have hreceiver := (placeless_compileExpr hv receiver).alike hr hq hmid hmid'
    -- the same function is called, since the receivers have the same type
    rw [← (hreceiver.same (.refl _) (.refl _) hmid hmid').1] at hb
    exact alike_call hv hargs hreceiver ha hb hroom hroom'
  | root name args =>
    have hexpr : v.compileExpr none (.root name args) = (do
        let info ← v.constructible name
        let ps ← named id info name [] (workshop.args v none args)
        Build.emit (.call name (.resource name) 0 ps) : Build Ref) := rfl
    rw [hexpr] at ha hb
    obtain ⟨info, _, hinfo, ha⟩ := yields_bind.mp ha
    obtain ⟨info', _, hinfo', hb⟩ := yields_bind.mp hb
    obtain ⟨ps, mid, hps, ha⟩ := yields_bind.mp ha
    obtain ⟨ps', mid', hps', hb⟩ := yields_bind.mp hb
    obtain ⟨rfl, rfl⟩ := yields_emit.mp ha
    obtain ⟨rfl, rfl⟩ := yields_emit.mp hb
    obtain rfl := yields_constructible hinfo hinfo'
    exact .resource ((placeless_named (placeless_args hv args) _ _ _).alike hps hps'
      (Code.room_of_addChunk hroom) (Code.room_of_addChunk hroom')) hroom hroom'

theorem placeless_args (hv : v.AllPlaceless digest) (args : List (Arg Expr)) :
    ∀ arg ∈ workshop.args v none args, arg.Placeless digest := by
  rcases args with _ | ⟨⟨name, value⟩, rest⟩
  · exact fun _ h => nomatch h
  · rw [Workshop.args]
    have hlater := placeless_args hv rest
    have hvalue := placeless_compileExpr hv value
    refine List.forall_mem_cons.mpr ⟨⟨?_, ?_, fun bound => ?_⟩, hlater⟩
    · exact appends_args hv.onlyAppends none (⟨name, value⟩ :: rest) _ (by
        rw [Workshop.args]; exact List.mem_cons_self)
    · exact Build.placeless_operand value hvalue
    · dsimp only
      split
      · exact Build.placeless_block bound _
      · exact ⟨fun h => absurd h not_yields_throw⟩

end

private theorem yields_compileBody (hv : v.OnlyAppends) {scope : Option Ty} {body : List Expr}
    (h : (v.compileBody scope body).Yields a () a') :
    a.Begins a' ∧ a.entrypoints <+: a'.entrypoints := by
  induction body generalizing a with
  | nil =>
    obtain ⟨_, rfl⟩ := yields_pure.mp h
    exact ⟨.refl a, List.prefix_rfl⟩
  | cons e rest ih =>
    rw [compileBody_cons] at h
    obtain ⟨r, mid, he, h⟩ := yields_bind.mp h
    obtain ⟨_, _, hentry, hrest⟩ := yields_bind.mp h
    obtain rfl := yields_modify.mp hentry
    have hcontinues := (appends_compileExpr hv scope e).continues he
    obtain ⟨hbegins, hpoints⟩ := ih hrest
    refine ⟨hcontinues.begins.trans ⟨hbegins.chunks, hbegins.functions⟩, ?_⟩
    rw [← hcontinues.entrypoints]
    exact (List.prefix_append _ _).trans hpoints

/-- In a query each expression is compiled on what those before it have left, and is found by its
entry point. -/
private theorem exists_compileExpr (hv : v.OnlyAppends) {e : Expr} {before after : List Expr}
    (h : (v.compileBody none (before ++ e :: after)).Yields a () a') :
    ∃ code r code', (v.compileExpr none e).Yields code r code' ∧ code'.Begins a' ∧
      a'.entrypoints[a.entrypoints.length + before.length]? = some r := by
  induction before generalizing a with
  | nil =>
    rw [List.nil_append, compileBody_cons] at h
    obtain ⟨r, mid, he, h⟩ := yields_bind.mp h
    obtain ⟨_, _, hentry, hrest⟩ := yields_bind.mp h
    obtain rfl := yields_modify.mp hentry
    have hcontinues := (appends_compileExpr hv none e).continues he
    obtain ⟨hbegins, rest, hpoints⟩ := yields_compileBody hv hrest
    refine ⟨a, r, mid, he, ⟨hbegins.chunks, hbegins.functions⟩, ?_⟩
    rw [← hpoints]
    simp [Code.addEntrypoint, hcontinues.entrypoints]
  | cons f before ih =>
    rw [List.cons_append, compileBody_cons] at h
    obtain ⟨q, mid, hf, h⟩ := yields_bind.mp h
    obtain ⟨_, _, hentry, hrest⟩ := yields_bind.mp h
    obtain rfl := yields_modify.mp hentry
    have hcontinues := (appends_compileExpr hv none f).continues hf
    obtain ⟨code, r, code', he, hbegins, hpoint⟩ := ih hrest
    refine ⟨code, r, code', he, hbegins, ?_⟩
    rw [← hpoint]
    simp only [Code.addEntrypoint, hcontinues.entrypoints, List.length_append, List.length_cons,
      List.length_nil]
    congr 1
    omega

/-- The checksum of an expression is the same in every query that it is part of, whatever stands
before and after it, if the functions that compile in ways of their own keep to what is alike. -/
theorem checksum_compile_eq (hv : v.AllPlaceless digest) {e : Expr}
    {before after before' after' : List Expr}
    (ha : v.compile digest (before ++ e :: after) = .ok a)
    (hb : v.compile digest (before' ++ e :: after') = .ok b) (hroom : a.Room 0)
    (hroom' : b.Room 0) :
    ∃ r q sum, a.entrypoints[before.length]? = some r ∧ b.entrypoints[before'.length]? = some q ∧
      a.checksum? r = some sum ∧ b.checksum? q = some sum := by
  have hentry {before after : List Expr} {code : Code}
      (h : v.compile digest (before ++ e :: after) = .ok code) (hroom : code.Room 0) :
      ∃ start r stop built, (v.compileExpr none e).Yields start r stop ∧ stop.Begins built ∧
        code = built.stamp digest ∧ built.Room 0 ∧ code.entrypoints[before.length]? = some r := by
    rw [compile] at h
    split at h
    · next built hbuilt =>
      obtain ⟨start, r, stop, he, hbegins, hpoint⟩ := exists_compileExpr hv.onlyAppends hbuilt
      obtain ⟨hchunks, hpoints, _, hfunctions⟩ := Code.stamp_eq digest built
      obtain rfl := Except.ok.inj h
      refine ⟨start, r, stop, built, he, hbegins, rfl, ?_, ?_⟩
      · rwa [Code.Room, hchunks, hfunctions, List.length_map] at hroom
      · rw [hpoints]
        simpa [Code.empty] using hpoint
    · cases h
  obtain ⟨_, r, stop, built, he, hbegins, rfl, hroom, hr⟩ := hentry ha hroom
  obtain ⟨_, q, stop', built', he', hbegins', rfl, hroom', hq⟩ := hentry hb hroom'
  have halike := (placeless_compileExpr hv e).alike he he' (hbegins.room hroom)
    (hbegins'.room hroom')
  obtain ⟨sum, hsum, hsum'⟩ := (halike.of_begins hbegins hbegins').exists_checksum hroom hroom'
  exact ⟨r, q, sum, hr, hq, hsum, hsum'⟩

end Syntax

section Handlers

/-- Whether an array is empty: whether its length is 0. -/
def isEmptyStep : CompileStep Unit := fun _ call => do
  let length ← Build.emit (.call "length" .int call.binding [])
  let _ ← Build.emit (.call "==" .bool length [.int 0])

/-- A function that gives the number of the chunk that it is called on. -/
def numberStep : CompileStep Unit := fun _ call => do
  let _ ← Build.emit (.ofPrimitive (.int call.binding.toInt64))

/-- A vocabulary with one function that compiles in a way of its own. -/
def oneStep (name : String) (step : CompileStep Unit) :
    Vocabulary Unit (Ty → Ty) (CompileStep Unit) where
  registry := .empty
  builtins := (Builtins.empty : Builtins (Ty → Ty) (CompileStep Unit))
    |>.addSimple .int [.int] (fun _ => .bool) [">"]
    |>.addSimple .arrayLike [.functionLike] id ["where"]
    |>.addSpecial .arrayLike name [] step

private theorem isEmptyStep_yields (v : Vocabulary Unit (Ty → Ty) (CompileStep Unit)) (t : Ty)
    (name : String) (args : List (Argument Code)) (code : Code) (binding : Ref) :
    let length := code.addChunk (.call "length" .int binding [])
    let compared := length.addChunk (.call "==" .bool length.lastRef [.int 0])
    (Handling.compile v isEmptyStep ⟨t, binding, name, args⟩).Yields code compared.lastRef
      compared := rfl

private theorem placeless_isEmpty (v : Vocabulary Unit (Ty → Ty) (CompileStep Unit)) :
    v.Placeless digest isEmptyStep where
  appends _ _ := .bind (.bind (.emit _) fun _ => .bind (.emit _) fun _ => .pure _) fun _ =>
    .bind .get fun _ => .pure _
  alike _ h ha hb hroom hroom' := by
    obtain ⟨hi, rfl⟩ := Prod.mk.inj (ha.symm.trans (isEmptyStep_yields v _ _ _ _ _))
    obtain ⟨hj, rfl⟩ := Prod.mk.inj (hb.symm.trans (isEmptyStep_yields v _ _ _ _ _))
    obtain rfl := Except.ok.inj hi
    obtain rfl := Except.ok.inj hj
    have hlength := Alike.call (t := .int) h .nil (Code.room_of_addChunk hroom)
      (Code.room_of_addChunk hroom')
    exact .call hlength (.cons (.constant (.flat rfl)) .nil) hroom hroom'

private theorem mem_of_lookup? {b : Builtins Rule Form} {t : Ty} {name : String}
    {handler : Handler Rule Form} (h : b.lookup? t name = some handler) :
    ∃ c ∈ b.classes, ∃ entry ∈ c.2.entries, entry.2 = handler := by
  rw [Builtins.lookup?, Builtins.handlers] at h
  cases hclass : b.classes.lookup t.underlying with
  | none =>
    rw [hclass] at h
    cases h
  | some table =>
    rw [hclass, Option.getD_some, Option.or_eq_some_iff] at h
    rcases h with h | ⟨_, h⟩
    · exact ⟨_, Table.mem_of_lookup hclass, _, Table.mem_of_lookup h, rfl⟩
    · exact ⟨_, Table.mem_of_lookup hclass, _, Table.mem_of_lookup h, rfl⟩

private theorem allPlaceless_isEmpty : (oneStep "isEmpty" isEmptyStep).AllPlaceless digest := by
  intro t name signature form h
  obtain ⟨c, hc, entry, hentry, heq⟩ := mem_of_lookup? h
  have hkinds : (oneStep "isEmpty" isEmptyStep).builtins.classes.flatMap
      (fun c => c.2.entries.map fun e => e.2.kind) =
        [.special isEmptyStep, .simple id, .simple fun _ => .bool] := rfl
  have hmem : HandlerKind.special form ∈ (oneStep "isEmpty" isEmptyStep).builtins.classes.flatMap
      (fun c => c.2.entries.map fun e => e.2.kind) :=
    List.mem_flatMap.mpr ⟨c, hc, List.mem_map.mpr ⟨entry, hentry, by rw [heq]⟩⟩
  rw [hkinds] at hmem
  obtain rfl : form = isEmptyStep := by simpa using hmem
  exact placeless_isEmpty _

/-- The numbers above one, and whether there are none. -/
def noneAbove : Expr :=
  .call (.call (.literal (.array [.int 1, .int 2])) "where"
    [⟨none, .block [.call .element ">" [⟨none, .literal (.int 1)⟩]]⟩]) "isEmpty" []

theorem checksum_noneAbove :
    (oneStep "isEmpty" isEmptyStep).AllPlaceless sha256Digest ∧
      ∃ a b sum, (oneStep "isEmpty" isEmptyStep).compile sha256Digest ([] ++ noneAbove :: []) =
          .ok a ∧
        (oneStep "isEmpty" isEmptyStep).compile sha256Digest
          ([.literal (.int 0), noneAbove] ++ noneAbove :: []) = .ok b ∧
        a.Room 0 ∧ b.Room 0 ∧ a.entrypoints = [4] ∧ b.entrypoints = [1, 5, 9] ∧
        a.checksum? 4 = some sum ∧ b.checksum? 9 = some sum := by
  have hpoints : ((oneStep "isEmpty" isEmptyStep).compile sha256Digest
      ([] ++ noneAbove :: [])).toOption.map
        (fun code => (code.entrypoints, code.chunks.length, code.functions.length)) =
      some ([4], 4, 1) := by
    decide +kernel
  have hpoints' : ((oneStep "isEmpty" isEmptyStep).compile sha256Digest
      ([.literal (.int 0), noneAbove] ++ noneAbove :: [])).toOption.map
        (fun code => (code.entrypoints, code.chunks.length, code.functions.length)) =
      some ([1, 5, 9], 9, 2) := by
    decide +kernel
  obtain ⟨a, ha, hpoints⟩ := Except.exists_of_toOption_map hpoints
  obtain ⟨b, hb, hpoints'⟩ := Except.exists_of_toOption_map hpoints'
  obtain ⟨hpoints, hchunks, hfunctions⟩ : a.entrypoints = [4] ∧ a.chunks.length = 4 ∧
      a.functions.length = 1 := by simpa using hpoints
  obtain ⟨hpoints', hchunks', hfunctions'⟩ : b.entrypoints = [1, 5, 9] ∧ b.chunks.length = 9 ∧
      b.functions.length = 2 := by simpa using hpoints'
  have hroom : a.Room 0 := ⟨by omega, by omega⟩
  have hroom' : b.Room 0 := ⟨by omega, by omega⟩
  obtain ⟨r, q, sum, hr, hq, hsum, hsum'⟩ :=
    checksum_compile_eq allPlaceless_isEmpty ha hb hroom hroom'
  rw [hpoints] at hr
  rw [hpoints'] at hq
  obtain rfl := Option.some.inj hr
  obtain rfl := Option.some.inj hq
  exact ⟨allPlaceless_isEmpty, a, b, sum, ha, hb, hroom, hroom', hpoints, hpoints', hsum, hsum'⟩

/-- The number of the chunk of a constant. -/
def numbered : Expr := .call (.literal (.array [.int 1])) "number" []

/-- An expression whose chunk holds the number of another has another checksum elsewhere. -/
theorem checksum_numbered :
    ∃ a b sum sum', (oneStep "number" numberStep).compile sha256Digest [numbered] = .ok a ∧
      (oneStep "number" numberStep).compile sha256Digest [.literal (.int 0), numbered] = .ok b ∧
      a.Room 0 ∧ b.Room 0 ∧ a.entrypoints = [2] ∧ b.entrypoints = [1, 3] ∧
      a.checksum? 2 = some sum ∧ b.checksum? 3 = some sum' ∧ sum ≠ sum' := by
  have hcode : ((oneStep "number" numberStep).compile sha256Digest [numbered]).toOption.map
      (fun code => (code.entrypoints, code.chunks.length, code.functions.length,
        (code.checksum? 2).isSome)) = some ([2], 2, 0, true) := by
    decide +kernel
  have hcode' : ((oneStep "number" numberStep).compile sha256Digest
      [.literal (.int 0), numbered]).toOption.map
        (fun code => (code.entrypoints, code.chunks.length, code.functions.length,
          (code.checksum? 3).isSome)) = some ([1, 3], 3, 0, true) := by
    decide +kernel
  have hne : (((oneStep "number" numberStep).compile sha256Digest [numbered]).toOption.bind
      fun code => code.checksum? 2) ≠ (((oneStep "number" numberStep).compile sha256Digest
        [.literal (.int 0), numbered]).toOption.bind fun code => code.checksum? 3) := by
    decide +kernel
  obtain ⟨a, ha, hcode⟩ := Except.exists_of_toOption_map hcode
  obtain ⟨b, hb, hcode'⟩ := Except.exists_of_toOption_map hcode'
  obtain ⟨hpoints, hchunks, hfunctions, hsum⟩ : a.entrypoints = [2] ∧ a.chunks.length = 2 ∧
      a.functions = [] ∧ (a.checksum? 2).isSome := by simpa using hcode
  obtain ⟨hpoints', hchunks', hfunctions', hsum'⟩ : b.entrypoints = [1, 3] ∧
      b.chunks.length = 3 ∧ b.functions = [] ∧ (b.checksum? 3).isSome := by simpa using hcode'
  obtain ⟨sum, hsum⟩ := Option.isSome_iff_exists.mp hsum
  obtain ⟨sum', hsum'⟩ := Option.isSome_iff_exists.mp hsum'
  have hroom : a.Room 0 := ⟨by omega, by rw [hfunctions]; decide⟩
  have hroom' : b.Room 0 := ⟨by omega, by rw [hfunctions']; decide⟩
  refine ⟨a, b, sum, sum', ha, hb, hroom, hroom', hpoints, hpoints', hsum, hsum', ?_⟩
  rintro rfl
  rw [ha, hb] at hne
  exact hne (hsum.trans hsum'.symm)

end Handlers

end Vocabulary

end AssetQuery
