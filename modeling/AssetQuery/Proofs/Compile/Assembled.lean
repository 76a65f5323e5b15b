import AssetQuery.Proofs.Code.Growth
import AssetQuery.Proofs.Compile.Build
import AssetQuery.Proofs.Compile.Literal
import Mathlib.Data.List.Forall2

/-!
# Assembled codes

What a chunk may be that compilation appends to a code, whatever the resources and the built-in
functions are, and which codes come about by appending. By induction on the size of expressions,
compilation goes from one such code to another. What is to be known of compiled codes follows from
this by induction on how they came about.
-/

namespace AssetQuery

open Build (yields_bind yields_pure yields_get yields_modify yields_emit yields_ofExcept
  not_yields_throw)

variable {F : Type} {v : Vocabulary F} {roots : Prop} {scope : Option Ty} {code mid code' : Code}

namespace Code

/-- Whether there is a chunk, no reference to another, which has some type. -/
def HasType (code : Code) (r : Ref) (t : Ty) : Prop :=
  (code.chunk? r).isSome ∧ code.typeStep r = .inl t

theorem HasType.chunkType {r : Ref} {t : Ty} (h : code.HasType r t) : code.chunkType r = t :=
  chunkType_of_typeStep h.2

theorem HasType.congr {r : Ref} {t : Ty} (h : code.HasType r t)
    (hchunk : code'.chunk? r = code.chunk? r) : code'.HasType r t := by
  obtain ⟨hsome, htype⟩ := h
  rw [typeStep] at htype
  exact ⟨hchunk ▸ hsome, by rw [typeStep, hchunk]; exact htype⟩

theorem HasType.unique {r : Ref} {t u : Ty} (h : code.HasType r t) (h' : code.HasType r u) :
    t = u := Sum.inl.inj (h.2.symm.trans h'.2)

theorem HasType.ne_zero {r : Ref} {t : Ty} (h : code.HasType r t) : r ≠ 0 := by
  rintro rfl
  have hnone : code.chunk? 0 = none := rfl
  have hsome := h.1
  rw [hnone] at hsome
  cases hsome

theorem hasType_call {r : Ref} {name : String} {t : Ty} {binding : Ref} {ps : List Primitive}
    (h : code.chunk? r = some (.call name t binding ps)) : code.HasType r t :=
  ⟨by rw [h]; rfl, by rw [typeStep, h]; rfl⟩

theorem hasType_ofPrimitive {r : Ref} {p : Primitive} (h : code.chunk? r = some (.ofPrimitive p))
    (hp : p.typ ≠ .ref) : code.HasType r p.typ :=
  ⟨by rw [h]; rfl, by rw [typeStep, h]; exact if_neg hp⟩

/-- A property has the type that it is declared with. Of one that is declared to be a reference
nothing is known. -/
theorem hasType_property {r : Ref} {name : String} {t : Ty}
    (h : code.chunk? r = some (.property name t)) :
    code.HasType r (if t = .ref then .any else t) := by
  refine ⟨by rw [h]; rfl, ?_⟩
  rw [typeStep, h]
  by_cases ht : t = .ref
  · subst ht
    rfl
  · simp [Chunk.property, Primitive.scalar, ht]

/-- An argument that is evaluated where it stands, and its type. -/
inductive Operand (code : Code) : Primitive → Ty → Prop
  | chunk {r : Ref} {t : Ty} : code.HasType r t → Operand code (.ref r) t
  | constant {l : Literal} {p : Primitive} : l.toPrimitive = .ok p → Operand code p p.typ

/-- An argument for what a function declares, called on a receiver of some type: an operand that
fits, or a block about what the receiver holds. -/
inductive Argument (v : Vocabulary F) (code : Code) (receiver expected : Ty) : Primitive → Prop
  | operand {p : Primitive} {t : Ty} :
    code.Operand p t → t.compatible expected → Argument v code receiver expected p
  | block {k : Ref} {block : Code} : expected = .functionLike → code.function? k = some block →
    block.chunk? 1 = some (.property "_" (v.blockBinding receiver)) →
    Argument v code receiver expected (.function k)

structure Supplies (v : Vocabulary F) (code : Code) (receiver : Ty) (signature : Signature)
    (ps : List Primitive) : Prop where
  fit : List.Forall₂ (code.Argument v receiver) (signature.args.take ps.length) ps
  enough : signature.required ≤ ps.length ∨ signature.args.length ≤ ps.length

/-- Arguments of a resource: the names of fields, each with an operand that fits. -/
inductive Describes (code : Code) (info : ResourceInfo) : List Primitive → Prop
  | nil : Describes code info []
  | cons {name : String} {field : Field} {p : Primitive} {t : Ty} {rest : List Primitive} :
    info.fields.find? name = some field → code.Operand p t → t.compatible field.typ →
    Describes code info rest → Describes code info (.string name :: p :: rest)

/-- The names among the arguments of a resource. -/
def argumentNames : List Primitive → List Primitive
  | name :: _ :: rest => name :: argumentNames rest
  | _ => []

end Code

/-- The type of the elements of the list that a resource is. -/
def Vocabulary.listType? (v : Vocabulary F) (t : Ty) : Option Ty :=
  (v.registry.resource? (t.resourceName?.getD "")).bind fun e => e.info.listType

namespace Code

/-- Whether compilation may append a chunk. Resources are created if `roots` holds. -/
inductive Admits (v : Vocabulary F) (roots : Prop) (code : Code) : Chunk → Prop
  | constant {l : Literal} {p : Primitive} : l.toPrimitive = .ok p →
    Admits v roots code (.ofPrimitive p)
  | resource {name : String} {entry : ResourceEntry F} {ps : List Primitive} : roots →
    v.registry.resource? name = some entry → code.Describes entry.info ps →
    entry.info.isPrivate = false → (argumentNames ps).Nodup →
    Admits v roots code (.call name (.resource name) 0 ps)
  | field {binding : Ref} {t : Ty} {name : String} {field : Field} : code.HasType binding t →
    v.field? t name = some field → field.isPrivate = false →
    Admits v roots code (.call name field.typ binding [])
  | function {binding : Ref} {t : Ty} {name : String} {signature : Signature} {result : ResultRule}
    {ps : List Primitive} : code.HasType binding t → v.field? t name = none →
    v.builtins.lookup? t name = some ⟨signature, .simple result⟩ →
    code.Supplies v t signature ps →
    Admits v roots code (.call name (result.apply t) binding ps)
  | contains {binding : Ref} {t found : Ty} {name function : String} {signature : Signature}
    {form : SpecialForm} {p : Primitive} : code.HasType binding t →
    v.builtins.lookup? t name = some ⟨signature, .special form⟩ → form.Finds t found function →
    code.Operand p found → Admits v roots code (.call function .bool binding [p])
  | list {binding : Ref} {t elem : Ty} {name : String} {signature : Signature}
    {form : SpecialForm} : code.HasType binding t →
    v.builtins.lookup? t name = some ⟨signature, .special form⟩ →
    form = .listLength ∨ form = .listWhere → v.listType? t = some elem →
    Admits v roots code (.call "list" (.array elem) binding [])
  | length {list : Ref} {elem : Ty} : code.HasType list (.array elem) →
    Admits v roots code (.call "length" .int list [])
  | filter {list : Ref} {elem : Ty} {ps : List Primitive} : code.HasType list (.array elem) →
    code.Supplies v (.array elem) ⟨1, [.functionLike]⟩ ps →
    Admits v roots code (.call "where" (.array elem) list ps)

/-- A code that comes about by appending what compilation may append, at the top or in a block about
an element. -/
inductive Assembled (v : Vocabulary F) (roots : Prop) : Option Ty → Code → Prop
  | empty : Assembled v roots none .empty
  | start (bound : Ty) : Assembled v roots (some bound) (Build.blockStart bound)
  | chunk {scope : Option Ty} {code : Code} {c : Chunk} : Assembled v roots scope code →
    code.Admits v roots c → Assembled v roots scope (code.addChunk c)
  | function {scope : Option Ty} {bound : Ty} {code block : Code} : Assembled v roots scope code →
    Assembled v roots (some bound) block → Assembled v roots scope (code.addFunction block)
  | entrypoint {scope : Option Ty} {code : Code} {r : Ref} {label : String} :
    Assembled v roots scope code → (code.chunk? r).isSome →
    Assembled v roots scope (code.addEntrypoint r label)

/-- Whether a code has the chunks of another, and blocks that open as its blocks do. -/
structure Within (code code' : Code) : Prop where
  chunk : ∀ r c, code.chunk? r = some c → code'.chunk? r = some c
  block : ∀ k block, code.function? k = some block →
    ∃ block', code'.function? k = some block' ∧ block'.chunk? 1 = block.chunk? 1

theorem Grows.within {most : Nat} (h : code.Grows most code') : code.Within code' :=
  ⟨fun _ _ hc => chunk?_of_leading h.chunks hc,
    fun _ block hblock => ⟨block, nth?_of_leading h.functions hblock, rfl⟩⟩

section Within

variable {receiver expected t : Ty} {p : Primitive} {ps : List Primitive}

theorem HasType.of_within {r : Ref} (h : code.HasType r t) (hwithin : code.Within code') :
    code'.HasType r t := by
  obtain ⟨c, hc⟩ := Option.isSome_iff_exists.mp h.1
  exact h.congr ((hwithin.chunk r c hc).trans hc.symm)

theorem Operand.of_within (h : code.Operand p t) (hwithin : code.Within code') :
    code'.Operand p t := by
  cases h with
  | chunk h => exact .chunk (h.of_within hwithin)
  | constant h => exact .constant h

theorem Argument.of_within (h : code.Argument v receiver expected p)
    (hwithin : code.Within code') : code'.Argument v receiver expected p := by
  cases h with
  | operand h hfits => exact .operand (h.of_within hwithin) hfits
  | @block k _ hexpected hblock hbound =>
    obtain ⟨block', hblock', hopens⟩ := hwithin.block k _ hblock
    exact .block hexpected hblock' (hopens.trans hbound)

private theorem Supplies.of_within {signature : Signature}
    (h : code.Supplies v receiver signature ps)
    (hwithin : code.Within code') : code'.Supplies v receiver signature ps :=
  ⟨h.fit.imp fun _ _ hp => hp.of_within hwithin, h.enough⟩

private theorem Describes.of_within {info : ResourceInfo} (h : code.Describes info ps)
    (hwithin : code.Within code') : code'.Describes info ps := by
  induction h with
  | nil => exact .nil
  | cons hfield hp hfits _ ih => exact .cons hfield (hp.of_within hwithin) hfits ih

theorem Admits.of_within {c : Chunk} (h : code.Admits v roots c) (hwithin : code.Within code') :
    code'.Admits v roots c := by
  cases h with
  | constant hp => exact .constant hp
  | resource hroots hentry h hpublic hnames =>
    exact .resource hroots hentry (h.of_within hwithin) hpublic hnames
  | field hbinding hfield hpublic =>
    exact .field (hbinding.of_within hwithin) hfield hpublic
  | function hbinding hfield hlookup h =>
    exact .function (hbinding.of_within hwithin) hfield hlookup (h.of_within hwithin)
  | contains hbinding hlookup hfinds h =>
    exact .contains (hbinding.of_within hwithin) hlookup hfinds (h.of_within hwithin)
  | list hbinding hlookup hform helem =>
    exact .list (hbinding.of_within hwithin) hlookup hform helem
  | length hlist => exact .length (hlist.of_within hwithin)
  | filter hlist h => exact .filter (hlist.of_within hwithin) (h.of_within hwithin)

theorem Operand.dereference (h : code.Operand p t) : code.dereference p = t := by
  cases h with
  | chunk h => exact (dereference_ref code _).trans h.chunkType
  | constant h =>
    exact dereference_of_ne_ref code
      (Ty.ne_ref_of_isLiteral (Literal.toPrimitive_written h).isLiteral)

/-- An argument for which no block is declared is an operand. -/
theorem Argument.exists_operand (h : code.Argument v receiver expected p)
    (hexpected : expected ≠ .functionLike) :
    ∃ t, code.Operand p t ∧ t.compatible expected := by
  cases h with
  | operand h hfits => exact ⟨_, h, hfits⟩
  | block h => exact absurd h hexpected

end Within

/-- What is declared as one argument, which has to be there, is supplied by one. -/
theorem Supplies.exists_eq {receiver expected : Ty} {ps : List Primitive}
    (h : code.Supplies v receiver ⟨1, [expected]⟩ ps) :
    ∃ p, ps = [p] ∧ code.Argument v receiver expected p := by
  obtain ⟨hfit, henough⟩ := h
  rcases ps with _ | ⟨p, _ | ⟨q, rest⟩⟩
  · simp at henough
  · simp only [List.length_singleton, List.take_succ_cons, List.take_zero] at hfit
    exact ⟨p, rfl, (List.forall₂_cons.mp hfit).1⟩
  · simpa using hfit.length_eq

theorem Assembled.opens (h : code.Assembled v roots scope) :
    ∀ t ∈ scope, code.chunk? 1 = some (.property "_" t) := by
  induction h with
  | empty => exact nofun
  | start bound =>
    rintro t ⟨⟩
    rfl
  | chunk _ _ ih => exact fun t ht => chunk?_of_leading (List.prefix_append _ _) (ih t ht)
  | function _ _ ih => exact ih
  | entrypoint _ _ ih => exact ih

end Code

namespace Code

theorem getElem?_blockStart {bound : Ty} {i : Nat} {c : Chunk}
    (h : (Build.blockStart bound).chunks[i]? = some c) : i = 0 ∧ c = .property "_" bound := by
  have h : [Chunk.property "_" bound][i]? = some c := h
  rw [List.getElem?_singleton] at h
  split at h
  · next hi => exact ⟨hi, (Option.some.inj h).symm⟩
  · cases h

theorem getElem?_addChunk_cases {i : Nat} {c d : Chunk}
    (h : (code.addChunk d).chunks[i]? = some c) :
    code.chunks[i]? = some c ∨ i = code.chunks.length ∧ c = d := by
  simp only [addChunk] at h
  rcases Nat.lt_trichotomy i code.chunks.length with hlt | rfl | hgt
  · rw [List.getElem?_append_left hlt] at h
    exact .inl h
  · rw [List.getElem?_append_right (Nat.le_refl _), Nat.sub_self] at h
    exact .inr ⟨rfl, (Option.some.inj h).symm⟩
  · have hlength := (List.getElem?_eq_some_iff.mp h).1
    simp only [List.length_append, List.length_singleton] at hlength
    omega

/-- A chunk of an assembled code is the element in scope, or was appended to the code that came
before it. -/
theorem Assembled.chunk_cases (h : code.Assembled v roots scope) {i : Nat} {c : Chunk}
    (hc : code.chunks[i]? = some c) :
    (∃ t ∈ scope, i = 0 ∧ c = .property "_" t) ∨
      ∃ (before : Code) (most : Nat), before.Assembled v roots scope ∧
        before.Grows most code ∧ before.chunks.length = i ∧ before.Admits v roots c := by
  induction h with
  | empty => cases hc
  | start bound =>
    obtain ⟨hi, rfl⟩ := getElem?_blockStart hc
    exact .inl ⟨bound, rfl, hi, rfl⟩
  | @chunk scope code d h hd ih =>
    rcases getElem?_addChunk_cases hc with hc | ⟨hi, rfl⟩
    · refine (ih hc).imp (fun h => h) ?_
      rintro ⟨before, most, hbefore, hgrows, hadmits⟩
      exact ⟨before, _, hbefore, hgrows.trans (.addChunk code d), hadmits⟩
    · exact .inr ⟨code, _, h, .addChunk code c, hi.symm, hd⟩
  | @function scope bound code block h hblock ih =>
    refine (ih hc).imp (fun h => h) ?_
    rintro ⟨before, most, hbefore, hgrows, hadmits⟩
    exact ⟨before, _, hbefore, hgrows.trans (.addFunction code block), hadmits⟩
  | @entrypoint scope code q label h hq ih =>
    refine (ih hc).imp (fun h => h) ?_
    rintro ⟨before, most, hbefore, hgrows, hadmits⟩
    exact ⟨before, _, hbefore, hgrows.trans (.addEntrypoint code q label), hadmits⟩

theorem getElem?_of_chunk? {r : Ref} {c : Chunk} (h : code.chunk? r = some c) :
    0 < r.toInt ∧ code.chunks[r.toInt.toNat - 1]? = some c := by
  rw [chunk?, nth?] at h
  split at h
  · next hr => exact ⟨hr, h⟩
  · cases h

theorem chunk?_of_getElem? {r : Ref} {c : Chunk} (hr : 0 < r.toInt)
    (h : code.chunks[r.toInt.toNat - 1]? = some c) : code.chunk? r = some c := by
  rw [chunk?, nth?, if_pos hr]
  exact h

theorem Assembled.admits (h : code.Assembled v roots scope) {r : Ref} {c : Chunk}
    (hc : code.chunk? r = some c) :
    (∃ t ∈ scope, c = .property "_" t) ∨ code.Admits v roots c := by
  rcases h.chunk_cases (getElem?_of_chunk? hc).2 with
    ⟨t, ht, _, rfl⟩ | ⟨_, _, _, hgrows, _, hadmits⟩
  · exact .inl ⟨t, ht, rfl⟩
  · exact .inr (hadmits.of_within hgrows.within)

theorem Assembled.hasType (h : code.Assembled v roots scope) {r : Ref}
    (hr : (code.chunk? r).isSome) : code.HasType r (code.chunkType r) := by
  suffices ∃ t, code.HasType r t by
    obtain ⟨t, ht⟩ := this
    rwa [ht.chunkType]
  obtain ⟨c, hc⟩ := Option.isSome_iff_exists.mp hr
  rcases h.admits hc with ⟨t, _, rfl⟩ | hadmits
  · exact ⟨_, hasType_property hc⟩
  · cases hadmits with
    | constant hp =>
      exact ⟨_, hasType_ofPrimitive hc
        (Ty.ne_ref_of_isLiteral (Literal.toPrimitive_written hp).isLiteral)⟩
    | _ => exact ⟨_, hasType_call hc⟩

/-- A block of an assembled code is assembled itself, about the element that it opens with. -/
theorem Assembled.block (h : code.Assembled v roots scope) {k : Ref} {block : Code}
    (hblock : code.function? k = some block) {bound : Ty}
    (hbound : block.chunk? 1 = some (.property "_" bound)) :
    block.Assembled v roots (some bound) := by
  have hmem : block ∈ code.functions := by
    rw [function?, nth?] at hblock
    split at hblock
    · exact List.mem_of_getElem? hblock
    · cases hblock
  clear hblock
  induction h with
  | empty => cases hmem
  | start => cases hmem
  | chunk _ _ ih => exact ih hmem
  | @function scope bound' code found _ hfound ih _ =>
    rcases List.mem_append.mp hmem with hmem | hmem
    · exact ih hmem
    · obtain rfl := List.mem_singleton.mp hmem
      have hopens := (hfound.opens bound' rfl).symm.trans hbound
      injection Option.some.inj hopens with _ _ _ htyp
      injection Option.some.inj htyp with htyp
      exact htyp ▸ hfound
  | entrypoint _ _ ih => exact ih hmem

section Stamp

variable (digest : Digest)

theorem stamp_chunk? (code : Code) (r : Ref) : (code.stamp digest).chunk? r = code.chunk? r := by
  rw [chunk?, (stamp_eq digest code).1]
  rfl

theorem stamp_function? (code : Code) (k : Ref) :
    (code.stamp digest).function? k = (code.function? k).map (stamp digest) := by
  rw [function?, (stamp_eq digest code).2.2.2, nth?_map]
  rfl

theorem within_stamp (code : Code) : code.Within (code.stamp digest) where
  chunk r c hc := (stamp_chunk? digest code r).trans hc
  block k block hblock := by
    refine ⟨block.stamp digest, ?_, stamp_chunk? digest block 1⟩
    rw [stamp_function?, hblock]
    rfl

end Stamp

end Code

/-- What a step of compilation has done: it appended some chunks and blocks. -/
structure Appends (v : Vocabulary F) (roots : Prop) (scope : Option Ty) (most : Nat)
    (code code' : Code) : Prop where
  grows : code.Grows most code'
  assembled : code'.Assembled v roots scope
  entrypoints : code'.entrypoints = code.entrypoints
  labels : code'.labels = code.labels

namespace Appends

theorem refl (h : code.Assembled v roots scope) (most : Nat) :
    Appends v roots scope most code code :=
  ⟨.refl code most, h, rfl, rfl⟩

theorem trans {m n : Nat} (h : Appends v roots scope m code mid)
    (h' : Appends v roots scope n mid code') : Appends v roots scope (m + n) code code' :=
  ⟨h.grows.trans h'.grows, h'.assembled, h'.entrypoints.trans h.entrypoints,
    h'.labels.trans h.labels⟩

private theorem mono {m n : Nat} (h : Appends v roots scope m code code') (hle : m ≤ n) :
    Appends v roots scope n code code' :=
  ⟨h.grows.mono hle, h.assembled, h.entrypoints, h.labels⟩

private theorem chunk (h : code.Assembled v roots scope) {c : Chunk} (hc : code.Admits v roots c) :
    Appends v roots scope 1 code (code.addChunk c) :=
  ⟨.addChunk code c, .chunk h hc, rfl, rfl⟩

end Appends

/-- What the compilation of an expression has done: it appended chunks, the last of which stands for
the expression, or the expression is the element in scope. -/
structure Places (v : Vocabulary F) (roots : Prop) (scope : Option Ty) (most : Nat) (code : Code)
    (r : Ref) (code' : Code) : Prop where
  appends : Appends v roots scope most code code'
  position : (∃ t ∈ scope, code'.chunk? r = some (.property "_" t)) ∧ r = 1 ∨
    code.chunks.length < code'.chunks.length ∧ r.toInt = code'.chunks.length

private theorem Code.chunk?_isSome_of_toInt {r : Ref} (h : r.toInt = code.chunks.length)
    (hpos : 0 < code.chunks.length) : (code.chunk? r).isSome := by
  rw [Code.chunk?, nth?, if_pos (by omega), h]
  simp only [Int.toNat_natCast, List.getElem?_eq_getElem (show code.chunks.length - 1 <
    code.chunks.length by omega), Option.isSome_some]

theorem Places.isSome {most : Nat} {r : Ref} (h : Places v roots scope most code r code') :
    (code'.chunk? r).isSome := by
  rcases h.position with ⟨⟨t, _, hr⟩, _⟩ | ⟨hlt, hr⟩
  · rw [hr]
    rfl
  · exact Code.chunk?_isSome_of_toInt hr (by omega)

theorem Places.emit (h : code.Assembled v roots scope) {c : Chunk} (hc : code.Admits v roots c)
    (hroom : code.Room 1) {r : Ref} (hemit : (Build.emit c).Yields code r code') :
    Places v roots scope 1 code r code' ∧ code'.chunk? r = some c := by
  obtain ⟨rfl, rfl⟩ := yields_emit.mp hemit
  refine ⟨⟨.chunk h hc, .inr ⟨?_, ?_⟩⟩, Code.chunk?_addChunk hroom c⟩
  · simp [Code.addChunk]
  · rw [Code.toInt_lastRef_addChunk hroom]
    simp [Code.addChunk]

theorem Places.after {m n : Nat} {r : Ref} (h' : Places v roots scope n mid r code')
    (h : Appends v roots scope m code mid) : Places v roots scope (m + n) code r code' := by
  refine ⟨h.trans h'.appends, h'.position.imp id fun hlast => ⟨?_, hlast.2⟩⟩
  have := h.grows.chunks.length_le
  omega

theorem Places.mono {m n : Nat} {r : Ref} (h : Places v roots scope m code r code')
    (hle : m ≤ n) : Places v roots scope n code r code' :=
  ⟨h.appends.mono hle, h.position⟩

end AssetQuery
