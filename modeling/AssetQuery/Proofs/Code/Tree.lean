import AssetQuery.Proofs.Compile.Literal
import AssetQuery.Proofs.Compile.WellFormed

/-!
# Trees of chunks

What a chunk computes, without numbers: the chunks and blocks that it uses stand in their places as
trees themselves. Every chunk of a compiled code has a tree, and keeps it when the code goes on or
gets its checksums.
-/

namespace AssetQuery

variable {F : Type} {v : Vocabulary F} {roots : Prop} {scope : Option Ty} {code code' : Code}

mutual

/-- A chunk with all that it uses. -/
inductive Tree where
  | constant (p : Primitive)
  | property (name : String) (typ : Ty)
  | resource (name : String) (typ : Ty) (args : List Part)
  | call (receiver : Tree) (name : String) (typ : Ty) (args : List Part)

/-- An argument with all that it uses. -/
inductive Part where
  | constant (p : Primitive)
  | chunk (tree : Tree)
  | block (body : List Tree)

end

mutual

/-- Whether a chunk of a code unfolds to a tree. -/
def Tree.At : Tree → Code → Ref → Prop
  | .constant p, code, r => p.Constant ∧ code.chunk? r = some (.ofPrimitive p)
  | .property name typ, code, r => code.chunk? r = some (.property name typ)
  | .resource name typ args, code, r =>
    ∃ ps, code.chunk? r = some (.call name typ 0 ps) ∧ Part.AtAll args code ps
  | .call receiver name typ args, code, r =>
    ∃ binding ps, code.chunk? r = some (.call name typ binding ps) ∧ receiver.At code binding ∧
      Part.AtAll args code ps

/-- Whether the chunks of a code unfold to some trees, in order. -/
def Tree.AtAll : List Tree → Code → List Ref → Prop
  | [], _, rs => rs = []
  | tree :: rest, code, rs => ∃ r others, rs = r :: others ∧ tree.At code r ∧
      Tree.AtAll rest code others

/-- Whether an argument unfolds to a part. Its block is unfolded in the code of the block. -/
def Part.At : Part → Code → Primitive → Prop
  | .constant p, _, q => p.Constant ∧ q = p
  | .chunk tree, code, q => ∃ r, q = .ref r ∧ tree.At code r
  | .block body, code, q => ∃ k block, q = .function k ∧ code.function? k = some block ∧
      Tree.AtAll body block block.entrypoints

def Part.AtAll : List Part → Code → List Primitive → Prop
  | [], _, ps => ps = []
  | part :: rest, code, ps => ∃ p others, ps = p :: others ∧ part.At code p ∧
      Part.AtAll rest code others

end

/-- The type of a chunk with this tree. -/
def Tree.typ : Tree → Ty
  | .constant p => p.typ
  | .property _ typ => if typ = .ref then .any else typ
  | .resource _ typ _ | .call _ _ typ _ => typ

/-- The type of an argument that is this part. -/
def Part.typ : Part → Ty
  | .constant p => p.typ
  | .chunk tree => tree.typ
  | .block _ => .functionLike

theorem Tree.At.hasType {tree : Tree} {r : Ref} (h : tree.At code r) :
    code.HasType r tree.typ := by
  cases tree with
  | constant p =>
    obtain ⟨hp, hchunk⟩ := h
    exact Code.hasType_ofPrimitive hchunk hp.typ_ne_ref
  | property name typ => exact Code.hasType_property h
  | resource name typ args =>
    obtain ⟨ps, hchunk, _⟩ := h
    exact Code.hasType_call hchunk
  | call receiver name typ args =>
    obtain ⟨binding, ps, hchunk, _⟩ := h
    exact Code.hasType_call hchunk

/-- Chunks with the same tree hold the same constant. -/
theorem Tree.At.primitive_eq {tree : Tree} {r q : Ref} (hr : tree.At code r)
    (hq : tree.At code' q) :
    (code.chunk? r).map (·.primitive) = (code'.chunk? q).map (·.primitive) := by
  cases tree with
  | constant p => rw [hr.2, hq.2]
  | property name typ =>
    have hr : code.chunk? r = some (.property name typ) := hr
    have hq : code'.chunk? q = some (.property name typ) := hq
    rw [hr, hq]
  | resource name typ args =>
    obtain ⟨ps, hr, _⟩ := hr
    obtain ⟨qs, hq, _⟩ := hq
    rw [hr, hq]
    rfl
  | call receiver name typ args =>
    obtain ⟨binding, ps, hr, _⟩ := hr
    obtain ⟨binding', qs, hq, _⟩ := hq
    rw [hr, hq]
    rfl

/-- What a code keeps of another, of whose chunks it has all, and of whose blocks it has in their
places ones that keep these in turn. -/
structure Code.Keeps (code : Code) (kept : Code → Code → Prop) (code' : Code) : Prop where
  chunk : ∀ r c, code.chunk? r = some c → code'.chunk? r = some c
  block : ∀ k block, code.function? k = some block → ∃ block', code'.function? k = some block' ∧
    kept block block' ∧ block'.entrypoints = block.entrypoints

section Keeps

variable {kept : Code → Code → Prop}

mutual

theorem Tree.At.of_kept (hkept : ∀ code code', kept code code' → code.Keeps kept code')
    {code code' : Code} (hcode : kept code code') :
    ∀ {tree : Tree} {r : Ref}, tree.At code r → tree.At code' r
  | .constant _, _, ⟨hp, hchunk⟩ => ⟨hp, (hkept _ _ hcode).chunk _ _ hchunk⟩
  | .property _ _, _, hchunk => (hkept _ _ hcode).chunk _ _ hchunk
  | .resource _ _ _, _, ⟨ps, hchunk, hargs⟩ =>
    ⟨ps, (hkept _ _ hcode).chunk _ _ hchunk, Part.atAll_of_kept hkept hcode hargs⟩
  | .call _ _ _ _, _, ⟨binding, ps, hchunk, hreceiver, hargs⟩ =>
    ⟨binding, ps, (hkept _ _ hcode).chunk _ _ hchunk, Tree.At.of_kept hkept hcode hreceiver,
      Part.atAll_of_kept hkept hcode hargs⟩

private theorem Tree.atAll_of_kept (hkept : ∀ code code', kept code code' → code.Keeps kept code')
    {code code' : Code} (hcode : kept code code') :
    ∀ {trees : List Tree} {rs : List Ref}, Tree.AtAll trees code rs → Tree.AtAll trees code' rs
  | [], _, hnil => hnil
  | _ :: _, _, ⟨r, others, hrs, htree, hrest⟩ =>
    ⟨r, others, hrs, Tree.At.of_kept hkept hcode htree, Tree.atAll_of_kept hkept hcode hrest⟩

theorem Part.At.of_kept (hkept : ∀ code code', kept code code' → code.Keeps kept code')
    {code code' : Code} (hcode : kept code code') :
    ∀ {part : Part} {p : Primitive}, part.At code p → part.At code' p
  | .constant _, _, h => h
  | .chunk _, _, ⟨r, hp, htree⟩ => ⟨r, hp, Tree.At.of_kept hkept hcode htree⟩
  | .block body, _, ⟨k, block, hp, hblock, hbody⟩ => by
    obtain ⟨block', hblock', hblocks, hpoints⟩ := (hkept _ _ hcode).block k block hblock
    exact ⟨k, block', hp, hblock', hpoints ▸ Tree.atAll_of_kept hkept hblocks hbody⟩

private theorem Part.atAll_of_kept (hkept : ∀ code code', kept code code' → code.Keeps kept code')
    {code code' : Code} (hcode : kept code code') :
    ∀ {parts : List Part} {ps : List Primitive}, Part.AtAll parts code ps →
      Part.AtAll parts code' ps
  | [], _, hnil => hnil
  | _ :: _, _, ⟨p, others, hps, hpart, hrest⟩ =>
    ⟨p, others, hps, Part.At.of_kept hkept hcode hpart, Part.atAll_of_kept hkept hcode hrest⟩

end

end Keeps

section Growth

theorem Code.keeps_of_leading (code code' : Code)
    (h : code.chunks <+: code'.chunks ∧ code.functions <+: code'.functions) :
    code.Keeps (fun c c' => c.chunks <+: c'.chunks ∧ c.functions <+: c'.functions) code' where
  chunk _ _ hchunk := chunk?_of_leading h.1 hchunk
  block _ block hblock :=
    ⟨block, nth?_of_leading h.2 hblock, ⟨List.prefix_rfl, List.prefix_rfl⟩, rfl⟩

theorem Tree.At.of_grows {most : Nat} {tree : Tree} {r : Ref} (h : tree.At code r)
    (hgrows : code.Grows most code') : tree.At code' r :=
  Tree.At.of_kept Code.keeps_of_leading ⟨hgrows.chunks, hgrows.functions⟩ h

private theorem Part.atAll_of_grows {most : Nat} {parts : List Part} {ps : List Primitive}
    (h : Part.AtAll parts code ps) (hgrows : code.Grows most code') : Part.AtAll parts code' ps :=
  Part.atAll_of_kept Code.keeps_of_leading ⟨hgrows.chunks, hgrows.functions⟩ h

theorem Code.keeps_stamp (digest : Digest) (code code' : Code) (h : code' = code.stamp digest) :
    code.Keeps (fun c c' => c' = c.stamp digest) code' where
  chunk r _ hchunk := by
    rw [h, stamp_chunk?]
    exact hchunk
  block k block hblock := by
    refine ⟨block.stamp digest, ?_, rfl, (stamp_eq digest block).2.1⟩
    rw [h, stamp_function?, hblock]
    rfl

theorem Code.keeps_unstamp (digest : Digest) (code code' : Code) (h : code = code'.stamp digest) :
    code.Keeps (fun c c' => c = c'.stamp digest) code' where
  chunk r _ hchunk := by
    rwa [h, stamp_chunk?] at hchunk
  block k block hblock := by
    rw [h, stamp_function?] at hblock
    obtain ⟨block', hblock', rfl⟩ := Option.map_eq_some_iff.mp hblock
    exact ⟨block', hblock', rfl, (stamp_eq digest block').2.1.symm⟩

/-- Checksums are no matter of what is computed. -/
theorem Tree.at_stamp {digest : Digest} {tree : Tree} {r : Ref} :
    tree.At (code.stamp digest) r ↔ tree.At code r :=
  ⟨Tree.At.of_kept (Code.keeps_unstamp digest) rfl, Tree.At.of_kept (Code.keeps_stamp digest) rfl⟩

theorem Tree.atAll_stamp {digest : Digest} {trees : List Tree} {rs : List Ref} :
    Tree.AtAll trees (code.stamp digest) rs ↔ Tree.AtAll trees code rs :=
  ⟨Tree.atAll_of_kept (Code.keeps_unstamp digest) rfl,
    Tree.atAll_of_kept (Code.keeps_stamp digest) rfl⟩

end Growth

theorem Tree.exists_atAll {rs : List Ref} (h : ∀ r ∈ rs, ∃ tree : Tree, tree.At code r) :
    ∃ trees, Tree.AtAll trees code rs := by
  induction rs with
  | nil => exact ⟨[], rfl⟩
  | cons r rest ih =>
    obtain ⟨tree, htree⟩ := h r List.mem_cons_self
    obtain ⟨trees, htrees⟩ := ih fun q hq => h q (List.mem_cons_of_mem _ hq)
    exact ⟨tree :: trees, r, rest, rfl, htree, htrees⟩

private theorem Part.exists_atAll {ps : List Primitive}
    (h : ∀ p ∈ ps, ∃ part : Part, part.At code p) : ∃ parts, Part.AtAll parts code ps := by
  induction ps with
  | nil => exact ⟨[], rfl⟩
  | cons p rest ih =>
    obtain ⟨part, hpart⟩ := h p List.mem_cons_self
    obtain ⟨parts, hparts⟩ := ih fun q hq => h q (List.mem_cons_of_mem _ hq)
    exact ⟨part :: parts, p, rest, rfl, hpart, hparts⟩

namespace Code

structure Unfolds (code : Code) : Prop where
  chunk : ∀ r, (code.chunk? r).isSome → ∃ tree : Tree, tree.At code r
  block : ∀ k block, code.function? k = some block →
    ∃ body, Tree.AtAll body block block.entrypoints

theorem Uses.kinds {p : Primitive} (hp : code.Uses p) :
    p.Constant ∨ (∃ r, p = .ref r ∧ (code.chunk? r).isSome) ∨
      ∃ k, p = .function k ∧ (code.function? k).isSome := by
  rcases hp with ⟨t, hp⟩ | hp
  · cases hp with
    | chunk hr => exact .inr (.inl ⟨_, rfl, hr.1⟩)
    | constant hp => exact .inl (Literal.constant_of_toPrimitive hp)
  · exact .inr (.inr hp)

private theorem Unfolds.part (h : code.Unfolds) {p : Primitive} (hp : code.Uses p) :
    ∃ part : Part, part.At code p := by
  rcases hp.kinds with hp | ⟨r, rfl, hr⟩ | ⟨k, rfl, hk⟩
  · exact ⟨.constant p, hp, rfl⟩
  · obtain ⟨tree, htree⟩ := h.chunk r hr
    exact ⟨.chunk tree, r, rfl, htree⟩
  · obtain ⟨block, hblock⟩ := Option.isSome_iff_exists.mp hk
    obtain ⟨body, hbody⟩ := h.block k block hblock
    exact ⟨.block body, k, block, rfl, hblock, hbody⟩

/-- What a chunk of a code may be, as far as what it uses goes. The first argument of a resource is
a name. -/
inductive Form (code : Code) : Chunk → Prop
  | constant {p : Primitive} : p.Constant → Form code (.ofPrimitive p)
  | property {name : String} {t : Ty} : Form code (.property name t)
  | resource {name : String} {t : Ty} {ps : List Primitive} : (∀ p ∈ ps, code.Uses p) →
    (∀ p ∈ ps.head?, p.typ = .string) → Form code (.call name t 0 ps)
  | call {name : String} {t : Ty} {binding : Ref} {ps : List Primitive} :
    (code.chunk? binding).isSome → (∀ p ∈ ps, code.Uses p) → Form code (.call name t binding ps)

theorem Admits.form {c : Chunk} (h : code.Admits v roots c) : code.Form c := by
  have huses : ∀ p ∈ c.args, code.Uses p := fun p hp => h.uses hp
  cases h with
  | constant hp => exact .constant (Literal.constant_of_toPrimitive hp)
  | resource _ _ hps =>
    refine .resource huses ?_
    cases hps with
    | nil => exact nofun
    | cons =>
      rintro _ ⟨⟩
      rfl
  | field hbinding => exact .call hbinding.1 huses
  | function hbinding => exact .call hbinding.1 huses
  | contains hbinding => exact .call hbinding.1 huses
  | list hbinding => exact .call hbinding.1 huses
  | length hlist => exact .call hlist.1 huses
  | filter hlist => exact .call hlist.1 huses

theorem Assembled.form (h : code.Assembled v roots scope) {r : Ref} {c : Chunk}
    (hc : code.chunk? r = some c) : code.Form c := by
  rcases h.admits hc with ⟨t, _, rfl⟩ | hadmits
  · exact .property
  · exact hadmits.form

private theorem Unfolds.exists_tree (h : code.Unfolds) {c : Chunk} (hc : code.Form c) {most : Nat}
    (hgrows : code.Grows most code') {r : Ref} (hr : code'.chunk? r = some c) :
    ∃ tree : Tree, tree.At code' r := by
  have hparts {ps : List Primitive} (hps : ∀ p ∈ ps, code.Uses p) :
      ∃ parts, Part.AtAll parts code' ps := by
    obtain ⟨parts, hparts⟩ := Part.exists_atAll fun p hp => h.part (hps p hp)
    exact ⟨parts, Part.atAll_of_grows hparts hgrows⟩
  cases hc with
  | @constant p hp => exact ⟨.constant p, hp, hr⟩
  | @property name t => exact ⟨.property name t, hr⟩
  | @resource name t ps hps _ =>
    obtain ⟨parts, hparts⟩ := hparts hps
    exact ⟨.resource name t parts, ps, hr, hparts⟩
  | @call name t binding ps hbinding hps =>
    obtain ⟨parts, hparts⟩ := hparts hps
    obtain ⟨receiver, hreceiver⟩ := h.chunk binding hbinding
    exact ⟨.call receiver name t parts, binding, ps, hr, hreceiver.of_grows hgrows, hparts⟩

private theorem chunk?_addChunk_cases {r : Ref} {c d : Chunk}
    (h : (code.addChunk d).chunk? r = some c) : code.chunk? r = some c ∨ c = d := by
  obtain ⟨hr, hc⟩ := getElem?_of_chunk? h
  rcases getElem?_addChunk_cases hc with hc | ⟨_, hd⟩
  · exact .inl (chunk?_of_getElem? hr hc)
  · exact .inr hd

private theorem function?_addFunction_cases {k : Ref} {block function : Code}
    (h : (code.addFunction function).function? k = some block) :
    code.function? k = some block ∨ block = function := by
  rw [function?, nth?] at h ⊢
  split at h
  · next hk =>
    rw [if_pos hk]
    rcases List.getElem?_append.symm.trans h with h
    split at h
    · exact .inl h
    · exact .inr (List.mem_singleton.mp (List.mem_of_getElem? h))
  · cases h

/-- Every chunk of an assembled code has a tree. -/
theorem Assembled.unfolds (h : code.Assembled v roots scope) : code.Unfolds := by
  induction h with
  | empty =>
    refine ⟨fun r hr => ?_, fun k block hblock => ?_⟩
    · obtain ⟨c, hc⟩ := Option.isSome_iff_exists.mp hr
      exact absurd (getElem?_of_chunk? hc).2 nofun
    · exact absurd (mem_of_nth? hblock) nofun
  | start bound =>
    refine ⟨fun r hr => ?_, fun k block hblock => ?_⟩
    · obtain ⟨c, hc⟩ := Option.isSome_iff_exists.mp hr
      obtain ⟨_, rfl⟩ := getElem?_blockStart (getElem?_of_chunk? hc).2
      exact ⟨.property "_" bound, hc⟩
    · exact absurd (mem_of_nth? hblock) nofun
  | @chunk scope code c _ hc ih =>
    refine ⟨fun r hr => ?_, ih.block⟩
    obtain ⟨d, hd⟩ := Option.isSome_iff_exists.mp hr
    rcases chunk?_addChunk_cases hd with hold | rfl
    · obtain ⟨tree, htree⟩ := ih.chunk r (by rw [hold]; rfl)
      exact ⟨tree, htree.of_grows (.addChunk code c)⟩
    · exact ih.exists_tree hc.form (.addChunk code d) hd
  | @function scope bound code block _ hblock ih ihblock =>
    refine ⟨fun r hr => ?_, fun k found hfound => ?_⟩
    · obtain ⟨tree, htree⟩ := ih.chunk r hr
      exact ⟨tree, htree.of_grows (.addFunction code block)⟩
    · rcases function?_addFunction_cases hfound with hold | rfl
      · exact ih.block k found hold
      · exact Tree.exists_atAll fun r hr =>
          ihblock.chunk r (isSome_of_earlier (hblock.entrypoints r hr))
  | @entrypoint scope code r label _ _ ih =>
    refine ⟨fun q hq => ?_, ih.block⟩
    obtain ⟨tree, htree⟩ := ih.chunk q hq
    exact ⟨tree, htree.of_grows (.addEntrypoint code r label)⟩

end Code

end AssetQuery
