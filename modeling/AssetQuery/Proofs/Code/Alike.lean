import AssetQuery.Proofs.Code.Checksum

/-!
# Chunks that are alike

Chunks of two codes are alike if they have the same type and the same checksum, and keep them
however the codes go on. What uses one of them is then like what uses the other in its place, so
that neither numbers nor whatever else is in the codes can tell them apart.
-/

namespace AssetQuery

open Checksum (ofChunk ofItems ofPrimitive ofChunks)

variable {digest : Digest} {a a' b b' : Code} {r q : Ref}

namespace Code

/-- Whether a code has the chunks and blocks of another and perhaps more behind. -/
structure Begins (code code' : Code) : Prop where
  chunks : code.chunks <+: code'.chunks
  functions : code.functions <+: code'.functions

theorem Begins.refl (code : Code) : code.Begins code := ⟨List.prefix_rfl, List.prefix_rfl⟩

theorem Begins.trans {mid : Code} (h : a.Begins mid) (h' : mid.Begins a') : a.Begins a' :=
  ⟨h.chunks.trans h'.chunks, h.functions.trans h'.functions⟩

theorem Begins.addChunk (code : Code) (c : Chunk) : code.Begins (code.addChunk c) :=
  ⟨List.prefix_append _ _, List.prefix_rfl⟩

theorem Begins.room (h : a.Begins a') (hroom : a'.Room 0) : a.Room 0 :=
  ⟨Nat.lt_of_le_of_lt h.chunks.length_le hroom.1,
    Nat.lt_of_le_of_lt h.functions.length_le hroom.2⟩

theorem room_of_addChunk {c : Chunk} (h : (a.addChunk c).Room 0) : a.Room 0 :=
  (Begins.addChunk a c).room h

theorem Begins.chunk?_addChunk {c : Chunk} (h : (a.addChunk c).Begins a') (hroom : a'.Room 0) :
    a'.chunk? (a.addChunk c).lastRef = some c ∧ a'.chunks[a.chunks.length]? = some c ∧
      (a.addChunk c).lastRef = Int32.ofNat (a.chunks.length + 1) := by
  have hlength : (a.addChunk c).chunks.length = a.chunks.length + 1 := by simp [Code.addChunk]
  have hfound : a'.chunks[a.chunks.length]? = some c := by
    obtain ⟨rest, hrest⟩ := h.chunks
    rw [← hrest, List.getElem?_append_left (by omega)]
    simp [Code.addChunk]
  have hlt := Nat.lt_of_le_of_lt h.chunks.length_le hroom.1
  refine ⟨?_, hfound, by rw [lastRef, hlength]⟩
  rw [lastRef, hlength, chunk?, nth?_ofNat (by omega), hfound]

private theorem Begins.checksum?_addChunk {c : Chunk} (h : (a.addChunk c).Begins a')
    (hroom : a'.Room 0) :
    (a'.stamp digest).checksum? (a.addChunk c).lastRef =
      some (digest (ofChunk (({ a' with chunks := a.chunks } : Code).stamp digest).names c)) := by
  obtain ⟨_, hfound, hlast⟩ := h.chunk?_addChunk hroom
  have hlt := Nat.lt_of_le_of_lt h.chunks.length_le hroom.1
  have hlength : (a.addChunk c).chunks.length = a.chunks.length + 1 := by simp [Code.addChunk]
  have htake : a'.chunks.take a.chunks.length = a.chunks :=
    (List.prefix_iff_eq_take.mp ((List.prefix_append _ _).trans h.chunks)).symm
  have hnames : (({ a' with chunks := a.chunks } : Code).stamp digest).names =
      ⟨fun r => ((ofChunks digest (a'.stamp digest).names.block [] a.chunks).lookup r).getD "",
        (a'.stamp digest).names.block⟩ := by
    obtain ⟨id, chunks, entrypoints, labels, functions, parameters, checksums⟩ := a'
    rfl
  rw [Code.checksum?, stamp_checksums, hlast, Checksum.lookup_ofChunks hfound (by omega), htake,
    hnames]

end Code

/-- Whether a chunk of a code has the same type and checksum as one of another code, and keeps them
however the codes go on, as long as their chunks and blocks can be numbered. -/
structure Alike (digest : Digest) (a : Code) (r : Ref) (b : Code) (q : Ref) : Prop where
  left : (a.chunk? r).isSome
  right : (b.chunk? q).isSome
  same : ∀ {a' b'}, a.Begins a' → b.Begins b' → a'.Room 0 → b'.Room 0 →
    a'.chunkType r = b'.chunkType q ∧
      (a'.stamp digest).checksum? r = (b'.stamp digest).checksum? q

/-- Whether an argument has the same type in a code as another in another code, and is covered in
the same way by the checksums of chunks that have it. -/
structure AlikePart (digest : Digest) (a : Code) (p : Primitive) (b : Code) (p' : Primitive) :
    Prop where
  same : ∀ {a' b'}, a.Begins a' → b.Begins b' → a'.Room 0 → b'.Room 0 →
    a'.dereference p = b'.dereference p' ∧
      ofPrimitive (a'.stamp digest).names p = ofPrimitive (b'.stamp digest).names p'

/-- The same of lists of arguments. -/
abbrev AlikeParts (digest : Digest) (a : Code) (ps : List Primitive) (b : Code)
    (ps' : List Primitive) : Prop :=
  List.Forall₂ (fun p p' => AlikePart digest a p b p') ps ps'

section Uses

variable {ps ps' : List Primitive}

theorem Alike.of_begins (h : Alike digest a r b q) (ha : a.Begins a') (hb : b.Begins b') :
    Alike digest a' r b' q where
  left := by
    obtain ⟨c, hc⟩ := Option.isSome_iff_exists.mp h.left
    rw [Code.chunk?_of_leading ha.chunks hc]
    rfl
  right := by
    obtain ⟨c, hc⟩ := Option.isSome_iff_exists.mp h.right
    rw [Code.chunk?_of_leading hb.chunks hc]
    rfl
  same ha' hb' := h.same (ha.trans ha') (hb.trans hb')

theorem AlikePart.of_begins {p p' : Primitive} (h : AlikePart digest a p b p')
    (ha : a.Begins a') (hb : b.Begins b') : AlikePart digest a' p b' p' :=
  ⟨fun ha' hb' => h.same (ha.trans ha') (hb.trans hb')⟩

theorem AlikeParts.of_begins (h : AlikeParts digest a ps b ps') (ha : a.Begins a')
    (hb : b.Begins b') : AlikeParts digest a' ps b' ps' :=
  h.imp fun _ _ hp => hp.of_begins ha hb

theorem AlikePart.constant {p : Primitive} (hp : p.Constant) : AlikePart digest a p b p := by
  refine ⟨fun _ _ _ _ => ⟨?_, Checksum.ofPrimitive_constant hp⟩⟩
  rw [Code.dereference_of_ne_ref _ hp.typ_ne_ref, Code.dereference_of_ne_ref _ hp.typ_ne_ref]

theorem Alike.names_eq (h : Alike digest a r b q) (ha : a.Begins a') (hb : b.Begins b')
    (hroom : a'.Room 0) (hroom' : b'.Room 0) :
    (a'.stamp digest).names.chunk r = (b'.stamp digest).names.chunk q :=
  congrArg (·.getD "") (h.same ha hb hroom hroom').2

theorem Alike.part (h : Alike digest a r b q) : AlikePart digest a (.ref r) b (.ref q) := by
  constructor
  intro a' b' ha hb hroom hroom'
  rw [Code.dereference_ref, Code.dereference_ref, Checksum.ofPrimitive_ref,
    Checksum.ofPrimitive_ref, h.names_eq ha hb hroom hroom']
  exact ⟨(h.same ha hb hroom hroom').1, rfl⟩

/-- A block stands by what it is, whatever its number. -/
theorem AlikePart.block (function : Code) :
    AlikePart digest (a.addFunction function) (.function (a.addFunction function).lastFunction)
      (b.addFunction function) (.function (b.addFunction function).lastFunction) := by
  have hfound {code code' : Code} (h : (code.addFunction function).Begins code')
      (hroom : code'.Room 0) :
      code'.function? (code.addFunction function).lastFunction = some function := by
    have hlength : (code.addFunction function).functions.length = code.functions.length + 1 := by
      simp [Code.addFunction]
    have hlt := Nat.lt_of_le_of_lt h.functions.length_le hroom.2
    refine nth?_of_leading h.functions ?_
    rw [Code.lastFunction, hlength, nth?_ofNat (by omega)]
    simp [Code.addFunction]
  constructor
  intro a' b' ha hb hroom hroom'
  have htyp (k : Ref) : (Primitive.function k).typ ≠ .ref := (by decide : Ty.functionLike ≠ .ref)
  rw [Code.dereference_of_ne_ref _ (htyp _), Code.dereference_of_ne_ref _ (htyp _),
    Checksum.ofPrimitive_function, Checksum.ofPrimitive_function,
    Code.names_block (hfound ha hroom), Code.names_block (hfound hb hroom')]
  exact ⟨rfl, rfl⟩

theorem AlikeParts.ofItems_eq (h : AlikeParts digest a ps b ps') (ha : a.Begins a')
    (hb : b.Begins b') (hroom : a'.Room 0) (hroom' : b'.Room 0) :
    ofItems (a'.stamp digest).names ps = ofItems (b'.stamp digest).names ps' := by
  induction h with
  | nil => rfl
  | cons hp _ ih => rw [ofItems, ofItems, (hp.same ha hb hroom hroom').2, ih]

theorem Alike.addChunk {c d : Chunk}
    (htype : ∀ {a' b' : Code} {r q : Ref}, a'.chunk? r = some c → b'.chunk? q = some d →
      a'.chunkType r = b'.chunkType q)
    (hcover : ∀ {a' b'}, a.Begins a' → b.Begins b' → a'.Room 0 → b'.Room 0 →
      ofChunk (a'.stamp digest).names c = ofChunk (b'.stamp digest).names d)
    (hroom : (a.addChunk c).Room 0) (hroom' : (b.addChunk d).Room 0) :
    Alike digest (a.addChunk c) (a.addChunk c).lastRef (b.addChunk d) (b.addChunk d).lastRef where
  left := by
    rw [((Code.Begins.refl _).chunk?_addChunk hroom).1]
    rfl
  right := by
    rw [((Code.Begins.refl _).chunk?_addChunk hroom').1]
    rfl
  same := by
    intro a' b' ha hb hroom hroom'
    -- the chunks before the new one, with all the blocks that there will be
    have hshort {code code' : Code} {c : Chunk} (h : (code.addChunk c).Begins code')
        (hroom : code'.Room 0) : code.Begins { code' with chunks := code.chunks } ∧
          ({ code' with chunks := code.chunks } : Code).Room 0 :=
      ⟨⟨List.prefix_rfl, h.functions⟩,
        (((Code.Begins.addChunk code c).trans h).room hroom).1, hroom.2⟩
    obtain ⟨ha', hroomA⟩ := hshort ha hroom
    obtain ⟨hb', hroomB⟩ := hshort hb hroom'
    refine ⟨htype (ha.chunk?_addChunk hroom).1 (hb.chunk?_addChunk hroom').1, ?_⟩
    rw [ha.checksum?_addChunk hroom, hb.checksum?_addChunk hroom', hcover ha' hb' hroomA hroomB]

theorem Alike.constant {p : Primitive} (hp : p.Constant)
    (hroom : (a.addChunk (.ofPrimitive p)).Room 0) (hroom' : (b.addChunk (.ofPrimitive p)).Room 0) :
    Alike digest (a.addChunk (.ofPrimitive p)) (a.addChunk (.ofPrimitive p)).lastRef
      (b.addChunk (.ofPrimitive p)) (b.addChunk (.ofPrimitive p)).lastRef := by
  refine .addChunk (fun hc hd => ?_) (fun _ _ _ _ => ?_) hroom hroom'
  · rw [Code.chunkType_ofPrimitive hc hp.typ_ne_ref, Code.chunkType_ofPrimitive hd hp.typ_ne_ref]
  · rw [Checksum.ofChunk_constant, Checksum.ofChunk_constant, Checksum.ofPrimitive_constant hp]

theorem Alike.call {name : String} {t : Ty} (h : Alike digest a r b q)
    (hps : AlikeParts digest a ps b ps') (hroom : (a.addChunk (.call name t r ps)).Room 0)
    (hroom' : (b.addChunk (.call name t q ps')).Room 0) :
    Alike digest (a.addChunk (.call name t r ps)) (a.addChunk (.call name t r ps)).lastRef
      (b.addChunk (.call name t q ps')) (b.addChunk (.call name t q ps')).lastRef := by
  refine .addChunk (fun hc hd => ?_) (fun ha hb hroom hroom' => ?_) hroom hroom'
  · rw [Code.chunkType_call hc, Code.chunkType_call hd]
  · rw [Checksum.ofChunk_call, Checksum.ofChunk_call, hps.ofItems_eq ha hb hroom hroom',
      if_pos (Code.earlier_of_isSome h.left).1, if_pos (Code.earlier_of_isSome h.right).1,
      h.names_eq ha hb hroom hroom']

theorem Alike.resource {name : String} {t : Ty} (hps : AlikeParts digest a ps b ps')
    (hroom : (a.addChunk (.call name t 0 ps)).Room 0)
    (hroom' : (b.addChunk (.call name t 0 ps')).Room 0) :
    Alike digest (a.addChunk (.call name t 0 ps)) (a.addChunk (.call name t 0 ps)).lastRef
      (b.addChunk (.call name t 0 ps')) (b.addChunk (.call name t 0 ps')).lastRef := by
  refine .addChunk (fun hc hd => ?_) (fun ha hb hroom hroom' => ?_) hroom hroom'
  · rw [Code.chunkType_call hc, Code.chunkType_call hd]
  · rw [Checksum.ofChunk_call, Checksum.ofChunk_call, hps.ofItems_eq ha hb hroom hroom']
    rfl

/-- Chunks that are alike have one checksum. -/
theorem Alike.exists_checksum (h : Alike digest a r b q) (hroom : a.Room 0) (hroom' : b.Room 0) :
    ∃ sum, (a.stamp digest).checksum? r = some sum ∧ (b.stamp digest).checksum? q = some sum := by
  obtain ⟨c, hc⟩ := Option.isSome_iff_exists.mp h.left
  obtain ⟨hpos, hc⟩ := Code.getElem?_of_chunk? hc
  obtain ⟨n, rfl, hn, hindex⟩ := Code.exists_index hpos
  rw [hindex] at hc
  obtain ⟨sum, hsum⟩ : ∃ sum, (ofChunks digest (a.stamp digest).names.block [] a.chunks).lookup
      (Int32.ofNat (n + 1)) = some sum := ⟨_, Checksum.lookup_ofChunks hc hn⟩
  rw [← Code.stamp_checksums] at hsum
  exact ⟨sum, hsum, (h.same (.refl a) (.refl b) hroom hroom').2 ▸ hsum⟩

end Uses

end AssetQuery
