import AssetQuery.Proofs.Code.Tree
import Mathlib.Data.List.Induction

/-!
# Checksums of trees

The checksum of a chunk covers the chunk, in which the chunks and blocks that it uses stand by their
own checksums. It is the same for chunks with the same tree, whatever their numbers and whatever
else is in their codes.
-/

namespace AssetQuery

variable {F : Type} {v : Vocabulary F} {roots : Prop} {scope : Option Ty} {code code' : Code}
  {digest : Digest}

namespace Checksum

section Numbers

variable (digest) (block : Ref → String)

theorem ofChunks_append (sums : List (Ref × String)) (cs ds : List Chunk) :
    ofChunks digest block sums (cs ++ ds) =
      ofChunks digest block (ofChunks digest block sums cs) ds := by
  induction cs generalizing sums with
  | nil => rfl
  | cons c rest ih => exact ih _

theorem length_ofChunks (sums : List (Ref × String)) (cs : List Chunk) :
    (ofChunks digest block sums cs).length = sums.length + cs.length := by
  induction cs generalizing sums with
  | nil => rfl
  | cons c rest ih =>
    rw [ofChunks, ih, List.length_append, List.length_singleton, List.length_cons]
    omega

theorem leading_ofChunks (sums : List (Ref × String)) (cs : List Chunk) :
    sums <+: ofChunks digest block sums cs := by
  induction cs generalizing sums with
  | nil => exact List.prefix_rfl
  | cons c rest ih => exact (List.prefix_append _ _).trans (ih _)

end Numbers

theorem lookup_of_leading {sums sums' : List (Ref × String)} (h : sums <+: sums') {r : Ref}
    {sum : String} (hsum : sums.lookup r = some sum) : sums'.lookup r = some sum := by
  obtain ⟨rest, rfl⟩ := h
  rw [List.lookup_append, hsum]
  rfl

private theorem lookup_ofChunks_of_length_le {block : Ref → String} {cs : List Chunk} {n : Nat}
    (hlength : cs.length ≤ n) (hn : n + 1 < 2 ^ 31) :
    (ofChunks digest block [] cs).lookup (Int32.ofNat (n + 1)) = none := by
  induction cs using List.reverseRecOn with
  | nil => rfl
  | append_singleton cs c ih =>
    rw [List.length_append, List.length_singleton] at hlength
    have hne : Int32.ofNat (n + 1) ≠ Int32.ofNat (cs.length + 1) := by
      intro heq
      have hints := congrArg Int32.toInt heq
      rw [Int32.toInt_ofNat_of_lt hn, Int32.toInt_ofNat_of_lt (by omega)] at hints
      omega
    rw [ofChunks_append, ofChunks, ofChunks, List.lookup_append, ih (by omega),
      length_ofChunks, List.length_nil, Nat.zero_add, List.lookup_cons, beq_false_of_ne hne]
    rfl

theorem lookup_ofChunks {block : Ref → String} {cs : List Chunk} {n : Nat} {c : Chunk}
    (hc : cs[n]? = some c) (hn : n + 1 < 2 ^ 31) :
    (ofChunks digest block [] cs).lookup (Int32.ofNat (n + 1)) =
      some (digest (ofChunk
        ⟨fun r => ((ofChunks digest block [] (cs.take n)).lookup r).getD "", block⟩ c)) := by
  obtain ⟨hlt, rfl⟩ := List.getElem?_eq_some_iff.mp hc
  have hsplit : cs = cs.take n ++ [cs[n]] ++ cs.drop (n + 1) := by
    rw [List.append_assoc, List.singleton_append, List.getElem_cons_drop, List.take_append_drop]
  have htake : (cs.take n).length = n := List.length_take_of_le (Nat.le_of_lt hlt)
  have hlater : ofChunks digest block [] (cs.take n ++ [cs[n]]) <+:
      ofChunks digest block [] cs := by
    conv_rhs => rw [hsplit, ofChunks_append]
    exact leading_ofChunks digest block _ _
  refine lookup_of_leading hlater ?_
  rw [ofChunks_append, ofChunks, ofChunks, List.lookup_append,
    lookup_ofChunks_of_length_le (Nat.le_of_eq htake) hn, length_ofChunks, htake]
  simp

section Cover

variable {names names' : Names}

theorem payload_of_constant {p : Primitive} (h : p.Constant) :
    payload names p = sized p.bytes := by
  rw [payload]
  split
  · next hp => exact absurd hp h.typ_ne_ref
  · next hp => exact absurd hp h.typ_ne_functionLike
  · rfl

theorem ofItems_congr {ps : List Primitive}
    (h : ∀ p ∈ ps, ofPrimitive names p = ofPrimitive names' p) :
    ofItems names ps = ofItems names' ps := by
  induction ps with
  | nil => rfl
  | cons p rest ih =>
    rw [ofItems, ofItems, h p List.mem_cons_self, ih fun q hq => h q (List.mem_cons_of_mem _ hq)]

private theorem ofEntries_congr {entries : List (String × Primitive)}
    (h : ∀ e ∈ entries, ofPrimitive names e.2 = ofPrimitive names' e.2) :
    ofEntries names entries = ofEntries names' entries := by
  induction entries with
  | nil => rfl
  | cons e rest ih =>
    obtain ⟨key, p⟩ := e
    rw [ofEntries, ofEntries, h (key, p) List.mem_cons_self,
      ih fun q hq => h q (List.mem_cons_of_mem _ hq)]

theorem ofPrimitive_constant {p : Primitive} (h : p.Constant) :
    ofPrimitive names p = ofPrimitive names' p := by
  induction h with
  | @flat t bytes ht =>
    have hp : (Primitive.scalar t bytes).Constant := .flat ht
    rw [Primitive.scalar, ofPrimitive, ofPrimitive, payload_of_constant hp, payload_of_constant hp]
    rfl
  | array _ _ ih =>
    rw [Primitive.array, ofPrimitive, ofPrimitive, ofItems_congr ih]
    rfl
  | map _ ih =>
    rw [Primitive.map, ofPrimitive, ofPrimitive, ofEntries_congr ih]
    rfl

theorem ofPrimitive_ref (r : Ref) :
    ofPrimitive names (.ref r) = ofTy .ref ++ ofText (names.chunk r) := by
  have hr : (Primitive.ref r).asRef = .ok r := Primitive.asRef_scalar .ref r
  have hpayload : payload names (.ref r) = ofText (names.chunk r) := by
    rw [payload]
    simp only [Primitive.ref, Primitive.scalar] at hr ⊢
    rw [hr]
  change ofTy .ref ++ payload names (.ref r) ++ [] ++ [] = _
  rw [hpayload, List.append_nil, List.append_nil]

theorem ofPrimitive_function (k : Ref) :
    ofPrimitive names (.function k) = ofTy .functionLike ++ ofText (names.block k) := by
  have hk : (Primitive.function k).asRef = .ok k := Primitive.asRef_scalar .functionLike k
  have hpayload : payload names (.function k) = ofText (names.block k) := by
    rw [payload]
    simp only [Primitive.function, Primitive.scalar] at hk ⊢
    rw [hk]
  change ofTy .functionLike ++ payload names (.function k) ++ [] ++ [] = _
  rw [hpayload, List.append_nil, List.append_nil]

theorem ofChunk_constant (p : Primitive) :
    ofChunk names (.ofPrimitive p) = 1 :: (ofText p.typ.label ++ ofPrimitive names p) := by
  simp [ofChunk, ofKind, Chunk.ofPrimitive]

theorem ofChunk_call (name : String) (t : Ty) (binding : Ref) (ps : List Primitive) :
    ofChunk names (.call name t binding ps) = 2 :: (ofText name ++ (ofTy t ++
      ((if 0 < binding.toInt then ofText (names.chunk binding) else []) ++ ofItems names ps))) := by
  simp [ofChunk, ofKind, Chunk.call, ofCall]

theorem ofChunk_property_eq (name : String) (t : Ty) :
    ofChunk names (.property name t) =
      3 :: (ofText name ++ (ofTy t ++ payload names (.scalar t []))) := by
  simp [ofChunk, ofKind, Chunk.property, Primitive.scalar, ofPrimitive, ofItems, ofEntries]

theorem ofChunk_property (name : String) (t : Ty) :
    ofChunk names (.property name t) = ofChunk names' (.property name t) := by
  have hpayload : payload names (.scalar t []) = payload names' (.scalar t []) := by
    rw [payload, payload]
    cases t <;> rfl
  rw [ofChunk_property_eq, ofChunk_property_eq, hpayload]

/-- What the checksum of a chunk covers, if the chunks and blocks that are there have the same
checksums. -/
private theorem ofChunk_congr {c : Chunk} (hc : code.Form c)
    (hchunk : ∀ r, (code.chunk? r).isSome → names.chunk r = names'.chunk r)
    (hblock : ∀ k, names.block k = names'.block k) : ofChunk names c = ofChunk names' c := by
  have hargs {ps : List Primitive} (hps : ∀ p ∈ ps, code.Uses p) :
      ofItems names ps = ofItems names' ps := by
    refine ofItems_congr fun p hp => ?_
    rcases (hps p hp).kinds with hp | ⟨r, rfl, hr⟩ | ⟨k, rfl, _⟩
    · exact ofPrimitive_constant hp
    · rw [ofPrimitive_ref, ofPrimitive_ref, hchunk _ hr]
    · rw [ofPrimitive_function, ofPrimitive_function, hblock]
  cases hc with
  | constant hp => rw [ofChunk_constant, ofChunk_constant, ofPrimitive_constant hp]
  | property => exact ofChunk_property _ _
  | resource hps =>
    rw [ofChunk_call, ofChunk_call, hargs hps]
    rfl
  | call hbinding hps => rw [ofChunk_call, ofChunk_call, hargs hps, hchunk _ hbinding]

end Cover

end Checksum

namespace Code

/-- The checksums that a code gives its chunks and blocks. -/
def names (code : Code) : Checksum.Names :=
  ⟨fun r => (code.checksum? r).getD "", fun k => ((code.function? k).map (·.id)).getD ""⟩

theorem stamp_checksums (digest : Digest) (code : Code) :
    (code.stamp digest).checksums =
      Checksum.ofChunks digest (code.stamp digest).names.block [] code.chunks := by
  obtain ⟨id, chunks, entrypoints, labels, functions, parameters, checksums⟩ := code
  rfl

theorem stamp_id (digest : Digest) (code : Code) :
    (code.stamp digest).id =
      digest (Checksum.ofEntrypoints (code.stamp digest).checksums code.entrypoints) := by
  obtain ⟨id, chunks, entrypoints, labels, functions, parameters, checksums⟩ := code
  rfl

theorem exists_index {r : Ref} (h : 0 < r.toInt) :
    ∃ n, r = Int32.ofNat (n + 1) ∧ n + 1 < 2 ^ 31 ∧ r.toInt.toNat - 1 = n := by
  have hlt := Int32.toInt_lt r
  refine ⟨r.toInt.toNat - 1, ?_, by omega, rfl⟩
  rw [← Int32.toInt_inj, Int32.toInt_ofNat_of_lt (by omega)]
  omega

theorem Assembled.checksum? (h : code.Assembled v roots scope) {r : Ref} {c : Chunk}
    (hc : code.chunk? r = some c) :
    (code.stamp digest).checksum? r =
      some (digest (Checksum.ofChunk (code.stamp digest).names c)) := by
  obtain ⟨hr, hc⟩ := getElem?_of_chunk? hc
  obtain ⟨n, rfl, hn, hindex⟩ := exists_index hr
  rw [hindex] at hc
  rw [Code.checksum?, stamp_checksums, Checksum.lookup_ofChunks hc hn]
  congr 2
  rcases h.chunk_cases hc with ⟨t, _, _, rfl⟩ | ⟨before, most, _, hgrows, rfl, hadmits⟩
  · exact Checksum.ofChunk_property "_" t
  · refine Checksum.ofChunk_congr hadmits.form (fun q hq => ?_) fun _ => rfl
    obtain ⟨hpos, hle⟩ := earlier_of_isSome hq
    obtain ⟨m, rfl, hm, hmindex⟩ := exists_index hpos
    have hlt : m < before.chunks.length := by omega
    have hbefore : code.chunks.take before.chunks.length = before.chunks :=
      (List.prefix_iff_eq_take.mp hgrows.chunks).symm
    rw [hbefore]
    obtain ⟨sum, hfound⟩ : ∃ sum, (Checksum.ofChunks digest (code.stamp digest).names.block []
        before.chunks).lookup (Int32.ofNat (m + 1)) = some sum :=
      ⟨_, Checksum.lookup_ofChunks (List.getElem?_eq_getElem hlt) hm⟩
    have hlater : Checksum.ofChunks digest (code.stamp digest).names.block [] before.chunks <+:
        (code.stamp digest).checksums := by
      obtain ⟨rest, hrest⟩ := hgrows.chunks
      rw [stamp_checksums, ← hrest, Checksum.ofChunks_append]
      exact Checksum.leading_ofChunks _ _ _ _
    exact congrArg (·.getD "") (hfound.trans (Checksum.lookup_of_leading hlater hfound).symm)

theorem Assembled.names_chunk (h : code.Assembled v roots scope) {r : Ref} {c : Chunk}
    (hc : code.chunk? r = some c) :
    (code.stamp digest).names.chunk r =
      digest (Checksum.ofChunk (code.stamp digest).names c) :=
  congrArg (·.getD "") (h.checksum? hc)

theorem names_block {k : Ref} {block : Code} (h : code.function? k = some block) :
    (code.stamp digest).names.block k = (block.stamp digest).id := by
  change (((code.stamp digest).function? k).map (·.id)).getD "" = _
  rw [stamp_function?, h]
  rfl

end Code

open Checksum (ofChunk ofItems ofPrimitive ofEntrypoints ofChunk_call ofChunk_constant
  ofChunk_property ofPrimitive_constant ofPrimitive_ref ofPrimitive_function)

mutual

private theorem Tree.At.names_chunk_eq {a b : Code} {scope scope' : Option Ty}
    (ha : a.Assembled v roots scope) (hb : b.Assembled v roots scope') :
    ∀ {tree : Tree} {r q : Ref}, tree.At a r → tree.At b q →
      (a.stamp digest).names.chunk r = (b.stamp digest).names.chunk q
  | .constant p, r, q, ⟨hp, hr⟩, ⟨_, hq⟩ => by
    rw [ha.names_chunk hr, hb.names_chunk hq, ofChunk_constant, ofChunk_constant,
      ofPrimitive_constant hp]
  | .property name typ, r, q, hr, hq => by
    rw [ha.names_chunk hr, hb.names_chunk hq, ofChunk_property]
  | .resource name typ args, r, q, ⟨ps, hr, hps⟩, ⟨qs, hq, hqs⟩ => by
    have hargs := Part.atAll_ofItems_eq ha hb hps hqs
    rw [ha.names_chunk hr, hb.names_chunk hq, ofChunk_call, ofChunk_call, hargs]
    rfl
  | .call receiver name typ args, r, q, ⟨binding, ps, hr, hbinding, hps⟩,
      ⟨binding', qs, hq, hbinding', hqs⟩ => by
    have hargs := Part.atAll_ofItems_eq ha hb hps hqs
    have hreceiver := Tree.At.names_chunk_eq ha hb hbinding hbinding'
    have hpos := (Code.earlier_of_isSome hbinding.hasType.1).1
    have hpos' := (Code.earlier_of_isSome hbinding'.hasType.1).1
    rw [ha.names_chunk hr, hb.names_chunk hq, ofChunk_call, ofChunk_call, hargs, if_pos hpos,
      if_pos hpos', hreceiver]

theorem Tree.atAll_ofEntrypoints_eq {a b : Code} {scope scope' : Option Ty}
    (ha : a.Assembled v roots scope) (hb : b.Assembled v roots scope') :
    ∀ {trees : List Tree} {rs qs : List Ref}, Tree.AtAll trees a rs → Tree.AtAll trees b qs →
      ofEntrypoints (a.stamp digest).checksums rs = ofEntrypoints (b.stamp digest).checksums qs
  | [], _, _, rfl, rfl => rfl
  | tree :: trees, _, _, ⟨r, rs, rfl, hr, hrs⟩, ⟨q, qs, rfl, hq, hqs⟩ => by
    have hfirst : ((a.stamp digest).checksums.lookup r).getD "" =
        ((b.stamp digest).checksums.lookup q).getD "" := Tree.At.names_chunk_eq ha hb hr hq
    have hrest := Tree.atAll_ofEntrypoints_eq ha hb hrs hqs
    rw [ofEntrypoints, ofEntrypoints] at hrest ⊢
    rw [List.flatMap_cons, List.flatMap_cons, hfirst, hrest]

theorem Part.At.ofPrimitive_eq {a b : Code} {scope scope' : Option Ty}
    (ha : a.Assembled v roots scope) (hb : b.Assembled v roots scope') :
    ∀ {part : Part} {p q : Primitive}, part.At a p → part.At b q →
      ofPrimitive (a.stamp digest).names p = ofPrimitive (b.stamp digest).names q
  | .constant _, _, _, ⟨hp, rfl⟩, ⟨_, rfl⟩ => ofPrimitive_constant hp
  | .chunk tree, _, _, ⟨r, rfl, hr⟩, ⟨q, rfl, hq⟩ => by
    rw [ofPrimitive_ref, ofPrimitive_ref, Tree.At.names_chunk_eq ha hb hr hq]
  | .block body, _, _, ⟨k, block, rfl, hk, hbody⟩, ⟨j, block', rfl, hj, hbody'⟩ => by
    obtain ⟨_, hblock⟩ := ha.exists_of_mem (mem_of_nth? hk)
    obtain ⟨_, hblock'⟩ := hb.exists_of_mem (mem_of_nth? hj)
    rw [ofPrimitive_function, ofPrimitive_function, Code.names_block hk, Code.names_block hj,
      Code.stamp_id, Code.stamp_id, Tree.atAll_ofEntrypoints_eq hblock hblock' hbody hbody']

theorem Part.atAll_ofItems_eq {a b : Code} {scope scope' : Option Ty}
    (ha : a.Assembled v roots scope) (hb : b.Assembled v roots scope') :
    ∀ {parts : List Part} {ps qs : List Primitive}, Part.AtAll parts a ps →
      Part.AtAll parts b qs →
      ofItems (a.stamp digest).names ps = ofItems (b.stamp digest).names qs
  | [], _, _, rfl, rfl => rfl
  | part :: parts, _, _, ⟨p, ps, rfl, hp, hps⟩, ⟨q, qs, rfl, hq, hqs⟩ => by
    rw [ofItems, ofItems, Part.At.ofPrimitive_eq ha hb hp hq, Part.atAll_ofItems_eq ha hb hps hqs]

end

/-- Chunks with the same tree have the same checksum. -/
theorem Tree.At.checksum?_eq {a b : Code} {scope scope' : Option Ty}
    (ha : a.Assembled v roots scope) (hb : b.Assembled v roots scope') {tree : Tree} {r q : Ref}
    (hr : tree.At a r) (hq : tree.At b q) :
    ∃ sum, (a.stamp digest).checksum? r = some sum ∧ (b.stamp digest).checksum? q = some sum := by
  obtain ⟨c, hc⟩ := Option.isSome_iff_exists.mp hr.hasType.1
  obtain ⟨d, hd⟩ := Option.isSome_iff_exists.mp hq.hasType.1
  have hsame : (a.stamp digest).names.chunk r = (b.stamp digest).names.chunk q :=
    Tree.At.names_chunk_eq ha hb hr hq
  rw [ha.names_chunk hc, hb.names_chunk hd] at hsame
  exact ⟨_, ha.checksum? hc, hsame ▸ hb.checksum? hd⟩

end AssetQuery
