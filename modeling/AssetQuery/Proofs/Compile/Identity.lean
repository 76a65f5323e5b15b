import AssetQuery.Proofs.Code.Cover

/-!
# What equal checksums say

If a digest never gives the same for two things that the checksums of two codes cover, and what is
covered can be taken apart, then chunks with the same checksum have the same tree, and codes with
the same id compute the same trees.
-/

namespace AssetQuery

variable {F : Type} {v : Vocabulary F} {roots : Prop} {scope : Option Ty} {code a b : Code}
  {digest : Digest}

open Checksum (ofChunk ofText ofEntrypoints SameArg SameChunk ofText_cancel)

namespace Checksum

theorem ofEntrypoints_cons (sums : List (Ref × String)) (r : Ref) (rs : List Ref) :
    ofEntrypoints sums (r :: rs) =
      ofText ((sums.lookup r).getD "") ++ ofEntrypoints sums rs :=
  List.flatMap_cons

private theorem ofEntrypoints_cons_ne_nil (sums : List (Ref × String)) (r : Ref) (rs : List Ref) :
    ofEntrypoints sums (r :: rs) ≠ [] := by
  intro h
  have hlength := congrArg List.length h
  rw [ofEntrypoints_cons, ofText, sized, List.length_append, List.length_append,
    length_littleEndian, List.length_nil] at hlength
  omega

end Checksum

namespace Code

mutual

/-- All that the ids and checksums of a code and of its blocks cover. -/
def covered : Code → List Bytes
  | code@⟨_, chunks, entrypoints, _, functions, _, checksums⟩ =>
    ofEntrypoints checksums entrypoints :: (chunks.map (ofChunk code.names) ++
      coveredAll functions)

def coveredAll : List Code → List Bytes
  | [] => []
  | code :: rest => code.covered ++ coveredAll rest

end

mutual

/-- Whether the lists and maps in a code and in its blocks end where it shows. -/
def delimited : Code → Bool
  | ⟨_, chunks, _, _, functions, _, _⟩ => chunks.all Chunk.delimited && delimitedAll functions

def delimitedAll : List Code → Bool
  | [] => true
  | code :: rest => code.delimited && delimitedAll rest

end

/-- Whether all that the checksums of a code cover can be taken apart. -/
structure Readable (code : Code) : Prop where
  named : ∀ t ∈ code.types, ¬t.NameTooLong
  delimited : code.delimited
  small : ∀ x ∈ code.covered, x.length < 2 ^ 64

instance (code : Code) : Decidable code.Readable :=
  decidable_of_iff ((∀ t ∈ code.types, ¬t.NameTooLong) ∧ code.delimited ∧
    ∀ x ∈ code.covered, x.length < 2 ^ 64)
    ⟨fun h => ⟨h.1, h.2.1, h.2.2⟩, fun h => ⟨h.named, h.delimited, h.small⟩⟩

theorem ofEntrypoints_mem_covered (code : Code) :
    ofEntrypoints code.checksums code.entrypoints ∈ code.covered := by
  obtain ⟨id, chunks, entrypoints, labels, functions, parameters, checksums⟩ := code
  rw [covered]
  exact List.mem_cons_self

theorem ofChunk_mem_covered {c : Chunk} (hc : c ∈ code.chunks) :
    ofChunk code.names c ∈ code.covered := by
  obtain ⟨id, chunks, entrypoints, labels, functions, parameters, checksums⟩ := code
  rw [covered]
  exact List.mem_cons_of_mem _ (List.mem_append_left _ (List.mem_map_of_mem hc))

private theorem coveredAll_eq_flatMap (functions : List Code) :
    coveredAll functions = functions.flatMap covered := by
  induction functions with
  | nil => rfl
  | cons f rest ih => rw [coveredAll, ih, List.flatMap_cons]

theorem covered_subset_of_mem {block : Code} (hblock : block ∈ code.functions) :
    block.covered ⊆ code.covered := by
  obtain ⟨id, chunks, entrypoints, labels, functions, parameters, checksums⟩ := code
  intro x hx
  rw [covered, coveredAll_eq_flatMap]
  exact List.mem_cons_of_mem _ (List.mem_append_right _ (List.mem_flatMap.mpr ⟨block, hblock, hx⟩))

private theorem delimitedAll_eq_all (functions : List Code) :
    delimitedAll functions = functions.all Code.delimited := by
  induction functions with
  | nil => rfl
  | cons f rest ih => rw [delimitedAll, ih, List.all_cons]

theorem forall_delimited_iff : code.delimited ↔
    (∀ c ∈ code.chunks, c.delimited) ∧ ∀ f ∈ code.functions, f.delimited := by
  obtain ⟨id, chunks, entrypoints, labels, functions, parameters, checksums⟩ := code
  rw [Code.delimited, delimitedAll_eq_all, Bool.and_eq_true, List.all_eq_true, List.all_eq_true]

private theorem Readable.chunk (h : code.Readable) {c : Chunk} (hc : c ∈ code.chunks) : c.Legible :=
  ⟨(forall_delimited_iff.mp h.delimited).1 c hc, (forall_types_iff.mp h.named).1 c hc⟩

private theorem Readable.block (h : code.Readable) {block : Code}
    (hblock : block ∈ code.functions) : block.Readable :=
  ⟨(forall_types_iff.mp h.named).2 block hblock,
    (forall_delimited_iff.mp h.delimited).2 block hblock,
    fun x hx => h.small x (covered_subset_of_mem hblock hx)⟩

end Code

/-- What is asked of a digest to tell two codes apart: it gives no text for both that stands for
different things, and none of a single byte. -/
structure Digest.Separates (digest : Digest) (a b : Code) : Prop where
  apart : ∀ x ∈ a.covered, ∀ y ∈ b.covered, digest x = digest y → x = y
  long : ∀ x ∈ a.covered ++ b.covered, (Utf8.encode (digest x)).length ≠ 1

instance (digest : Digest) (a b : Code) : Decidable (Digest.Separates digest a b) :=
  decidable_of_iff ((∀ x ∈ a.covered, ∀ y ∈ b.covered, digest x = digest y → x = y) ∧
    ∀ x ∈ a.covered ++ b.covered, (Utf8.encode (digest x)).length ≠ 1)
    ⟨fun h => ⟨h.1, h.2⟩, fun h => ⟨h.apart, h.long⟩⟩

private theorem Digest.Separates.block (h : Digest.Separates digest a b) {block block' : Code}
    (hblock : block ∈ a.functions) (hblock' : block' ∈ b.functions) :
    Digest.Separates digest block block' := by
  have hleft : block.covered ⊆ a.covered := Code.covered_subset_of_mem hblock
  have hright : block'.covered ⊆ b.covered := Code.covered_subset_of_mem hblock'
  refine ⟨fun x hx y hy => h.apart x (hleft hx) y (hright hy), fun x hx => h.long x ?_⟩
  rcases List.mem_append.mp hx with hx | hx
  · exact List.mem_append_left _ (hleft hx)
  · exact List.mem_append_right _ (hright hx)

namespace Code

structure Comparable (v : Vocabulary F) (digest : Digest) (a b : Code) : Prop where
  left : ∃ scope, a.Assembled v True scope
  right : ∃ scope, b.Assembled v True scope
  readable : (a.stamp digest).Readable ∧ (b.stamp digest).Readable
  separates : Digest.Separates digest (a.stamp digest) (b.stamp digest)

theorem mem_stamp_chunks (digest : Digest) {r : Ref} {c : Chunk} (hc : code.chunk? r = some c) :
    c ∈ (code.stamp digest).chunks := by
  rw [(stamp_eq digest code).1]
  exact mem_of_nth? hc

private theorem mem_stamp_functions {k : Ref} {block : Code} (hk : code.function? k = some block) :
    block.stamp digest ∈ (code.stamp digest).functions := by
  rw [(stamp_eq digest code).2.2.2]
  exact List.mem_map_of_mem (mem_of_nth? hk)

private theorem Assembled.length_name (h : code.Assembled v roots scope)
    (hlong : ∀ x ∈ (code.stamp digest).covered, (Utf8.encode (digest x)).length ≠ 1) (r : Ref)
    (hr : (code.chunk? r).isSome) :
    (Utf8.encode ((code.stamp digest).names.chunk r)).length ≠ 1 := by
  obtain ⟨c, hc⟩ := Option.isSome_iff_exists.mp hr
  rw [h.names_chunk hc]
  exact hlong _ (ofChunk_mem_covered (mem_stamp_chunks _ hc))

private theorem Comparable.block (h : Comparable v digest a b) {j k : Ref} {block block' : Code}
    (hj : a.function? j = some block) (hk : b.function? k = some block') :
    Comparable v digest block block' where
  left := by
    obtain ⟨_, ha⟩ := h.left
    obtain ⟨bound, hblock⟩ := ha.exists_of_mem (mem_of_nth? hj)
    exact ⟨_, hblock⟩
  right := by
    obtain ⟨_, hb⟩ := h.right
    obtain ⟨bound, hblock⟩ := hb.exists_of_mem (mem_of_nth? hk)
    exact ⟨_, hblock⟩
  readable := ⟨h.readable.1.block (mem_stamp_functions hj),
    h.readable.2.block (mem_stamp_functions hk)⟩
  separates := h.separates.block (mem_stamp_functions hj) (mem_stamp_functions hk)

private theorem Comparable.sameChunk (h : Comparable v digest a b) {r q : Ref} {c d : Chunk}
    (hc : a.chunk? r = some c) (hd : b.chunk? q = some d)
    (hsum : (a.stamp digest).names.chunk r = (b.stamp digest).names.chunk q) :
    SameChunk (a.stamp digest).names (b.stamp digest).names c d := by
  obtain ⟨_, ha⟩ := h.left
  obtain ⟨_, hb⟩ := h.right
  have hleft := ofChunk_mem_covered (mem_stamp_chunks digest hc)
  have hright := ofChunk_mem_covered (mem_stamp_chunks digest hd)
  rw [ha.names_chunk hc, hb.names_chunk hd] at hsum
  exact Checksum.chunk_cancel (ha.form hc) (hb.form hd)
    (h.readable.1.chunk (mem_stamp_chunks _ hc)) (h.readable.2.chunk (mem_stamp_chunks _ hd))
    (ha.length_name fun x hx => h.separates.long x (List.mem_append_left _ hx))
    (hb.length_name fun x hx => h.separates.long x (List.mem_append_right _ hx))
    (h.readable.1.small _ hleft) (h.separates.apart _ hleft _ hright hsum)

private theorem Comparable.uses (h : Comparable v digest a b) {q : Ref} {name : String} {t : Ty}
    {binding : Ref} {qs : List Primitive} (hd : b.chunk? q = some (.call name t binding qs)) :
    ∀ p ∈ qs, b.Uses p := by
  obtain ⟨_, hb⟩ := h.right
  cases hb.form hd with
  | resource huses => exact huses
  | call _ huses => exact huses

private theorem Comparable.receiver (h : Comparable v digest a b) {q : Ref} {name : String} {t : Ty}
    {binding : Ref} {qs : List Primitive} (hd : b.chunk? q = some (.call name t binding qs))
    (hbinding : binding ≠ 0) : (b.chunk? binding).isSome := by
  obtain ⟨_, hb⟩ := h.right
  cases hb.form hd with
  | resource => exact absurd rfl hbinding
  | call hbinding => exact hbinding

private theorem Uses.isSome_chunk {r : Ref} (h : code.Uses (.ref r)) : (code.chunk? r).isSome := by
  rcases h.kinds with h | ⟨q, hq, hsome⟩ | ⟨k, hk, _⟩
  · exact absurd rfl h.typ_ne_ref
  · exact Primitive.scalar_int32Bytes_injective hq ▸ hsome
  · cases congrArg Primitive.typ hk

private theorem Uses.isSome_function {k : Ref} (h : code.Uses (.function k)) :
    (code.function? k).isSome := by
  rcases h.kinds with h | ⟨q, hq, _⟩ | ⟨j, hj, hsome⟩
  · exact absurd rfl h.typ_ne_functionLike
  · cases congrArg Primitive.typ hq
  · exact Primitive.scalar_int32Bytes_injective hj ▸ hsome

theorem Comparable.isSome_entrypoint (h : Comparable v digest a b) :
    ∀ q ∈ b.entrypoints, (b.chunk? q).isSome := by
  obtain ⟨_, hb⟩ := h.right
  exact fun q hq => isSome_of_earlier (hb.entrypoints q hq)

theorem Comparable.length_ofEntrypoints (h : Comparable v digest a b) :
    (ofEntrypoints (a.stamp digest).checksums a.entrypoints).length < 2 ^ 64 := by
  have hleft := ofEntrypoints_mem_covered (a.stamp digest)
  rw [(stamp_eq digest a).2.1] at hleft
  exact h.readable.1.small _ hleft

/-- Codes with the same id have entry points with the same checksums. -/
theorem Comparable.ofEntrypoints_eq (h : Comparable v digest a b)
    (hid : (a.stamp digest).id = (b.stamp digest).id) :
    ofEntrypoints (a.stamp digest).checksums a.entrypoints =
      ofEntrypoints (b.stamp digest).checksums b.entrypoints := by
  have hleft := ofEntrypoints_mem_covered (a.stamp digest)
  have hright := ofEntrypoints_mem_covered (b.stamp digest)
  rw [(stamp_eq digest a).2.1] at hleft
  rw [(stamp_eq digest b).2.1] at hright
  rw [stamp_id, stamp_id] at hid
  exact h.separates.apart _ hleft _ hright hid

end Code

mutual

private theorem Tree.At.of_names_eq {a b : Code} (h : Code.Comparable v digest a b) :
    ∀ {tree : Tree} {r q : Ref}, tree.At a r → (b.chunk? q).isSome →
      (a.stamp digest).names.chunk r = (b.stamp digest).names.chunk q → tree.At b q
  | .constant p, r, q, ⟨hp, hr⟩, hq, hsum => by
    obtain ⟨d, hd⟩ := Option.isSome_iff_exists.mp hq
    exact ⟨hp, (h.sameChunk hr hd hsum).eq_ofPrimitive ▸ hd⟩
  | .property name typ, r, q, hr, hq, hsum => by
    obtain ⟨d, hd⟩ := Option.isSome_iff_exists.mp hq
    obtain rfl := (h.sameChunk hr hd hsum).eq_property
    exact hd
  | .resource name typ args, r, q, ⟨ps, hr, hps⟩, hq, hsum => by
    obtain ⟨d, hd⟩ := Option.isSome_iff_exists.mp hq
    obtain ⟨qs, rfl, hargs⟩ := (h.sameChunk hr hd hsum).exists_resource
    exact ⟨qs, hd, Part.atAll_of_sameArg h hps (h.uses hd) hargs⟩
  | .call receiver name typ args, r, q, ⟨binding, ps, hr, hbinding, hps⟩, hq, hsum => by
    obtain ⟨d, hd⟩ := Option.isSome_iff_exists.mp hq
    obtain ⟨binding', qs, rfl, hne, hreceiver, hargs⟩ :=
      (h.sameChunk hr hd hsum).exists_call hbinding.hasType.ne_zero
    exact ⟨binding', qs, hd, Tree.At.of_names_eq h hbinding (h.receiver hd hne) hreceiver,
      Part.atAll_of_sameArg h hps (h.uses hd) hargs⟩

theorem Part.At.of_sameArg {a b : Code} (h : Code.Comparable v digest a b) :
    ∀ {part : Part} {p q : Primitive}, part.At a p → b.Uses q →
      SameArg (a.stamp digest).names (b.stamp digest).names p q → part.At b q
  | .constant p, _, q, ⟨hp, rfl⟩, hq, hsame => ⟨hp, hsame.eq_constant hp⟩
  | .chunk tree, _, q, ⟨r, rfl, hr⟩, hq, hsame => by
    obtain ⟨r', rfl, hsum⟩ := hsame.exists_ref
    exact ⟨r', rfl, Tree.At.of_names_eq h hr hq.isSome_chunk hsum⟩
  | .block body, _, q, ⟨k, block, rfl, hk, hbody⟩, hq, hsame => by
    obtain ⟨k', rfl, hid⟩ := hsame.exists_function
    obtain ⟨block', hk'⟩ := Option.isSome_iff_exists.mp hq.isSome_function
    have hblocks := h.block hk hk'
    rw [Code.names_block hk, Code.names_block hk'] at hid
    have hpoints := hblocks.ofEntrypoints_eq hid
    exact ⟨k', block', rfl, hk', Tree.atAll_of_ofEntrypoints_eq hblocks hbody
      hblocks.isSome_entrypoint hblocks.length_ofEntrypoints hpoints⟩

theorem Part.atAll_of_sameArg {a b : Code} (h : Code.Comparable v digest a b) :
    ∀ {parts : List Part} {ps qs : List Primitive}, Part.AtAll parts a ps →
      (∀ q ∈ qs, b.Uses q) →
      List.Forall₂ (SameArg (a.stamp digest).names (b.stamp digest).names) ps qs →
      Part.AtAll parts b qs
  | [], _, _, rfl, _, .nil => rfl
  | _ :: _, _, q :: qs, ⟨p, ps, rfl, hp, hps⟩, huses, .cons hpq hrest =>
    ⟨q, qs, rfl, Part.At.of_sameArg h hp (huses q List.mem_cons_self) hpq,
      Part.atAll_of_sameArg h hps (fun q hq => huses q (List.mem_cons_of_mem _ hq)) hrest⟩

private theorem Tree.atAll_of_ofEntrypoints_eq {a b : Code} (h : Code.Comparable v digest a b) :
    ∀ {trees : List Tree} {rs qs : List Ref}, Tree.AtAll trees a rs →
      (∀ q ∈ qs, (b.chunk? q).isSome) →
      (ofEntrypoints (a.stamp digest).checksums rs).length < 2 ^ 64 →
      ofEntrypoints (a.stamp digest).checksums rs = ofEntrypoints (b.stamp digest).checksums qs →
      Tree.AtAll trees b qs
  | [], _, [], rfl, _, _, _ => rfl
  | [], _, q :: qs, rfl, _, _, hsame =>
    absurd hsame.symm (Checksum.ofEntrypoints_cons_ne_nil _ _ _)
  | tree :: trees, _, [], ⟨r, rs, rfl, hr, hrs⟩, _, _, hsame =>
    absurd hsame (Checksum.ofEntrypoints_cons_ne_nil _ _ _)
  | tree :: trees, _, q :: qs, ⟨r, rs, rfl, hr, hrs⟩, hqs, hlength, hsame => by
    rw [Checksum.ofEntrypoints_cons] at hlength hsame
    rw [Checksum.ofEntrypoints_cons] at hsame
    obtain ⟨hsum, hrest⟩ := ofText_cancel hlength hsame
    exact ⟨q, qs, rfl, Tree.At.of_names_eq h hr (hqs q List.mem_cons_self) hsum,
      Tree.atAll_of_ofEntrypoints_eq h hrs (fun p hp => hqs p (List.mem_cons_of_mem _ hp))
        (Checksum.length_lt_of_append hlength) hrest⟩

end

namespace Vocabulary

/-- Chunks of compiled codes have the same checksum exactly if they have the same tree, and codes
the same id exactly if they compute the same trees. -/
theorem checksum_eq_iff (ha : v.Compiled digest a) (hb : v.Compiled digest b)
    (hreadable : a.Readable ∧ b.Readable) (hdigest : Digest.Separates digest a b) :
    (∀ r q, (a.chunk? r).isSome → (b.chunk? q).isSome →
      (a.checksum? r = b.checksum? q ↔ ∃ tree : Tree, tree.At a r ∧ tree.At b q)) ∧
    (a.id = b.id ↔
      ∃ trees, Tree.AtAll trees a a.entrypoints ∧ Tree.AtAll trees b b.entrypoints) := by
  obtain ⟨a, scope, hbuilt, rfl⟩ := ha.exists_built
  obtain ⟨b, scope', hbuilt', rfl⟩ := hb.exists_built
  have hab : Code.Comparable v digest a b := ⟨⟨_, hbuilt⟩, ⟨_, hbuilt'⟩, hreadable, hdigest⟩
  constructor
  · intro r q hr hq
    rw [Code.stamp_chunk?] at hr hq
    constructor
    · intro hsum
      obtain ⟨tree, htree⟩ := hbuilt.unfolds.chunk r hr
      exact ⟨tree, Tree.at_stamp.mpr htree, Tree.at_stamp.mpr
        (htree.of_names_eq hab hq (congrArg (·.getD "") hsum))⟩
    · rintro ⟨tree, hat, hbt⟩
      obtain ⟨sum, hsum, hsum'⟩ :=
        Tree.At.checksum?_eq hbuilt hbuilt' (Tree.at_stamp.mp hat) (Tree.at_stamp.mp hbt)
      exact hsum.trans hsum'.symm
  · rw [(Code.stamp_eq digest a).2.1, (Code.stamp_eq digest b).2.1]
    constructor
    · intro hid
      obtain ⟨trees, htrees⟩ := Tree.exists_atAll fun r hr =>
        hbuilt.unfolds.chunk r (Code.isSome_of_earlier (hbuilt.entrypoints r hr))
      exact ⟨trees, Tree.atAll_stamp.mpr htrees, Tree.atAll_stamp.mpr
        (Tree.atAll_of_ofEntrypoints_eq hab htrees hab.isSome_entrypoint hab.length_ofEntrypoints
          (hab.ofEntrypoints_eq hid))⟩
    · rintro ⟨trees, hat, hbt⟩
      rw [Code.stamp_id, Code.stamp_id, Tree.atAll_ofEntrypoints_eq hbuilt hbuilt'
        (Tree.atAll_stamp.mp hat) (Tree.atAll_stamp.mp hbt)]

set_option maxRecDepth 4000 in
theorem checksum_files :
    ∃ a b, (⟨filesRegistry, .standard⟩ : Vocabulary Unit).compile sha256Digest
        [.call (.root "files" []) "length" []] = .ok a ∧
      (⟨filesRegistry, .standard⟩ : Vocabulary Unit).compile sha256Digest [.root "files" []] =
        .ok b ∧
      (a.Readable ∧ b.Readable) ∧ Digest.Separates sha256Digest a b ∧
      (∃ tree : Tree, tree.At a 1 ∧ tree.At b 1) ∧
      ¬∃ trees, Tree.AtAll trees a a.entrypoints ∧ Tree.AtAll trees b b.entrypoints := by
  have hseen : ((⟨filesRegistry, .standard⟩ : Vocabulary Unit).compile sha256Digest
      [.call (.root "files" []) "length" []]).toOption.bind (fun a =>
        ((⟨filesRegistry, .standard⟩ : Vocabulary Unit).compile sha256Digest
          [.root "files" []]).toOption.map fun b =>
            decide ((a.Readable ∧ b.Readable) ∧ Digest.Separates sha256Digest a b ∧
              (a.chunk? 1).isSome ∧ (b.chunk? 1).isSome ∧ a.checksum? 1 = b.checksum? 1 ∧
              a.id ≠ b.id)) = some true := by decide +kernel
  obtain ⟨a, ha, hseen⟩ := Option.bind_eq_some_iff.mp hseen
  obtain ⟨b, hb, hseen⟩ := Except.exists_of_toOption_map hseen
  obtain ⟨hreadable, hdigest, hr, hq, hsum, hid⟩ := of_decide_eq_true hseen
  have ha := Except.eq_ok_of_toOption ha
  have hsize : 2 * Expr.bodySize [.call (.root "files" []) "length" []] < 2 ^ 31 := by decide
  have hsize' : 2 * Expr.bodySize [.root "files" []] < 2 ^ 31 := by decide
  obtain ⟨hchunks, hcodes⟩ :=
    checksum_eq_iff (.query hsize ha) (.query hsize' hb) hreadable hdigest
  exact ⟨a, b, ha, hb, hreadable, hdigest, (hchunks 1 1 hr hq).mp hsum, mt hcodes.mpr hid⟩

/-- A map with a number after the map in it, and one with the number in that map. -/
def entryAfter : Literal :=
  .map [("a", .map [("b", .int 1)]), ("c", .int 2), ("d", .string "x")]

def entryWithin : Literal :=
  .map [("a", .map [("b", .int 1), ("c", .int 2)]), ("d", .string "x")]

/-- What ends a map is not covered: the two have the same checksum, and alone the same id. -/
theorem checksum_entryAfter :
    ∃ a b sum, (⟨filesRegistry, .standard⟩ : Vocabulary Unit).compile sha256Digest
        [.literal entryAfter] = .ok a ∧
      (⟨filesRegistry, .standard⟩ : Vocabulary Unit).compile sha256Digest
        [.literal entryWithin] = .ok b ∧
      a.id = b.id ∧ a.checksum? 1 = some sum ∧ b.checksum? 1 = some sum ∧
      ¬∃ tree : Tree, tree.At a 1 ∧ tree.At b 1 := by
  have hcompiled : ((⟨filesRegistry, .standard⟩ : Vocabulary Unit).compile sha256Digest
      [.literal entryAfter]).toOption.map (fun code =>
        (((code.chunk? 1).map (·.primitive)).map (Option.map (·.entries.length)),
          (code.checksum? 1).isSome)) = some (some (some 3), true) := rfl
  have hcompiled' : ((⟨filesRegistry, .standard⟩ : Vocabulary Unit).compile sha256Digest
      [.literal entryWithin]).toOption.map (fun code =>
        ((code.chunk? 1).map (·.primitive)).map (Option.map (·.entries.length))) =
          some (some (some 2)) := rfl
  have hsame : ((⟨filesRegistry, .standard⟩ : Vocabulary Unit).compile sha256Digest
      [.literal entryAfter]).toOption.map (fun code => (code.id, code.checksum? 1)) =
        ((⟨filesRegistry, .standard⟩ : Vocabulary Unit).compile sha256Digest
          [.literal entryWithin]).toOption.map fun code => (code.id, code.checksum? 1) := rfl
  obtain ⟨a, ha, hthree⟩ := Except.exists_of_toOption_map hcompiled
  obtain ⟨b, hb, htwo⟩ := Except.exists_of_toOption_map hcompiled'
  obtain ⟨hthree, hsome⟩ := Prod.mk.inj hthree
  obtain ⟨sum, hsum⟩ := Option.isSome_iff_exists.mp hsome
  rw [ha, hb] at hsame
  obtain ⟨hid, hsums⟩ := Prod.mk.inj (Option.some.inj hsame)
  refine ⟨a, b, sum, ha, hb, hid, hsum, hsums.symm.trans hsum, ?_⟩
  rintro ⟨tree, hat, hbt⟩
  rw [hat.primitive_eq hbt, htwo] at hthree
  cases hthree

end Vocabulary

end AssetQuery
