import AssetQuery.Proofs.Builtin.Standard
import AssetQuery.Proofs.Code.Growth
import AssetQuery.Proofs.Code.Wire
import AssetQuery.Proofs.Ty.Label

/-!
# Tidy codes

A code is tidy if it is well keyed and all the resources that its types name are of some kind. What
is appended to a tidy code keeps it so; the checksums that are put to it in the end stand under
distinct numbers as long as the chunks can all be numbered.
-/

namespace AssetQuery

variable {named : String → Prop} {code code' : Code}

theorem Ty.names_of_isLiteral {t : Ty} (h : t.isLiteral) : t.Names named := by
  induction t with
  | array elem ih => exact ih (isLiteral_array ▸ h)
  | map key value ihkey ihvalue =>
    obtain ⟨hkey, hvalue⟩ := Bool.and_eq_true_iff.mp (isLiteral_map ▸ h)
    exact ⟨ihkey hkey, ihvalue hvalue⟩
  | resource name => cases h
  | _ => trivial

structure Primitive.Tidy (named : String → Prop) (p : Primitive) : Prop where
  sorted : p.Sorted
  names : ∀ t ∈ p.types, t.Names named

theorem Primitive.tidy_scalar (t : Ty) (bytes : Bytes) (h : t.Names named) :
    (scalar t bytes).Tidy named :=
  ⟨sorted_scalar t bytes, forall_types_iff.mpr ⟨h, nofun, nofun⟩⟩

private theorem Primitive.typ_mem_types (p : Primitive) : p.typ ∈ p.types := by
  cases p
  exact List.mem_cons_self

structure Chunk.Tidy (named : String → Prop) (c : Chunk) : Prop where
  sorted : c.Sorted
  names : ∀ t ∈ c.types, t.Names named

namespace Chunk

theorem tidy_ofPrimitive {p : Primitive} (h : p.Tidy named) : (ofPrimitive p).Tidy named :=
  ⟨⟨nofun, fun _ hp => Option.some.inj hp ▸ h.sorted⟩,
    forall_types_iff.mpr ⟨nofun, fun _ hp => Option.some.inj hp ▸ h.names⟩⟩

theorem tidy_call (id : String) (t : Ty) (binding : Ref) {args : List Primitive}
    (ht : t.Names named) (hargs : ∀ p ∈ args, p.Tidy named) :
    (call id t binding args).Tidy named := by
  refine ⟨⟨fun _ hf => Option.some.inj hf ▸ fun p hp => (hargs p hp).sorted, nofun⟩,
    forall_types_iff.mpr ⟨fun f hf => ?_, nofun⟩⟩
  obtain rfl := Option.some.inj hf
  exact FunctionCall.forall_types_iff.mpr ⟨ht, fun p hp => (hargs p hp).names⟩

theorem tidy_property {t : Ty} (ht : t.Names named) (name : String) :
    (property name t).Tidy named :=
  ⟨⟨nofun, fun _ hp => Option.some.inj hp ▸ Primitive.sorted_scalar _ _⟩,
    forall_types_iff.mpr
      ⟨nofun, fun _ hp => Option.some.inj hp ▸ (Primitive.tidy_scalar _ _ ht).names⟩⟩

end Chunk

namespace Code

mutual

/-- How many chunks there are in a code and its blocks. -/
def count : Code → Nat
  | ⟨_, chunks, _, _, functions, _, _⟩ => chunks.length + countAll functions

def countAll : List Code → Nat
  | [] => 0
  | code :: rest => code.count + countAll rest

end

private theorem countAll_append (codes : List Code) (last : Code) :
    countAll (codes ++ [last]) = countAll codes + last.count := by
  induction codes with
  | nil => simp [countAll]
  | cons code rest ih =>
    rw [List.cons_append, countAll, countAll, ih]
    omega

private theorem count_le_countAll {codes : List Code} {code : Code} (h : code ∈ codes) :
    code.count ≤ countAll codes := by
  induction codes with
  | nil => cases h
  | cons first rest ih =>
    rw [countAll]
    rcases List.mem_cons.mp h with rfl | h
    · omega
    · have := ih h
      omega

structure Tidy (named : String → Prop) (code : Code) : Prop where
  wellKeyed : code.WellKeyed
  names : ∀ t ∈ code.types, t.Names named

section Steps

variable {c : Chunk} {block : Code} {r : Ref} {label : String}

theorem Tidy.addChunk (h : code.Tidy named) (hc : c.Tidy named) :
    (code.addChunk c).Tidy named := by
  obtain ⟨⟨hchunks, hlabels, hfunctions, hchecksums⟩, hnames⟩ := h
  obtain ⟨hnames, hblocks⟩ := forall_types_iff.mp hnames
  refine ⟨.mk (fun d hd => ?_) hlabels hfunctions hchecksums,
    forall_types_iff.mpr ⟨fun d hd => ?_, hblocks⟩⟩
  · rcases List.mem_append.mp hd with hd | hd
    · exact hchunks d hd
    · exact List.mem_singleton.mp hd ▸ hc.sorted
  · rcases List.mem_append.mp hd with hd | hd
    · exact hnames d hd
    · exact List.mem_singleton.mp hd ▸ hc.names

theorem Tidy.addFunction (h : code.Tidy named) (hblock : block.Tidy named) :
    (code.addFunction block).Tidy named := by
  obtain ⟨⟨hchunks, hlabels, hfunctions, hchecksums⟩, hnames⟩ := h
  obtain ⟨hnames, hblocks⟩ := forall_types_iff.mp hnames
  refine ⟨.mk hchunks hlabels (fun f hf => ?_) hchecksums,
    forall_types_iff.mpr ⟨hnames, fun f hf => ?_⟩⟩
  · rcases List.mem_append.mp hf with hf | hf
    · exact hfunctions f hf
    · exact List.mem_singleton.mp hf ▸ hblock.wellKeyed
  · rcases List.mem_append.mp hf with hf | hf
    · exact hblocks f hf
    · exact List.mem_singleton.mp hf ▸ hblock.names

theorem Tidy.addEntrypoint (h : code.Tidy named) : (code.addEntrypoint r label).Tidy named := by
  obtain ⟨⟨hchunks, hlabels, hfunctions, hchecksums⟩, hnames⟩ := h
  exact ⟨.mk hchunks (Table.distinct_put r label hlabels) hfunctions hchecksums, hnames⟩

theorem tidy_empty : Code.empty.Tidy named := ⟨.mk nofun .nil nofun .nil, nofun⟩

private theorem Tidy.typeStep (h : code.Tidy named) {t : Ty} (ht : code.typeStep r = .inl t) :
    t.Names named := by
  rw [Code.typeStep] at ht
  split at ht
  · exact Sum.inl.inj ht ▸ trivial
  · next c hfound =>
    obtain ⟨hfunction, hprimitive⟩ :=
      Chunk.forall_types_iff.mp ((forall_types_iff.mp h.names).1 c (mem_of_nth? hfound))
    cases hkind : c.kind with
    | function =>
      simp only [hkind] at ht
      obtain rfl := Sum.inl.inj ht
      cases hcall : c.function with
      | none => trivial
      | some f => exact (FunctionCall.forall_types_iff.mp (hfunction f hcall)).1
    | _ =>
      simp only [hkind] at ht
      split at ht
      · exact Sum.inl.inj ht ▸ trivial
      · next p hp =>
        split at ht
        · split at ht
          · split at ht
            · exact Sum.inl.inj ht ▸ trivial
            · cases ht
          · exact Sum.inl.inj ht ▸ trivial
        · exact Sum.inl.inj ht ▸ hprimitive p hp p.typ p.typ_mem_types

theorem Tidy.chunkType (h : code.Tidy named) (r : Ref) : (code.chunkType r).Names named := by
  have hwithin (steps : Nat) (r : Ref) : ∀ t ∈ code.typeWithin steps r, t.Names named := by
    induction steps generalizing r with
    | zero => exact nofun
    | succ steps ih =>
      intro t ht
      rw [typeWithin] at ht
      split at ht
      · next hstep => exact Option.some.inj ht ▸ h.typeStep hstep
      · exact ih _ t ht
  rw [Code.chunkType]
  cases hfound : code.chunkType? r with
  | none => trivial
  | some t => exact hwithin _ r t hfound

theorem count_addChunk (code : Code) (c : Chunk) : (code.addChunk c).count = code.count + 1 := by
  cases code
  simp only [addChunk, count, List.length_append, List.length_singleton]
  omega

theorem count_addFunction (code block : Code) :
    (code.addFunction block).count = code.count + block.count := by
  cases code
  simp only [addFunction, count, countAll_append]
  omega

theorem count_addEntrypoint (code : Code) (r : Ref) (label : String) :
    (code.addEntrypoint r label).count = code.count := by
  cases code
  rw [addEntrypoint, count, count]

end Steps

private theorem ofChunks_numbers (digest : Digest) (block : Ref → String)
    (sums : List (Ref × String)) (chunks : List Chunk)
    (h : sums.map (·.1) = (List.range sums.length).map fun i => Int32.ofNat (i + 1)) :
    (Checksum.ofChunks digest block sums chunks).map (·.1) =
      (List.range (sums.length + chunks.length)).map fun i => Int32.ofNat (i + 1) := by
  induction chunks generalizing sums with
  | nil => exact h
  | cons c rest ih =>
    rw [Checksum.ofChunks, ih]
    · simp only [List.length_append, List.length_cons, List.length_nil]
      congr 2
      omega
    · simp only [List.map_append, h, List.length_append, List.length_cons, List.length_nil]
      rw [List.range_succ, List.map_append]
      rfl

private theorem distinct_ofChunks (digest : Digest) (block : Ref → String) {chunks : List Chunk}
    (h : chunks.length < 2 ^ 31) : Table.Distinct (Checksum.ofChunks digest block [] chunks) := by
  rw [Table.Distinct, ← List.pairwise_map (R := (· ≠ ·)),
    ofChunks_numbers digest block [] chunks rfl, List.pairwise_map]
  refine List.pairwise_lt_range.imp_of_mem fun {i j} hi hj hlt heq => ?_
  have hi := List.mem_range.mp hi
  have hj := List.mem_range.mp hj
  simp only [List.length_nil] at hi hj
  have heq := congrArg Int32.toInt heq
  rw [Int32.toInt_ofNat_of_lt (by omega), Int32.toInt_ofNat_of_lt (by omega)] at heq
  omega

private theorem WellKeyed.stamp (h : code.WellKeyed) (hcount : code.count < 2 ^ 31)
    (digest : Digest) : (code.stamp digest).WellKeyed := by
  induction h with
  | @mk id chunks entrypoints labels functions parameters checksums hchunks hlabels _ _ ih =>
    rw [count] at hcount
    rw [Code.stamp, stampAll_eq_map]
    refine .mk hchunks hlabels (fun f hf => ?_) (distinct_ofChunks digest _ (by omega))
    obtain ⟨block, hblock, rfl⟩ := List.mem_map.mp hf
    have := count_le_countAll hblock
    exact ih block hblock (by omega)

private theorem types_stamp (digest : Digest) (code : Code) :
    (code.stamp digest).types = code.types := by
  induction code using induction with
  | mk id chunks entrypoints labels functions parameters checksums ih =>
    rw [stamp, types, types, stampAll_eq_map, functionTypes_eq_flatMap, functionTypes_eq_flatMap,
      List.flatMap_map, List.flatMap_congr ih]

theorem Tidy.stamp (h : code.Tidy named) (hcount : code.count < 2 ^ 31) (digest : Digest) :
    (code.stamp digest).Tidy named :=
  ⟨h.wellKeyed.stamp hcount digest, types_stamp digest code ▸ h.names⟩

end Code

end AssetQuery
