import AssetQuery.Code.Wire
import AssetQuery.Proofs.Primitive.Wire

/-!
# Codes read back

A code is read off its bytes on the wire, whatever follows them, with all the blocks in it. It is
written unless one of the types in it cannot be encoded.
-/

namespace AssetQuery

namespace FunctionCall

def types (f : FunctionCall) : List Ty := f.typ :: f.args.flatMap Primitive.types

/-- Whether the arguments are sorted. -/
def Sorted (f : FunctionCall) : Prop := ∀ p ∈ f.args, p.Sorted

theorem forall_types_iff {f : FunctionCall} {P : Ty → Prop} :
    (∀ t ∈ f.types, P t) ↔ P f.typ ∧ ∀ p ∈ f.args, ∀ t ∈ p.types, P t := by
  rw [types, List.forall_mem_cons, List.forall_mem_flatMap]

theorem writeWire_eq_ok {f : FunctionCall} {b : Bytes} :
    f.writeWire = .ok b ↔
      ∃ bt, f.typ.writeWire = .ok bt ∧ ∃ ba, Wire.writeEach Primitive.writeWire f.args = .ok ba ∧
        bt ++ (Wire.writeInt32 f.binding ++ (Wire.varint f.args.length ++ ba)) = b := by
  rw [writeWire, Primitive.writeItems_eq_writeEach]
  simp only [Except.bind_eq_ok, List.append_assoc, pure, Except.pure, Except.ok.injEq]

private theorem writeWire_succeeds_iff (f : FunctionCall) :
    (∃ b, f.writeWire = .ok b) ↔ ∀ t ∈ f.types, ¬t.NameTooLong := by
  rw [types, List.forall_mem_cons, ← Ty.writeWire_succeeds_iff,
    ← Ty.writeEach_succeeds_iff fun p _ => p.writeWire_succeeds_iff]
  simp only [writeWire_eq_ok]
  exact Except.both_succeed_iff

private theorem restores_writeWire {f : FunctionCall} {room : Nat} (hsorted : f.Sorted)
    (hroom : room < UInt64.size) : Wire.Restores room writeWire readWire f := by
  intro b hwrite hlength
  obtain ⟨bt, htyp, ba, hargs, rfl⟩ := writeWire_eq_ok.mp hwrite
  have hcount := Wire.length_varint_pos f.args.length
  simp only [List.length_append] at hlength ⊢
  have hreadTyp := (Ty.restores_writeWire hroom f.typ bt htyp (by omega)).2
  have hreadArgs := Wire.reads_list hargs (by omega) (Nat.le_refl _)
    fun p hp => Primitive.restores_writeWire (hsorted p hp) (by omega)
  constructor
  · omega
  · exact hreadTyp.andThen ((Wire.Reader.reads_int32 f.binding).andThen (hreadArgs.map rfl))

end FunctionCall

namespace Chunk

def types (c : Chunk) : List Ty :=
  c.function.toList.flatMap FunctionCall.types ++ c.primitive.toList.flatMap Primitive.types

/-- Whether the primitives of a chunk are sorted. -/
structure Sorted (c : Chunk) : Prop where
  function : ∀ f, c.function = some f → f.Sorted
  primitive : ∀ p, c.primitive = some p → p.Sorted

theorem forall_types_iff {c : Chunk} {P : Ty → Prop} :
    (∀ t ∈ c.types, P t) ↔ (∀ f, c.function = some f → ∀ t ∈ f.types, P t) ∧
      ∀ p, c.primitive = some p → ∀ t ∈ p.types, P t := by
  rw [types, List.forall_mem_append, List.forall_mem_flatMap, List.forall_mem_flatMap]
  simp

variable {α : Type} {write : α → Except TyError Bytes}

private theorem writeOptional_succeeds_iff {types : α → List Ty} {o : Option α}
    (h : ∀ a, (∃ b, write a = .ok b) ↔ ∀ t ∈ types a, ¬t.NameTooLong) :
    (∃ b, writeOptional write o = .ok b) ↔ ∀ t ∈ o.toList.flatMap types, ¬t.NameTooLong := by
  cases o with
  | none => simp [writeOptional]
  | some a =>
    rw [Option.toList_some, List.flatMap_singleton, ← h]
    exact Except.bind_pure_succeeds_iff

private theorem restores_writeOptional {read : Wire.Reader α} {room : Nat} {o : Option α}
    (h : ∀ a, o = some a → Wire.Restores room write read a) :
    Wire.Restores room (writeOptional write) (.optional read) o := by
  intro b hwrite hlength
  cases o with
  | none =>
    cases hwrite
    exact ⟨Nat.zero_lt_one, Wire.Reader.reads_none read⟩
  | some a =>
    obtain ⟨ba, ha, hb⟩ := Except.bind_eq_ok.mp hwrite
    cases hb
    have hread := (h a rfl ba ha (Nat.le_of_succ_le hlength)).2
    exact ⟨Nat.zero_lt_succ _, hread.some⟩

private theorem reads_kind (kind : ChunkKind) : readKind.Reads
    (Wire.varint (kindNumber kind)) kind := by
  have hbound : kindNumber kind < UInt32.size := by cases kind <;> decide
  apply (Wire.Reader.reads_number32 hbound).map
  cases kind <;> rfl

theorem writeWire_eq_ok {c : Chunk} {b : Bytes} :
    c.writeWire = .ok b ↔
      ∃ bf, writeOptional FunctionCall.writeWire c.function = .ok bf ∧
        ∃ bp, writeOptional Primitive.writeWire c.primitive = .ok bp ∧
          Wire.varint (kindNumber c.kind) ++ (Wire.writeText c.id ++ (bf ++ bp)) = b := by
  rw [writeWire]
  simp only [Except.bind_eq_ok, List.append_assoc, pure, Except.pure, Except.ok.injEq]

private theorem writeWire_succeeds_iff (c : Chunk) :
    (∃ b, c.writeWire = .ok b) ↔ ∀ t ∈ c.types, ¬t.NameTooLong := by
  rw [types, List.forall_mem_append,
    ← writeOptional_succeeds_iff FunctionCall.writeWire_succeeds_iff,
    ← writeOptional_succeeds_iff Primitive.writeWire_succeeds_iff]
  simp only [writeWire_eq_ok]
  exact Except.both_succeed_iff

private theorem restores_writeWire {c : Chunk} {room : Nat} (hsorted : c.Sorted)
    (hroom : room < UInt64.size) : Wire.Restores room writeWire readWire c := by
  intro b hwrite hlength
  obtain ⟨bf, hfunction, bp, hprimitive, rfl⟩ := writeWire_eq_ok.mp hwrite
  have hkind := Wire.length_varint_pos (kindNumber c.kind)
  simp only [Wire.writeText, Wire.writeBytes, List.length_append] at hlength ⊢
  have hreadId := Wire.Reader.reads_text (s := c.id) (by omega)
  have hreadFunction := restores_writeOptional
    (fun f hf => FunctionCall.restores_writeWire (hsorted.function f hf) hroom) bf hfunction
    (by omega)
  have hreadPrimitive := restores_writeOptional
    (fun p hp => Primitive.restores_writeWire (hsorted.primitive p hp) hroom) bp hprimitive
    (by omega)
  constructor
  · omega
  · exact (reads_kind c.kind).andThen (hreadId.andThen
      (hreadFunction.2.andThen (hreadPrimitive.2.map rfl)))

private theorem writeAll_eq_writeEach (chunks : List Chunk) :
    writeAll chunks = Wire.writeEach writeWire chunks := by
  induction chunks with
  | nil => rfl
  | cons c rest ih => rw [writeAll, Wire.writeEach, ih]

end Chunk

namespace Code

theorem induction {motive : Code → Prop}
    (mk : ∀ id chunks entrypoints labels functions parameters checksums,
      (∀ f ∈ functions, motive f) →
      motive ⟨id, chunks, entrypoints, labels, functions, parameters, checksums⟩)
    (c : Code) : motive c := by
  obtain ⟨id, chunks, entrypoints, labels, functions, parameters, checksums⟩ := c
  exact mk _ _ _ _ _ _ _ fun f _ => induction mk f
termination_by c
decreasing_by
  have hblock := List.sizeOf_lt_of_mem ‹_›
  simp only [Code.mk.sizeOf_spec]
  omega

mutual

/-- The types in a code and in its blocks. -/
def types : Code → List Ty
  | ⟨_, chunks, _, _, functions, _, _⟩ => chunks.flatMap Chunk.types ++ functionTypes functions

def functionTypes : List Code → List Ty
  | [] => []
  | code :: rest => code.types ++ functionTypes rest

end

theorem functionTypes_eq_flatMap (functions : List Code) :
    functionTypes functions = functions.flatMap types := by
  induction functions with
  | nil => rfl
  | cons f rest ih => rw [functionTypes, ih, List.flatMap_cons]

theorem forall_types_iff {code : Code} {P : Ty → Prop} :
    (∀ t ∈ code.types, P t) ↔ (∀ c ∈ code.chunks, ∀ t ∈ c.types, P t) ∧
      ∀ f ∈ code.functions, ∀ t ∈ f.types, P t := by
  cases code
  rw [types, functionTypes_eq_flatMap, List.forall_mem_append, List.forall_mem_flatMap,
    List.forall_mem_flatMap]

private theorem writeFunctions_eq_writeEach (functions : List Code) :
    writeFunctions functions = Wire.writeEach writeWire functions := by
  induction functions with
  | nil => rfl
  | cons f rest ih => rw [writeFunctions, Wire.writeEach, ih]

/-- Whether the labels and checksums of a code and of its blocks stand under distinct numbers and
the primitives in them are sorted, as in every code that is read. -/
inductive WellKeyed : Code → Prop
  | mk {id : String} {chunks : List Chunk} {entrypoints : List Ref} {labels : List (Ref × String)}
    {functions : List Code} {parameters : Int32} {checksums : List (Ref × String)}
    (hchunks : ∀ c ∈ chunks, c.Sorted) (hlabels : Table.Distinct labels)
    (hfunctions : ∀ f ∈ functions, f.WellKeyed) (hchecksums : Table.Distinct checksums) :
    WellKeyed ⟨id, chunks, entrypoints, labels, functions, parameters, checksums⟩

private theorem reads_refs (refs : List Ref) (h : (writeRefs refs).length < UInt64.size) :
    (Wire.Reader.list .int32).Reads (writeRefs refs) refs := by
  have hwrite := Wire.writeEach_ok TyError Wire.writeInt32 refs
  rw [writeRefs, List.length_append] at h
  refine Wire.reads_list hwrite (by omega) (Nat.le_refl _) fun r _ b hb _ => ?_
  cases hb
  exact ⟨Wire.length_varint_pos _, Wire.Reader.reads_int32 r⟩

private theorem reads_table (table : List (Ref × String))
    (h : (writeTable table).length < UInt64.size)
    (hdistinct : Table.Distinct table) : readTable.Reads (writeTable table) table := by
  have hwrite := Wire.writeEach_ok TyError
    (fun e : Ref × String => Wire.writeInt32 e.1 ++ Wire.writeText e.2) table
  rw [writeTable, List.length_append] at h
  have hentries : (Wire.Reader.list (.pair .int32 .text)).Reads (writeTable table) table := by
    have hroom : _ ≤ UInt64.size - 1 := Nat.le_sub_one_of_lt (Nat.lt_of_le_of_lt
      (Nat.le_add_left _ _) h)
    refine Wire.reads_list hwrite (by omega) hroom fun e _ b hb hlength => ?_
    cases hb
    have hcount := Wire.length_varint_pos (Utf8.encode e.2).length
    simp only [Wire.writeText, Wire.writeBytes, List.length_append] at hlength ⊢
    constructor
    · omega
    · exact (Wire.Reader.reads_int32 e.1).pair (Wire.Reader.reads_text (by omega))
  apply hentries.map
  rw [Table.ofList_of_distinct hdistinct]

theorem writeWire_eq_ok {id : String} {chunks : List Chunk} {entrypoints : List Ref}
    {labels checksums : List (Ref × String)} {functions : List Code} {parameters : Int32}
    {b : Bytes} :
    writeWire ⟨id, chunks, entrypoints, labels, functions, parameters, checksums⟩ = .ok b ↔
      ∃ bc, Wire.writeEach Chunk.writeWire chunks = .ok bc ∧
        ∃ bf, Wire.writeEach writeWire functions = .ok bf ∧
          Wire.writeText id ++ (Wire.varint chunks.length ++ bc ++ (writeRefs entrypoints ++
            (writeTable labels ++ (Wire.varint functions.length ++ bf ++
              (Wire.writeInt32 parameters ++ writeTable checksums))))) = b := by
  rw [writeWire, Chunk.writeAll_eq_writeEach, writeFunctions_eq_writeEach]
  simp only [Except.bind_eq_ok, List.append_assoc, pure, Except.pure, Except.ok.injEq]

theorem writeWire_succeeds_iff (c : Code) :
    (∃ b, c.writeWire = .ok b) ↔ ∀ t ∈ c.types, ¬t.NameTooLong := by
  induction c using induction with
  | mk id chunks entrypoints labels functions parameters checksums ih =>
    rw [types, List.forall_mem_append, functionTypes_eq_flatMap,
      ← Ty.writeEach_succeeds_iff fun c _ => Chunk.writeWire_succeeds_iff c,
      ← Ty.writeEach_succeeds_iff ih]
    simp only [writeWire_eq_ok]
    exact Except.both_succeed_iff

private theorem restores_readLevels {c : Code} {room levels : Nat} (hkeyed : c.WellKeyed)
    (hroom : room < UInt64.size) (hlevels : room < levels) :
    Wire.Restores room writeWire (readLevels levels) c := by
  induction hkeyed generalizing room levels with
  | @mk id chunks entrypoints labels functions parameters checksums hchunks hlabels _ hchecksums
      ih =>
    intro b hwrite hlength
    obtain ⟨bc, hwriteChunks, bf, hwriteFunctions, rfl⟩ := writeWire_eq_ok.mp hwrite
    have hid := Wire.length_varint_pos (Utf8.encode id).length
    simp only [Wire.writeText, Wire.writeBytes, List.length_append] at hlength ⊢
    obtain ⟨levels, rfl⟩ := Nat.exists_eq_add_one_of_ne_zero (Nat.ne_zero_of_lt hlevels)
    have hreadId := Wire.Reader.reads_text (s := id) (by omega)
    have hreadChunks := Wire.reads_list hwriteChunks (by omega) (Nat.le_refl _)
      fun c hc => Chunk.restores_writeWire (hchunks c hc) (by omega)
    have hreadEntrypoints := reads_refs entrypoints (by omega)
    have hreadLabels := reads_table labels (by omega) hlabels
    have hreadFunctions := Wire.reads_list hwriteFunctions (by omega) (Nat.le_refl _)
      fun f hf => ih f hf (by omega) (by omega : bf.length < levels)
    have hreadChecksums := reads_table checksums (by omega) hchecksums
    constructor
    · omega
    · exact hreadId.andThen (hreadChunks.andThen (hreadEntrypoints.andThen (hreadLabels.andThen
        (hreadFunctions.andThen ((Wire.Reader.reads_int32 parameters).andThen
          (hreadChecksums.map rfl))))))

theorem restores_writeWire {c : Code} {room : Nat} (hkeyed : c.WellKeyed)
    (hroom : room < UInt64.size) : Wire.Restores room writeWire readWire c :=
  Wire.restores_of_levels hroom fun _ _ => restores_readLevels hkeyed

end Code

end AssetQuery
