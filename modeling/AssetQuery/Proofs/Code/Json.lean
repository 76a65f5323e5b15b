import AssetQuery.Code.Json
import AssetQuery.Proofs.Code.Wire
import AssetQuery.Proofs.Primitive.Json

/-!
# Codes read back from JSON

A code is read back from its JSON text exactly if each type in it is read back from its label and
the text does not nest too deep.
-/

namespace AssetQuery

open Json (Decoder)

private theorem FunctionCall.wellSpelled_toJson (f : FunctionCall) : f.toJson.WellSpelled := by
  rw [toJson, Primitive.itemsJson_eq_map]
  refine Json.wellSpelled_ofMembers ?_
  simp only [List.forall_mem_cons]
  exact ⟨Json.wellSpelled_ofText _, .number f.binding.toInt,
    .array (List.forall_mem_map.mpr fun p _ => p.wellSpelled_toJson), nofun⟩

private theorem FunctionCall.toJson_ne_null (f : FunctionCall) : f.toJson ≠ .null := by
  rw [toJson, Json.ofMembers]
  exact Json.noConfusion

private theorem FunctionCall.decoder_restores {f : FunctionCall} (hsorted : f.Sorted) (room : Nat) :
    decoder.Restores room f.toJson f (∀ t ∈ f.types, t.Labelled) := by
  cases room with
  | zero =>
    rw [toJson]
    refine Decoder.restores_zero ?_
    rw [decoder, Decoder.record_zero]
    rfl
  | succ room =>
    have hargs : (Decoder.list Primitive.decoder).Restores room
        (.array (Primitive.itemsJson f.args)) f.args (∀ p ∈ f.args, ∀ t ∈ p.types, t.Labelled) := by
      rw [Primitive.itemsJson_eq_map]
      refine Decoder.restores_list Primitive.toJson _ fun r _ p hp => ?_
      exact Primitive.decoder_restores (hsorted p hp) r
    have hread : decoder (room + 1) f.toJson = some f ↔
        Ty.decoder room f.typ.toJson = some f.typ ∧
        Decoder.list Primitive.decoder room (.array (Primitive.itemsJson f.args)) =
          some f.args := by
      rw [decoder, toJson, Decoder.record_ofMembers ["type", "binding", "args"] rfl (by decide)]
      obtain ⟨typ, binding, args⟩ := f
      simp [Json.Fields.required, Json.Fields.orElse, Option.bind_eq_some_iff, List.lookup_cons,
        Decoder.int32_ofInt]
    have hbinding : (Json.ofInt f.binding.toInt).levels ≤ room := Nat.zero_le room
    rw [Decoder.Restores, hread, toJson, Json.levels_ofMembers_le, forall_types_iff,
      (Ty.restores_toJson room f.typ).iff, hargs.iff]
    simp only [List.forall_mem_cons]
    grind

namespace Chunk

private theorem kindDecoder_kindName (room : Nat) (kind : ChunkKind) :
    kindDecoder room (.ofText (kindName kind)) = some kind := by
  have hname : Decoder.choice room (.ofText (kindName kind)) = some (.name (kindName kind)) := by
    cases room <;> simp [Json.ofText, Decoder.choice, Json.unspell?_spell]
  rw [kindDecoder, hname]
  cases kind <;> rfl

private theorem wellSpelled_toJson (c : Chunk) : c.toJson.WellSpelled := by
  have hfunction : (optionJson FunctionCall.toJson c.function).WellSpelled := by
    cases c.function with
    | none => exact .null
    | some f => exact f.wellSpelled_toJson
  have hprimitive : (optionJson Primitive.toJson c.primitive).WellSpelled := by
    cases c.primitive with
    | none => exact .null
    | some p => exact p.wellSpelled_toJson
  rw [toJson]
  refine Json.wellSpelled_ofMembers ?_
  simp only [List.forall_mem_cons]
  exact ⟨Json.wellSpelled_ofText _, Json.wellSpelled_ofText _, hfunction, hprimitive, nofun⟩

private theorem decoder_restores {c : Chunk} (hsorted : c.Sorted) (room : Nat) :
    decoder.Restores room c.toJson c (∀ t ∈ c.types, t.Labelled) := by
  cases room with
  | zero =>
    rw [toJson]
    refine Decoder.restores_zero ?_
    rw [decoder, Decoder.record_zero]
    rfl
  | succ room =>
    have hfunction : (Decoder.nullable FunctionCall.decoder).Restores room
        (optionJson FunctionCall.toJson c.function) c.function
        (∀ f, c.function = some f → ∀ t ∈ f.types, t.Labelled) :=
      Decoder.restores_nullable FunctionCall.toJson_ne_null fun f hf =>
        FunctionCall.decoder_restores (hsorted.function f hf) room
    have hprimitive : (Decoder.nullable Primitive.decoder).Restores room
        (optionJson Primitive.toJson c.primitive) c.primitive
        (∀ p, c.primitive = some p → ∀ t ∈ p.types, t.Labelled) :=
      Decoder.restores_nullable Primitive.toJson_ne_null fun p hp =>
        Primitive.decoder_restores (hsorted.primitive p hp) room
    have hid : Decoder.text room (.ofText c.id) = some c.id := Json.unspell?_spell c.id
    have hread : decoder (room + 1) c.toJson = some c ↔
        Decoder.nullable FunctionCall.decoder room (optionJson FunctionCall.toJson c.function) =
          some c.function ∧
        Decoder.nullable Primitive.decoder room (optionJson Primitive.toJson c.primitive) =
          some c.primitive := by
      rw [decoder, toJson,
        Decoder.record_ofMembers ["call", "id", "function", "primitive"] rfl (by decide)]
      obtain ⟨kind, id, function, primitive⟩ := c
      simp [Json.Fields.required, Json.Fields.orElse, Option.bind_eq_some_iff, List.lookup_cons,
        kindDecoder_kindName, hid]
    have hcall : (Json.ofText (kindName c.kind)).levels ≤ room := Nat.zero_le room
    have hname : (Json.ofText c.id).levels ≤ room := Nat.zero_le room
    rw [Decoder.Restores, hread, toJson, Json.levels_ofMembers_le, forall_types_iff, hfunction.iff,
      hprimitive.iff]
    simp only [List.forall_mem_cons]
    grind

end Chunk

namespace Code

theorem functionsJson_eq_map (functions : List Code) :
    functionsJson functions = functions.map toJson := by
  induction functions with
  | nil => rfl
  | cons f rest ih => rw [functionsJson, ih, List.map_cons]

private theorem levels_tableJson_le (table : List (Ref × String)) (room : Nat) :
    (tableJson table).levels ≤ room + 1 :=
  Json.levels_object_le.mpr (List.forall_mem_map.mpr fun _ _ => Nat.zero_le room)

private theorem tableDecoder_tableJson (table : List (Ref × String)) (room : Nat) :
    tableDecoder (room + 1) (tableJson table) = some (Table.ofList table) := by
  have hnumber (r : Ref) : Json.number? (toString r.toInt).toList =
      some ((toString r.toInt).toList, []) := by
    have hread := Json.number?_toString r.toInt (show Json.EndsNumber [] from nofun)
    rwa [List.append_nil] at hread
  have hname (r : Ref) : Decoder.int32 room (.number r.toInt.repr) = some r :=
    Decoder.int32_ofInt room r
  have htext (label : String) : Decoder.text room (.ofText label) = some label :=
    Json.unspell?_spell label
  rw [tableJson, tableDecoder, List.mapM_map,
    (Decoder.mapM_eq_some_self (P := fun _ => True) fun e _ => ?_).mpr fun _ _ => trivial]
  · rfl
  · simp only [Function.comp_apply, hnumber]
    simp [hname, htext]

private theorem restores_table {table : List (Ref × String)} (hdistinct : Table.Distinct table)
    (room : Nat) : tableDecoder.Restores room (tableJson table) table True := by
  cases room with
  | zero => simp [Decoder.Restores, tableDecoder, tableJson, Json.levels]
  | succ room =>
    rw [Decoder.Restores, tableDecoder_tableJson, Table.ofList_of_distinct hdistinct]
    simp [levels_tableJson_le]

private theorem restores_toJson {c : Code} (hkeyed : c.WellKeyed) {levels room : Nat}
    (hroom : room < levels) :
    (decoderLevels levels).Restores room c.toJson c (∀ t ∈ c.types, t.Labelled) := by
  induction hkeyed generalizing levels room with
  | @mk id chunks entrypoints labels functions parameters checksums hchunks hlabels _ hchecksums
    ih =>
    obtain ⟨levels, rfl⟩ : ∃ k, levels = k + 1 := ⟨levels - 1, by omega⟩
    cases room with
    | zero =>
      rw [toJson]
      refine Decoder.restores_zero ?_
      rw [decoderLevels]
      dsimp only
      rw [Decoder.record_zero]
      rfl
    | succ room =>
      have hchunks : (Decoder.list Chunk.decoder).Restores room (.array (chunks.map Chunk.toJson))
          chunks (∀ c ∈ chunks, ∀ t ∈ c.types, t.Labelled) :=
        Decoder.restores_list Chunk.toJson _ fun r _ c hc =>
          Chunk.decoder_restores (hchunks c hc) r
      have hfunctions : (Decoder.list (decoderLevels levels)).Restores room
          (.array (functionsJson functions)) functions
          (∀ f ∈ functions, ∀ t ∈ f.types, t.Labelled) := by
        rw [functionsJson_eq_map]
        refine Decoder.restores_list toJson _ fun r hr f hf => ?_
        exact ih f hf (by omega)
      have hpoints : (Decoder.list Decoder.int32).Restores room
          (.array (entrypoints.map fun r => .ofInt r.toInt)) entrypoints
          (∀ r ∈ entrypoints, True) :=
        Decoder.restores_list _ (fun _ => True) fun room _ r _ =>
          Decoder.restores_of_eq_some (Decoder.int32_ofInt room r) rfl
      have hid : Decoder.text room (.ofText id) = some id := Json.unspell?_spell id
      have hread : decoderLevels (levels + 1) (room + 1)
          (toJson ⟨id, chunks, entrypoints, labels, functions, parameters, checksums⟩) =
          some ⟨id, chunks, entrypoints, labels, functions, parameters, checksums⟩ ↔
          Decoder.list Chunk.decoder room (.array (chunks.map Chunk.toJson)) = some chunks ∧
          Decoder.list Decoder.int32 room (.array (entrypoints.map fun r => .ofInt r.toInt)) =
            some entrypoints ∧
          tableDecoder room (tableJson labels) = some labels ∧
          Decoder.list (decoderLevels levels) room (.array (functionsJson functions)) =
            some functions ∧
          tableDecoder room (tableJson checksums) = some checksums := by
        rw [decoderLevels, toJson]
        dsimp only
        rw [Decoder.record_ofMembers ["id", "chunks", "entrypoints", "labels", "functions",
          "parameters", "checksums"] rfl (by decide)]
        simp [Json.Fields.required, Option.bind_eq_some_iff, List.lookup_cons, hid,
          Decoder.int32_ofInt]
      have hname : (Json.ofText id).levels ≤ room := Nat.zero_le room
      have hcount : (Json.ofInt parameters.toInt).levels ≤ room := Nat.zero_le room
      rw [Decoder.Restores, hread, toJson, Json.levels_ofMembers_le, forall_types_iff,
        hchunks.iff, hpoints.iff, (restores_table hlabels room).iff, hfunctions.iff,
        (restores_table hchecksums room).iff]
      simp only [List.forall_mem_cons]
      grind

private theorem decoder_restores {c : Code} (hkeyed : c.WellKeyed) (room : Nat) :
    decoder.Restores room c.toJson c (∀ t ∈ c.types, t.Labelled) :=
  restores_toJson hkeyed (Nat.lt_succ_self room)

private theorem wellSpelled_tableJson (table : List (Ref × String)) :
    (tableJson table).WellSpelled :=
  .object (List.forall_mem_map.mpr fun e _ => Json.closed_toString e.1.toInt)
    (List.forall_mem_map.mpr fun e _ => Json.wellSpelled_ofText e.2)

private theorem wellSpelled_toJson (c : Code) : c.toJson.WellSpelled := by
  induction c using induction with
  | mk id chunks entrypoints labels functions parameters checksums hfunctions =>
    rw [toJson, functionsJson_eq_map]
    refine Json.wellSpelled_ofMembers ?_
    simp only [List.forall_mem_cons]
    exact ⟨Json.wellSpelled_ofText id,
      .array (List.forall_mem_map.mpr fun c _ => c.wellSpelled_toJson),
      .array (List.forall_mem_map.mpr fun r _ => .number r.toInt), wellSpelled_tableJson labels,
      .array (List.forall_mem_map.mpr hfunctions), .number parameters.toInt,
      wellSpelled_tableJson checksums, nofun⟩

/-- A code is read back from its JSON text exactly if each type in it is read back from its label
and the text, which holds the code and the version, does not nest too deep. -/
theorem readJson_eq_ok_iff {c : Code} (hkeyed : c.WellKeyed) :
    readJson c.writeJson = .ok c ↔
      c.toJson.levels < Json.nestingLimit ∧ ∀ t ∈ c.types, t.Labelled := by
  have hspelled : (Json.ofMembers [("version", .ofNat formatVersion),
      ("code", c.toJson)]).WellSpelled := by
    refine Json.wellSpelled_ofMembers ?_
    simp only [List.forall_mem_cons]
    exact ⟨.number formatVersion, c.wellSpelled_toJson, nofun⟩
  have hversion : Decoder.natBelow UInt32.size 126 (.ofNat formatVersion) = some formatVersion :=
    Decoder.natBelow_ofNat (by decide) (by decide) 126
  have hread : Decoder.run versionedDecoder c.writeJson =
      (decoder 126 c.toJson).map fun c => (formatVersion, c) := by
    rw [Decoder.run, writeJson, Json.parse?_pretty hspelled, Option.bind_eq_bind, Option.bind_some,
      versionedDecoder, show Json.nestingLimit = 126 + 1 from rfl,
      Decoder.record_ofMembers ["version", "code"] rfl (by decide)]
    cases hcode : decoder 126 c.toJson <;>
      simp [Json.Fields.required, List.lookup_cons, hversion, hcode]
  have hknown : knowsVersion formatVersion = true := rfl
  rw [readJson, hread, show c.toJson.levels < Json.nestingLimit ↔ c.toJson.levels ≤ 126 from
    Nat.lt_succ_iff, ← (decoder_restores hkeyed 126).iff]
  cases decoder 126 c.toJson <;> simp [hknown]

end Code

end AssetQuery
