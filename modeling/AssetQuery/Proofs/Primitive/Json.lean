import AssetQuery.Primitive.Json
import AssetQuery.Proofs.Json.Decoder
import AssetQuery.Proofs.Json.Document
import AssetQuery.Proofs.Primitive.Wire
import AssetQuery.Proofs.Ty.Label

/-!
# Primitives read back from JSON

A primitive is given back by the document that it is written as, exactly if each of its types is
given back by its label.
-/

namespace AssetQuery

open Json (Decoder)

theorem Ty.restores_toJson (room : Nat) (t : Ty) :
    Ty.decoder.Restores room t.toJson t t.Labelled := by
  have htext : Decoder.text room t.toJson = some t.label := Json.unspell?_spell t.label
  have hlevels : t.toJson.levels = 0 := rfl
  rw [Decoder.Restores, hlevels, Labelled]
  cases hlabel : ofLabel t.label <;> simp [decoder, htext, hlabel]

private theorem Bytes.restores_toJson (room : Nat) (bytes : Bytes) :
    Bytes.decoder.Restores room bytes.toJson bytes True := by
  cases room with
  | zero => simp [Decoder.Restores, decoder, Decoder.list, toJson, Json.levels]
  | succ r =>
    have hlevels : bytes.toJson.levels ≤ r + 1 :=
      Json.levels_array_le.mpr (List.forall_mem_map.mpr fun b _ => Nat.zero_le r)
    have hread : bytes.toJson = .array ((bytes.map UInt8.toNat).map Json.ofNat) := by
      rw [toJson, List.map_map]
      rfl
    have hlist : (Decoder.list (Decoder.natBelow 256)).Restores (r + 1) bytes.toJson
        (bytes.map UInt8.toNat) (∀ n ∈ bytes.map UInt8.toNat, True) := by
      rw [hread]
      refine Decoder.restores_list _ (fun _ => True) fun r _ n hn => ?_
      obtain ⟨b, _, rfl⟩ := List.mem_map.mp hn
      exact Decoder.restores_of_eq_some (Decoder.natBelow_ofNat (by decide) b.toNat_lt r) rfl
    have hbytes : (bytes.map UInt8.toNat).map UInt8.ofNat = bytes := by
      simp [Function.comp_def]
    have hgiven := hlist.iff.mpr ⟨hlevels, fun _ _ => trivial⟩
    rw [Decoder.Restores, decoder, hgiven, Option.map_some, hbytes]
    simp [hlevels]

namespace Primitive

theorem toJson_ne_null (p : Primitive) : p.toJson ≠ .null := by
  cases p
  rw [toJson]
  exact nofun

theorem itemsJson_eq_map (items : List Primitive) : itemsJson items = items.map toJson := by
  induction items with
  | nil => rfl
  | cons p rest ih => rw [itemsJson, ih, List.map_cons]

theorem entriesJson_eq_map (entries : List (String × Primitive)) :
    entriesJson entries = entries.map fun e => (Json.spell e.1, e.2.toJson) := by
  induction entries with
  | nil => rfl
  | cons e rest ih => rw [entriesJson, ih, List.map_cons]

theorem wellSpelled_toJson (p : Primitive) : p.toJson.WellSpelled := by
  induction p using induction with
  | mk typ bytes items entries hitems hentries =>
    have hbytes : bytes.toJson.WellSpelled :=
      .array (List.forall_mem_map.mpr fun b _ => .number b.toNat)
    rw [toJson, itemsJson_eq_map, entriesJson_eq_map]
    refine Json.wellSpelled_ofMembers ?_
    simp only [List.forall_mem_cons]
    refine ⟨Json.wellSpelled_ofText _, hbytes, .array (List.forall_mem_map.mpr hitems), ?_, nofun⟩
    exact .object (List.forall_mem_map.mpr fun e _ => Json.closed_spell e.1)
      (List.forall_mem_map.mpr hentries)

private theorem restores_toJson {p : Primitive} (hsorted : p.Sorted) {levels room : Nat}
    (hroom : room < levels) :
    (decoderLevels levels).Restores room p.toJson p (∀ t ∈ p.types, t.Labelled) := by
  induction hsorted generalizing levels room with
  | @mk typ bytes items entries _ _ hordered ihitems ihentries =>
    obtain ⟨levels, rfl⟩ : ∃ k, levels = k + 1 := ⟨levels - 1, by omega⟩
    cases room with
    | zero =>
      rw [toJson]
      refine Decoder.restores_zero ?_
      rw [decoderLevels]
      dsimp only
      rw [Decoder.record_zero]
      rfl
    | succ room =>
      have hitems : (Decoder.list (decoderLevels levels)).Restores room (.array (itemsJson items))
          items (∀ p ∈ items, ∀ t ∈ p.types, t.Labelled) := by
        rw [itemsJson_eq_map]
        refine Decoder.restores_list toJson _ fun r hr p hp => ?_
        exact ihitems p hp (by omega)
      have hentries : (Decoder.entries (decoderLevels levels)).Restores room
          (.object (entriesJson entries)) entries (∀ e ∈ entries, ∀ t ∈ e.2.types, t.Labelled) := by
        rw [entriesJson_eq_map]
        refine Decoder.restores_entries toJson (fun p => ∀ t ∈ p.types, t.Labelled) hordered
          fun r hr e he => ?_
        exact ihentries e he (by omega)
      have hread : decoderLevels (levels + 1) (room + 1) (toJson ⟨typ, bytes, items, entries⟩) =
          some ⟨typ, bytes, items, entries⟩ ↔
          Ty.decoder room typ.toJson = some typ ∧ Bytes.decoder room bytes.toJson = some bytes ∧
          Decoder.list (decoderLevels levels) room (.array (itemsJson items)) = some items ∧
          Decoder.entries (decoderLevels levels) room (.object (entriesJson entries)) =
            some entries := by
        rw [decoderLevels, toJson]
        dsimp only
        rw [Decoder.record_ofMembers ["type", "value", "array", "map"] rfl (by decide)]
        simp [Json.Fields.required, Json.Fields.orElse, Decoder.entries, Option.bind_eq_some_iff,
          List.lookup_cons]
      rw [Decoder.Restores, hread, toJson, Json.levels_ofMembers_le, forall_types_iff,
        (Ty.restores_toJson room typ).iff, (Bytes.restores_toJson room bytes).iff, hitems.iff,
        hentries.iff]
      simp only [List.forall_mem_cons]
      grind

theorem decoder_restores {p : Primitive} (hsorted : p.Sorted) (room : Nat) :
    decoder.Restores room p.toJson p (∀ t ∈ p.types, t.Labelled) :=
  restores_toJson hsorted (Nat.lt_succ_self room)

end Primitive

end AssetQuery
