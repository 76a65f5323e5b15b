import AssetQuery.Proofs.Builtin.Typed
import AssetQuery.Proofs.Value.Mixed

/-!
# Values that keep to a type

Where there are no resources, more is known of the value of a chunk than that it is of the chunk's
type: what an array or a map of one type holds is of that type by itself, unless it holds the rows
of a projection. Functions keep values so. Where `values` does not list what is of several types, no
array of several types comes about.
-/

namespace AssetQuery

/-- The type of the rows of a projection. -/
def Ty.rows : Ty := .array (.map .string .any)

namespace Value

/-- Whether a value is of some type by itself, or nothing is known of its type. Where `clean` holds,
it holds no array of several types. -/
structure Own (clean : Prop) (v : Value) (t : Ty) : Prop where
  typ : t = .any ∨ v.inferType = t
  unmixed : clean → ¬v.Mixed .any

/-- Whether a value keeps to a type: it is nil or of the type by itself, it holds what is of the
type for that by itself, or it is the rows of a projection. Where `clean` holds, it holds no array
of several types, except that the rows may differ. -/
inductive Kept (clean : Prop) : Value → Ty → Prop
  | nil {t : Ty} : Kept clean .nil t
  | own {v : Value} {t : Ty} : v.Own clean t → Kept clean v t
  | array {items : List Value} {elem : Ty} : (∀ item ∈ items, item.Own clean elem) →
    (clean → elem = .any → items = []) → Kept clean (.array items) (.array elem)
  | map {entries : List (String × Value)} {value : Ty} : (∀ e ∈ entries, e.2.Own clean value) →
    Kept clean (.map entries) (.map .string value)
  | rows {rows : List Value} : (∀ row ∈ rows, ∃ entries, row = .map entries ∧
    ∀ e ∈ entries, e.2.Own clean .any) → Kept clean (.array rows) .rows

variable {clean : Prop} {v : Value} {t elem key value : Ty} {items : List Value}
  {entries : List (String × Value)}

section Own

private theorem Own.conforms (h : v.Own clean t) : v.Conforms t := by
  rcases h.typ with rfl | htyp
  · exact .any
  · exact htyp ▸ conforms_inferType v

private theorem Own.not_mixed (h : v.Own clean t) (hclean : clean) : ¬v.Mixed t := by
  rcases h.typ with rfl | htyp
  · exact h.unmixed hclean
  · rw [← htyp, mixed_inferType]
    exact h.unmixed hclean

theorem own_string {s : String} : (string s).Own clean .string := ⟨.inr rfl, fun _ => nofun⟩

theorem own_commonType {types : List Ty} (hmem : v.inferType ∈ types)
    (h : clean → ¬v.Mixed (commonType types)) : v.Own clean (commonType types) := by
  rcases commonType_eq_any_or types with hany | hall
  · rw [hany] at h ⊢
    exact ⟨.inl rfl, h⟩
  · have hown := hall _ hmem
    rw [← hown] at h ⊢
    exact ⟨.inr rfl, fun hclean => mt mixed_inferType.mpr (h hclean)⟩

theorem not_mixed_commonType {types : List Ty} (h : ¬v.Mixed .any) (hmem : v.inferType ∈ types) :
    ¬v.Mixed (commonType types) := by
  rcases commonType_eq_any_or types with hany | hall
  · rwa [hany]
  · rw [← hall _ hmem, mixed_inferType]
    exact h

private theorem Own.of_array (h : (Value.array items).Own clean (.array elem)) :
    (∀ item ∈ items, item.Own clean elem) ∧ (clean → elem = .any → items = []) := by
  have hsame := h.typ.resolve_left nofun
  rw [inferType] at hsame
  obtain rfl := Ty.array.inj hsame
  have htype : elemType? items .any = some (commonType (itemTypes items)) := rfl
  have hall := fun hclean => (not_mixed_array htype).mp (h.unmixed hclean)
  constructor
  · intro item hitem
    exact own_commonType (mem_itemTypes hitem) fun hclean => (hall hclean).2 item hitem
  · exact fun hclean => (hall hclean).1

private theorem Own.of_map (h : (Value.map entries).Own clean (.map key value)) :
    key = .string ∧ ∀ e ∈ entries, e.2.Own clean value := by
  have hsame := h.typ.resolve_left nofun
  rw [inferType] at hsame
  obtain ⟨rfl, rfl⟩ := Ty.map.inj hsame
  have htypes : entryTypes? entries .any = some (.string, commonType (entryTypes entries)) := rfl
  refine ⟨rfl, fun e he => ?_⟩
  apply own_commonType (mem_entryTypes he)
  intro hclean
  exact (not_mixed_map htypes).mp (h.unmixed hclean) e he

end Own

section Kept

theorem Kept.conforms (h : v.Kept clean t) : v.Conforms t := by
  cases h with
  | nil => exact .nil
  | own h => exact h.conforms
  | array hitems => exact .array fun item hitem => (hitems item hitem).conforms
  | map hentries => exact .map (fun _ _ => .string) fun e he => (hentries e he).conforms
  | rows hrows =>
    apply Conforms.array
    intro row hrow
    obtain ⟨entries, rfl, _⟩ := hrows row hrow
    exact .map (fun _ _ => .string) fun _ _ => .any

theorem Kept.not_mixed (h : v.Kept clean t) (hclean : clean) : ¬v.Mixed t := by
  cases h with
  | nil =>
    intro hmixed
    cases hmixed
  | own h => exact h.not_mixed hclean
  | @array items elem hitems hempty =>
    have htype : elemType? items (.array elem) = some elem := rfl
    exact (not_mixed_array htype).mpr
      ⟨hempty hclean, fun item hitem => (hitems item hitem).not_mixed hclean⟩
  | @map entries value hentries =>
    have htypes : entryTypes? entries (.map .string value) = some (.string, value) := rfl
    exact (not_mixed_map htypes).mpr fun e he => (hentries e he).not_mixed hclean
  | @rows rows hrows =>
    have htype : elemType? rows .rows = some (.map .string .any) := rfl
    refine (not_mixed_array htype).mpr ⟨fun hany => (by cases hany), fun row hrow => ?_⟩
    obtain ⟨entries, rfl, hentries⟩ := hrows row hrow
    have htypes : entryTypes? entries (.map .string .any) = some (.string, .any) := rfl
    exact (not_mixed_map htypes).mpr fun e he => (hentries e he).unmixed hclean

theorem Kept.unmixed (h : v.Kept clean t) (ht : clean → t ≠ .rows) : v.Own clean .any := by
  refine ⟨.inl rfl, fun hclean => ?_⟩
  cases h with
  | nil => exact nofun
  | own h => exact h.unmixed hclean
  | @array items elem hitems hempty =>
    have htype : elemType? items .any = some (commonType (itemTypes items)) := rfl
    refine (not_mixed_array htype).mpr ⟨fun hany => ?_, fun item hitem => ?_⟩
    · apply Classical.byContradiction
      intro hne
      have helem : elem ≠ .any := fun helem => hne (hempty hclean helem)
      have hcommon : commonType (itemTypes items) = elem :=
        commonType_itemTypes (fun item hitem => (hitems item hitem).typ.resolve_left helem) hne
      exact helem (hcommon.symm.trans hany)
    · exact not_mixed_commonType ((hitems item hitem).unmixed hclean) (mem_itemTypes hitem)
  | @map entries value hentries =>
    have htypes : entryTypes? entries .any =
      some (.string, commonType (entryTypes entries)) := rfl
    refine (not_mixed_map htypes).mpr fun e he => ?_
    exact not_mixed_commonType ((hentries e he).unmixed hclean) (mem_entryTypes he)
  | rows => exact absurd rfl (ht hclean)

/-- What a list that keeps to its type holds: items of the type of the list by themselves, or the
rows of a projection. -/
theorem Kept.items_cases (h : (Value.array items).Kept clean (.array elem)) :
    ((∀ item ∈ items, item.Own clean elem) ∧ (clean → elem = .any → items = [])) ∨
      Ty.array elem = .rows ∧ ∀ row ∈ items, ∃ entries, row = .map entries ∧
        ∀ e ∈ entries, e.2.Own clean .any := by
  cases h with
  | own h => exact .inl h.of_array
  | array hitems hempty => exact .inl ⟨hitems, hempty⟩
  | rows hrows => exact .inr ⟨rfl, hrows⟩

theorem Kept.item (h : (Value.array items).Kept clean (.array elem)) {item : Value}
    (hitem : item ∈ items) : item.Kept clean elem := by
  rcases h.items_cases with ⟨hitems, _⟩ | ⟨hrows, hall⟩
  · exact .own (hitems item hitem)
  · obtain rfl := Ty.array.inj hrows
    obtain ⟨entries, rfl, hentries⟩ := hall item hitem
    exact .map hentries

theorem Kept.filter (h : (Value.array items).Kept clean (.array elem)) {kept : List Value}
    (hsub : kept ⊆ items) : (Value.array kept).Kept clean (.array elem) := by
  rcases h.items_cases with ⟨hitems, hempty⟩ | ⟨hrows, hall⟩
  · refine .array (fun item hitem => hitems item (hsub hitem)) fun hclean hany => ?_
    rw [hempty hclean hany] at hsub
    exact List.subset_nil.mp hsub
  · rw [hrows]
    exact .rows fun row hrow => hall row (hsub hrow)

private theorem Kept.of_map (h : (Value.map entries).Kept clean (.map key value)) :
    key = .string ∧ ∀ e ∈ entries, e.2.Own clean value := by
  cases h with
  | own h => exact h.of_map
  | map hentries => exact ⟨rfl, hentries⟩

end Kept

theorem kept_of_conforms (h : v.Conforms t) (ht : t = .bool ∨ t = .int ∨ t = .string) :
    v.Kept clean t := by
  cases h with
  | nil => exact .nil
  | bool => exact .own ⟨.inr rfl, fun _ => nofun⟩
  | int => exact .own ⟨.inr rfl, fun _ => nofun⟩
  | string => exact .own own_string
  | _ => simp at ht

end Value

namespace Literal

open Value (itemTypes entryTypes commonType elemType? entryTypes? not_mixed_array not_mixed_map)

mutual

private theorem not_mixed_toValue {l : Literal} {p : Primitive} (h : l.toPrimitive = .ok p) :
    ¬l.toValue.Mixed .any := by
  cases l with
  | array ls =>
    obtain ⟨ps, hps, hsame, rfl⟩ := toPrimitive_array_eq_ok.mp h
    obtain ⟨htypes, _, _⟩ := itemPrimitives_written hps
    have hall := firstOther?_eq_none.mp hsame
    have htype : elemType? (itemValues ls) .any = some (commonType (itemTypes (itemValues ls))) :=
      rfl
    have hown : ∀ v ∈ itemValues ls,
        v.inferType = ((ps.head?).map fun p => p.typ).getD .any := by
      intro v hv
      have hv := Value.mem_itemTypes hv
      rw [← htypes] at hv
      obtain ⟨p, hp, htyp⟩ := List.mem_map.mp hv
      exact htyp.symm.trans (hall p hp)
    rw [toValue, not_mixed_array htype]
    refine ⟨fun hany => Classical.byContradiction fun hne => ?_, fun v hv => ?_⟩
    · obtain ⟨v, hv⟩ := List.exists_mem_of_ne_nil _ hne
      have hsame := (Value.commonType_itemTypes hown hne).symm.trans hany
      exact Value.inferType_ne_any v ((hown v hv).trans hsame)
    · exact Value.not_mixed_commonType (not_mixed_itemValues hps v hv) (Value.mem_itemTypes hv)
  | map ls =>
    obtain ⟨ps, hps, rfl⟩ := toPrimitive_map_eq_ok.mp h
    have htypes : entryTypes? (entryValues ls) .any =
      some (.string, commonType (entryTypes (entryValues ls))) := rfl
    rw [toValue, not_mixed_map htypes]
    intro e he
    exact Value.not_mixed_commonType (not_mixed_entryValues hps e he) (Value.mem_entryTypes he)
  | _ => exact nofun

theorem not_mixed_itemValues {ls : List Literal} {ps : List Primitive}
    (h : itemPrimitives ls = .ok ps) : ∀ v ∈ itemValues ls, ¬v.Mixed .any := by
  cases ls with
  | nil => exact nofun
  | cons l rest =>
    obtain ⟨p, ps, hp, hps, rfl⟩ := itemPrimitives_cons_eq_ok.mp h
    rw [itemValues]
    exact List.forall_mem_cons.mpr ⟨not_mixed_toValue hp, not_mixed_itemValues hps⟩

theorem not_mixed_entryValues {ls : List (String × Literal)} {ps : List (String × Primitive)}
    (h : entryPrimitives ls = .ok ps) : ∀ e ∈ entryValues ls, ¬e.2.Mixed .any := by
  rcases ls with _ | ⟨⟨key, l⟩, rest⟩
  · exact nofun
  · obtain ⟨p, ps, hp, hps, rfl⟩ := entryPrimitives_cons_eq_ok.mp h
    rw [entryValues]
    exact List.forall_mem_cons.mpr ⟨not_mixed_toValue hp, not_mixed_entryValues hps⟩

end

theorem own_toValue {clean : Prop} {l : Literal} {p : Primitive} (h : l.toPrimitive = .ok p) :
    l.toValue.Own clean l.toValue.inferType := ⟨.inr rfl, fun _ => not_mixed_toValue h⟩

end Literal

theorem Row.toValue_own {clean : Prop} {row : Row} (h : ∀ e ∈ row, e.2.value.Own clean .any) :
    ∃ entries, row.toValue = .map entries ∧ ∀ e ∈ entries, e.2.Own clean .any := by
  refine ⟨_, rfl, fun e he => ?_⟩
  obtain ⟨_, hvalue⟩ := List.of_mem_zip (Entries.mem_ofList he)
  obtain ⟨column, hcolumn, hsame⟩ := List.mem_map.mp hvalue
  exact hsame ▸ h column hcolumn

namespace Builtin

variable {clean : Prop} {name : String} {t : Ty} {receiver data : Data} {args : List Data}

private theorem itemAt_kept {items : List Value} (h : ∀ item ∈ items, item.Kept clean t)
    (index : Int) : (itemAt items index).Kept clean t := by
  rcases itemAt_eq_nil_or_mem items index with hnil | hmem
  · exact hnil ▸ .nil
  · exact h _ hmem

private theorem lookup_kept {entries : List (String × Value)} (h : ∀ e ∈ entries, e.2.Own clean t)
    (key : String) : ((entries.lookup key).getD .nil).Kept clean t := by
  cases hkey : entries.lookup key with
  | none => exact .nil
  | some v => exact .own (h (key, v) (Table.mem_of_lookup hkey))

section Tasks

variable {signature : Signature} {result : ResultRule}

private theorem ofArray_kept {elem : Ty} {items : List Value}
    (htask : (name, signature, result) ∈ tasks .arrayLike)
    (hblock : ¬(name = "where" ∨ name = projection)) (hreceiver : receiver.value = .array items)
    (hkept : (Value.array items).Kept clean (.array elem))
    (hdata : data.value.Conforms (result.apply (.array elem)))
    (h : ofArray name (result.apply (.array elem)) receiver args = .ok data) :
    data.value.Kept clean (result.apply (.array elem)) := by
  simp only [tasks, List.mem_cons, Prod.mk.injEq, List.not_mem_nil, or_false] at htask
  rcases htask with ⟨rfl, rfl, rfl⟩ | ⟨rfl, rfl, rfl⟩ | ⟨rfl, _⟩ | ⟨rfl, _⟩
  · obtain ⟨index, _, h⟩ := Except.bind_eq_ok.mp h
    rw [Builtin.items, hreceiver] at h
    obtain rfl := Except.ok.inj h
    exact itemAt_kept (fun item hitem => hkept.item hitem) index.toInt
  · exact Value.kept_of_conforms hdata (by simp [ResultRule.apply])
  · exact absurd (.inl rfl) hblock
  · exact absurd (.inr rfl) hblock

private theorem ofMap_kept {key value : Ty} {entries : List (String × Value)}
    (htask : (name, signature, result) ∈ tasks .mapLike)
    (hreceiver : receiver.value = .map entries)
    (hkept : (Value.map entries).Kept clean (.map key value))
    (hvalues : clean → name = "values" → result.apply (.map key value) ≠ .array .any)
    (hdata : data.value.Conforms (result.apply (.map key value)))
    (h : ofMap name (result.apply (.map key value)) receiver args = .ok data) :
    data.value.Kept clean (result.apply (.map key value)) := by
  have hmap (name : String) : Builtin.entries name receiver = .ok entries := by
    rw [Builtin.entries, hreceiver]
  obtain ⟨rfl, hown⟩ := hkept.of_map
  simp only [tasks, List.mem_cons, Prod.mk.injEq, List.not_mem_nil, or_false] at htask
  rcases htask with ⟨rfl, rfl, rfl⟩ | ⟨rfl, rfl, rfl⟩ | ⟨rfl, rfl, rfl⟩ | ⟨rfl, rfl, rfl⟩
  · obtain ⟨index, _, h⟩ := Except.bind_eq_ok.mp h
    rw [hmap] at h
    obtain rfl := Except.ok.inj h
    exact lookup_kept hown index
  · exact Value.kept_of_conforms hdata (by simp [ResultRule.apply])
  · simp only [ofMap, hmap] at h
    obtain rfl := Except.ok.inj h
    refine .array (List.forall_mem_map.mpr fun _ _ => Value.own_string) fun _ hany => ?_
    cases hany
  · simp only [ofMap, hmap] at h
    obtain rfl := Except.ok.inj h
    refine .array (List.forall_mem_map.mpr hown) fun hclean hany => ?_
    exact absurd (congrArg Ty.array hany) (hvalues hclean rfl)

/-- A function that runs no block gives what keeps to its type, on a receiver that does. -/
theorem direct_kept (hlookup : Builtins.standard.lookup? t name = some ⟨signature, .simple result⟩)
    (hliteral : t.isLiteral) (hblock : ¬RunsBlock t name)
    (hclass : receiver.typ.underlying = t.underlying) (hreceiver : receiver.value.Kept clean t)
    (hvalues : clean → name = "values" → result.apply t ≠ .array .any)
    (hdata : data.value.Conforms (result.apply t))
    (h : direct name (result.apply t) receiver args = .ok data) :
    data.value.Kept clean (result.apply t) := by
  rcases mem_tasks hlookup with ⟨_, rfl⟩ | htask
  · exact Value.kept_of_conforms hdata (.inl rfl)
  rw [direct] at h
  split at h
  · next op hop =>
    have hbool : result = .fixed .bool :=
      (Builtins.sound_standard hlookup).2.1 (.fixed .bool) (by simp [rule?, hop])
    exact Value.kept_of_conforms hdata (.inl (by rw [hbool, ResultRule.apply]))
  · by_cases hnil : receiver.value = .nil
    · rw [hnil] at h
      obtain rfl := Except.ok.inj h
      exact .nil
    · rw [isNil_eq_false hnil, if_neg Bool.false_ne_true, plain, hclass] at h
      cases t with
      | array elem =>
        obtain ⟨items, hitems, _⟩ := hreceiver.conforms.items.resolve_left hnil
        have hname : ¬(name = "where" ∨ name = projection) := fun hname => hblock ⟨rfl, hname⟩
        exact ofArray_kept htask hname hitems (hitems ▸ hreceiver) hdata h
      | map key value =>
        obtain ⟨entries, hentries, _⟩ := hreceiver.conforms.entries.resolve_left hnil
        exact ofMap_kept htask hentries (hentries ▸ hreceiver) hvalues hdata h
      | string =>
        simp only [Ty.underlying, tasks, List.mem_cons, Prod.mk.injEq, List.not_mem_nil,
          or_false] at htask
        apply Value.kept_of_conforms hdata
        rcases htask with ⟨_, _, rfl⟩ | ⟨_, _, rfl⟩ | ⟨_, _, rfl⟩ <;> simp [ResultRule.apply]
      | bool =>
        simp only [Ty.underlying, tasks, List.mem_cons, Prod.mk.injEq, List.not_mem_nil,
          or_false] at htask
        apply Value.kept_of_conforms hdata
        rcases htask with ⟨_, _, rfl⟩ | ⟨_, _, rfl⟩ <;> simp [ResultRule.apply]
      | arrayLike => cases hliteral
      | mapLike => cases hliteral
      | _ => cases h

end Tasks

end Builtin

end AssetQuery
