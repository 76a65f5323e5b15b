import AssetQuery.Proofs.Compile.Literal
import AssetQuery.Proofs.Value.Conforms

/-!
# Arrays of several types

The only arrays that cannot be written are those that hold something but tell no one type for what
they hold: arrays of `any`, and under `any` arrays of items of several types. Every other value of a
type that stands for no whole class can be written.
-/

namespace AssetQuery

/-- Whether the type, and that of what is held in it, is not a whole class of types. -/
def Ty.isSpecific : Ty → Bool
  | arrayLike | mapLike | resourceLike => false
  | array elem => elem.isSpecific
  | map _ value => value.isSpecific
  | _ => true

theorem Ty.isSpecific_of_isLiteral {t : Ty} (h : t.isLiteral) : t.isSpecific := by
  induction t with
  | array elem ih =>
    rw [isLiteral] at h
    rw [isSpecific]
    exact ih h
  | map key value _ ih =>
    rw [isLiteral, Bool.and_eq_true] at h
    rw [isSpecific]
    exact ih h.2
  | arrayLike => cases h
  | mapLike => cases h
  | resourceLike => cases h
  | _ => rfl

/-- Whether an array is what cannot be written. -/
def SerialError.isOfArray : SerialError → Bool
  | anyArray _ | elementMismatch _ _ _ => true
  | _ => false

namespace Value

/-- Whether a value of a type holds, at some depth, an array that is not empty and for whose items
no type is known. -/
inductive Mixed : Value → Ty → Prop
  | here {items : List Value} {t : Ty} : elemType? items t = some .any → items ≠ [] →
    Mixed (.array items) t
  | item {items : List Value} {t elem : Ty} {v : Value} : elemType? items t = some elem →
    v ∈ items → Mixed v elem → Mixed (.array items) t
  | entry {entries : List (String × Value)} {t key value : Ty} {e : String × Value} :
    entryTypes? entries t = some (key, value) → e ∈ entries → Mixed e.2 value →
    Mixed (.map entries) t

section Types

variable {v : Value} {t elem key value : Ty} {items : List Value}
  {entries : List (String × Value)}

theorem inferType_ne_any (v : Value) : v.inferType ≠ .any := by
  cases v <;> simp [inferType]

theorem isSpecific_commonType {types : List Ty} (h : ∀ t ∈ types, t.isSpecific) :
    (commonType types).isSpecific := by
  cases types with
  | nil => rfl
  | cons t rest =>
    rw [commonType]
    split
    · exact h t List.mem_cons_self
    · rfl

private theorem itemTypes_eq_map (items : List Value) : itemTypes items = items.map inferType := by
  induction items with
  | nil => rfl
  | cons v rest ih => rw [itemTypes, ih, List.map_cons]

theorem commonType_itemTypes (h : ∀ v ∈ items, v.inferType = elem) (hne : items ≠ []) :
    commonType (itemTypes items) = elem := by
  apply Literal.commonType_of_forall
  · rw [itemTypes_eq_map]
    exact List.forall_mem_map.mpr h
  · cases items with
    | nil => exact absurd rfl hne
    | cons v rest => exact (h v List.mem_cons_self).symm

private theorem elemType?_inferType (items : List Value) :
    elemType? items (array items).inferType = elemType? items .any := by
  rw [inferType, elemType?, elemType?]

private theorem entryTypes?_inferType (entries : List (String × Value)) :
    entryTypes? entries (map entries).inferType = entryTypes? entries .any := by
  rw [inferType, entryTypes?, entryTypes?]

end Types

section Mixed

variable {v : Value} {t elem key value : Ty} {items : List Value}
  {entries : List (String × Value)}

theorem not_mixed_array (ht : elemType? items t = some elem) :
    ¬(array items).Mixed t ↔ (elem = .any → items = []) ∧ ∀ v ∈ items, ¬v.Mixed elem := by
  constructor
  · intro h
    refine ⟨?_, fun v hv hmixed => h (.item ht hv hmixed)⟩
    rintro rfl
    exact Classical.byContradiction fun hne => h (.here ht hne)
  · rintro ⟨hany, hitems⟩ hmixed
    cases hmixed with
    | here htype hne => exact hne (hany (Option.some.inj (ht.symm.trans htype)))
    | item htype hv hmixed =>
      obtain rfl := Option.some.inj (ht.symm.trans htype)
      exact hitems _ hv hmixed

theorem not_mixed_map (ht : entryTypes? entries t = some (key, value)) :
    ¬(map entries).Mixed t ↔ ∀ e ∈ entries, ¬e.2.Mixed value := by
  constructor
  · intro h e he hmixed
    exact h (.entry ht he hmixed)
  · intro hentries hmixed
    cases hmixed with
    | entry htype he hmixed =>
      obtain ⟨_, rfl⟩ := Prod.mk.inj (Option.some.inj (ht.symm.trans htype))
      exact hentries _ he hmixed

theorem mixed_inferType : v.Mixed v.inferType ↔ v.Mixed .any := by
  constructor
  · intro h
    cases h with
    | here htype hne => exact .here (elemType?_inferType _ ▸ htype) hne
    | item htype hv hmixed => exact .item (elemType?_inferType _ ▸ htype) hv hmixed
    | entry htype he hmixed => exact .entry (entryTypes?_inferType _ ▸ htype) he hmixed
  · intro h
    cases h with
    | here htype hne => exact .here ((elemType?_inferType _).trans htype) hne
    | item htype hv hmixed => exact .item ((elemType?_inferType _).trans htype) hv hmixed
    | entry htype he hmixed => exact .entry ((entryTypes?_inferType _).trans htype) he hmixed

end Mixed

section Writing

mutual

theorem isSpecific_inferType (v : Value) : v.inferType.isSpecific := by
  cases v with
  | array items =>
    rw [inferType, Ty.isSpecific]
    exact isSpecific_commonType (isSpecific_itemTypes items)
  | map entries =>
    rw [inferType, Ty.isSpecific]
    exact isSpecific_commonType (isSpecific_entryTypes entries)
  | _ => rfl

private theorem isSpecific_itemTypes (items : List Value) :
    ∀ t ∈ itemTypes items, t.isSpecific := by
  cases items with
  | nil => exact nofun
  | cons v rest =>
    rw [itemTypes]
    exact List.forall_mem_cons.mpr ⟨isSpecific_inferType v, isSpecific_itemTypes rest⟩

private theorem isSpecific_entryTypes (entries : List (String × Value)) :
    ∀ t ∈ entryTypes entries, t.isSpecific := by
  rcases entries with _ | ⟨⟨key, v⟩, rest⟩
  · exact nofun
  · rw [entryTypes]
    exact List.forall_mem_cons.mpr ⟨isSpecific_inferType v, isSpecific_entryTypes rest⟩

end

private theorem itemPrimitives_succeeds {items : List Value} {elem : Ty} (index : Nat) :
    (∃ ps, itemPrimitives items elem index = .ok ps) ↔
      ∀ v ∈ items, ∃ p, v.toPrimitive elem = .ok p := by
  induction items generalizing index with
  | nil => exact ⟨fun _ => List.forall_mem_nil _, fun _ => ⟨[], rfl⟩⟩
  | cons v rest ih =>
    rw [itemPrimitives, List.forall_mem_cons, ← ih (index + 1)]
    cases hv : v.toPrimitive elem with
    | error e => simp
    | ok p =>
      simp only [Except.bind_pure_succeeds_iff]
      exact ⟨fun h => ⟨⟨p, rfl⟩, h⟩, fun h => h.2⟩

private theorem entryPrimitives_succeeds {entries : List (String × Value)} {value : Ty} :
    (∃ ps, entryPrimitives entries value = .ok ps) ↔
      ∀ e ∈ entries, ∃ p, e.2.toPrimitive value = .ok p := by
  induction entries with
  | nil => exact ⟨fun _ => List.forall_mem_nil _, fun _ => ⟨[], rfl⟩⟩
  | cons e rest ih =>
    obtain ⟨key, v⟩ := e
    rw [entryPrimitives, List.forall_mem_cons, ← ih]
    cases hv : v.toPrimitive value with
    | error e => simp [bind, Except.bind]
    | ok p =>
      show (∃ ps, (entryPrimitives rest value >>= fun ps => pure ((key, p) :: ps)) = .ok ps) ↔ _
      rw [Except.bind_pure_succeeds_iff]
      exact ⟨fun h => ⟨⟨p, rfl⟩, h⟩, fun h => h.2⟩

theorem toPrimitive_array_succeeds {items : List Value} {t elem : Ty}
    (ht : elemType? items t = some elem) :
    (∃ p, (array items).toPrimitive t = .ok p) ↔
      (elem = .any → items = []) ∧ ∀ v ∈ items, ∃ p, v.toPrimitive elem = .ok p := by
  rw [toPrimitive.eq_def]
  simp only [ht]
  by_cases hmixed : elem = .any ∧ items ≠ []
  · have hrefused : (decide (elem = .any) && !items.isEmpty) = true := by simpa using hmixed
    rw [if_pos hrefused]
    refine ⟨fun h => ?_, fun h => absurd (h.1 hmixed.1) hmixed.2⟩
    obtain ⟨p, hp⟩ := h
    cases hp
  · have hwritten : ¬(decide (elem = .any) && !items.isEmpty) = true := by simpa using hmixed
    rw [if_neg hwritten, Except.bind_pure_succeeds_iff, itemPrimitives_succeeds]
    exact (and_iff_right fun hany => Classical.byContradiction fun hne => hmixed ⟨hany, hne⟩).symm

theorem toPrimitive_map_succeeds {entries : List (String × Value)} {t key value : Ty}
    (ht : entryTypes? entries t = some (key, value)) :
    (∃ p, (map entries).toPrimitive t = .ok p) ↔
      ∀ e ∈ entries, ∃ p, e.2.toPrimitive value = .ok p := by
  rw [toPrimitive.eq_def]
  simp only [ht]
  rw [Except.bind_pure_succeeds_iff, entryPrimitives_succeeds]

theorem Conforms.exists_elemType {items : List Value} {t : Ty}
    (h : (Value.array items).Conforms t) (ht : t.isSpecific) :
    ∃ elem, elemType? items t = some elem ∧ elem.isSpecific ∧ ∀ v ∈ items, v.Conforms elem := by
  cases h with
  | any =>
    refine ⟨_, rfl, isSpecific_commonType (isSpecific_itemTypes items), fun v hv => ?_⟩
    exact (conforms_inferType v).commonType (mem_itemTypes hv)
  | array hitems =>
    rw [Ty.isSpecific] at ht
    exact ⟨_, rfl, ht, hitems⟩
  | arrayLike => cases ht

theorem Conforms.exists_entryTypes {entries : List (String × Value)} {t : Ty}
    (h : (Value.map entries).Conforms t) (ht : t.isSpecific) :
    ∃ key value, entryTypes? entries t = some (key, value) ∧ value.isSpecific ∧
      ∀ e ∈ entries, e.2.Conforms value := by
  cases h with
  | any =>
    refine ⟨_, _, rfl, isSpecific_commonType (isSpecific_entryTypes entries), fun e he => ?_⟩
    exact (conforms_inferType e.2).commonType (mem_entryTypes he)
  | map _ hvalues =>
    rw [Ty.isSpecific] at ht
    exact ⟨_, _, rfl, ht, hvalues⟩
  | mapLike => cases ht

mutual

theorem toPrimitive_succeeds_iff {v : Value} {t : Ty} (hv : v.Conforms t) (ht : t.isSpecific) :
    (∃ p, v.toPrimitive t = .ok p) ↔ ¬v.Mixed t := by
  cases v with
  | array items =>
    obtain ⟨elem, htype, helem, hitems⟩ := hv.exists_elemType ht
    rw [toPrimitive_array_succeeds htype, not_mixed_array htype]
    exact and_congr_right' (itemPrimitives_succeed_iff items hitems helem)
  | map entries =>
    obtain ⟨key, value, htypes, hvalue, hentries⟩ := hv.exists_entryTypes ht
    rw [toPrimitive_map_succeeds htypes, not_mixed_map htypes]
    exact entryPrimitives_succeed_iff entries hentries hvalue
  | resource name id =>
    refine iff_of_true ?_ nofun
    cases hv with
    | resourceLike => cases ht
    | any => exact ⟨_, rfl⟩
    | resource => exact ⟨_, rfl⟩
  | _ =>
    refine iff_of_true ?_ nofun
    cases hv <;> exact ⟨_, rfl⟩

theorem itemPrimitives_succeed_iff (items : List Value) {elem : Ty}
    (hitems : ∀ v ∈ items, v.Conforms elem) (helem : elem.isSpecific) :
    (∀ v ∈ items, ∃ p, v.toPrimitive elem = .ok p) ↔ ∀ v ∈ items, ¬v.Mixed elem := by
  cases items with
  | nil => exact iff_of_true (List.forall_mem_nil _) (List.forall_mem_nil _)
  | cons v rest =>
    obtain ⟨hv, hrest⟩ := List.forall_mem_cons.mp hitems
    rw [List.forall_mem_cons, List.forall_mem_cons, toPrimitive_succeeds_iff hv helem,
      itemPrimitives_succeed_iff rest hrest helem]

theorem entryPrimitives_succeed_iff (entries : List (String × Value)) {value : Ty}
    (hentries : ∀ e ∈ entries, e.2.Conforms value) (hvalue : value.isSpecific) :
    (∀ e ∈ entries, ∃ p, e.2.toPrimitive value = .ok p) ↔ ∀ e ∈ entries, ¬e.2.Mixed value := by
  rcases entries with _ | ⟨⟨key, v⟩, rest⟩
  · exact iff_of_true (List.forall_mem_nil _) (List.forall_mem_nil _)
  · obtain ⟨hv, hrest⟩ := List.forall_mem_cons.mp hentries
    rw [List.forall_mem_cons, List.forall_mem_cons, toPrimitive_succeeds_iff hv hvalue,
      entryPrimitives_succeed_iff rest hrest hvalue]

end

private theorem itemPrimitives_error {items : List Value} {elem : Ty} {index : Nat}
    {fault : SerialError}
    (h : itemPrimitives items elem index = .error fault) : fault.isOfArray := by
  induction items generalizing index with
  | nil => cases h
  | cons v rest ih =>
    rw [itemPrimitives] at h
    split at h
    · cases h
      rfl
    · exact ih (Except.eq_error_of_map h)

mutual

theorem toPrimitive_error {v : Value} {t : Ty} {fault : SerialError} (hv : v.Conforms t)
    (ht : t.isSpecific) (h : v.toPrimitive t = .error fault) : fault.isOfArray := by
  cases v with
  | array items =>
    obtain ⟨elem, htype, _⟩ := hv.exists_elemType ht
    rw [toPrimitive.eq_def] at h
    simp only [htype] at h
    split at h
    · cases h
      rfl
    · exact itemPrimitives_error (Except.eq_error_of_map h)
  | map entries =>
    obtain ⟨key, value, htypes, hvalue, hentries⟩ := hv.exists_entryTypes ht
    rw [toPrimitive.eq_def] at h
    simp only [htypes] at h
    exact entryPrimitives_error entries hentries hvalue (Except.eq_error_of_map h)
  | resource name id =>
    cases hv with
    | resourceLike => cases ht
    | any => cases h
    | resource => cases h
  | _ => cases hv <;> cases h

theorem entryPrimitives_error (entries : List (String × Value)) {value : Ty} {fault : SerialError}
    (hentries : ∀ e ∈ entries, e.2.Conforms value) (hvalue : value.isSpecific)
    (h : entryPrimitives entries value = .error fault) : fault.isOfArray := by
  rcases entries with _ | ⟨⟨key, v⟩, rest⟩
  · cases h
  · obtain ⟨hv, hrest⟩ := List.forall_mem_cons.mp hentries
    rw [entryPrimitives] at h
    cases hp : v.toPrimitive value with
    | error e =>
      rw [hp] at h
      cases h
      exact toPrimitive_error hv hvalue hp
    | ok p =>
      rw [hp] at h
      exact entryPrimitives_error rest hrest hvalue (Except.eq_error_of_map h)

end

end Writing

end Value

end AssetQuery
