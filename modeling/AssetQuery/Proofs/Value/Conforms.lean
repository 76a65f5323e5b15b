import AssetQuery.Proofs.Data.RoundTrip
import AssetQuery.Proofs.Ty.Compatible

/-!
# Values of a type

Which values a type admits. Nil is admitted everywhere, `any` admits everything, and arrays and maps
are admitted element by element. Every value is of the type that it tells by itself.
-/

namespace AssetQuery

namespace Value

/-- Whether a value is of a type. -/
inductive Conforms : Value → Ty → Prop
  | nil {t : Ty} : Conforms .nil t
  | any {v : Value} : Conforms v .any
  | bool {b : Bool} : Conforms (.bool b) .bool
  | int {n : Int64} : Conforms (.int n) .int
  | score {n : Int64} : Conforms (.int n) .score
  | float {x : Double} : Conforms (.float x) .float
  | string {s : String} : Conforms (.string s) .string
  | time {t : Instant} : Conforms (.time t) .time
  | array {items : List Value} {elem : Ty} : (∀ v ∈ items, Conforms v elem) →
    Conforms (.array items) (.array elem)
  | arrayLike {items : List Value} : Conforms (.array items) .arrayLike
  | map {entries : List (String × Value)} {key value : Ty} :
    (∀ e ∈ entries, Conforms (.string e.1) key) → (∀ e ∈ entries, Conforms e.2 value) →
    Conforms (.map entries) (.map key value)
  | mapLike {entries : List (String × Value)} : Conforms (.map entries) .mapLike
  | resource {name id : String} : Conforms (.resource name id) (.resource name)
  | resourceLike {name id : String} : Conforms (.resource name id) .resourceLike
  | ref {r : Ref} : Conforms (.ref r) .ref
  | function {r : Ref} : Conforms (.function r) .functionLike

theorem mem_itemTypes {v : Value} {items : List Value} (h : v ∈ items) :
    v.inferType ∈ itemTypes items := by
  induction items with
  | nil => cases h
  | cons first rest ih =>
    rw [itemTypes]
    rcases List.mem_cons.mp h with rfl | h
    · exact List.mem_cons_self
    · exact List.mem_cons_of_mem _ (ih h)

theorem mem_entryTypes {e : String × Value} {entries : List (String × Value)} (h : e ∈ entries) :
    e.2.inferType ∈ entryTypes entries := by
  induction entries with
  | nil => cases h
  | cons first rest ih =>
    rw [entryTypes]
    rcases List.mem_cons.mp h with rfl | h
    · exact List.mem_cons_self
    · exact List.mem_cons_of_mem _ (ih h)

theorem Conforms.commonType {v : Value} (h : v.Conforms v.inferType) {types : List Ty}
    (hmem : v.inferType ∈ types) : v.Conforms (commonType types) := by
  rcases commonType_eq_any_or types with hany | hall
  · exact hany ▸ .any
  · exact hall _ hmem ▸ h

mutual

theorem conforms_inferType (v : Value) : v.Conforms v.inferType := by
  cases v with
  | array items =>
    rw [inferType]
    exact .array fun v hv => (conforms_items items v hv).commonType (mem_itemTypes hv)
  | map entries =>
    rw [inferType]
    exact .map (fun _ _ => .string) fun e he =>
      (conforms_entries entries e he).commonType (mem_entryTypes he)
  | _ => exact (by rw [inferType]; constructor)

theorem conforms_items (items : List Value) : ∀ v ∈ items, v.Conforms v.inferType := by
  cases items with
  | nil => exact nofun
  | cons first rest =>
    exact List.forall_mem_cons.mpr ⟨conforms_inferType first, conforms_items rest⟩

theorem conforms_entries (entries : List (String × Value)) :
    ∀ e ∈ entries, e.2.Conforms e.2.inferType := by
  rcases entries with _ | ⟨⟨key, first⟩, rest⟩
  · exact nofun
  · exact List.forall_mem_cons.mpr ⟨conforms_inferType first, conforms_entries rest⟩

end

theorem Conforms.items {v : Value} {elem : Ty} (h : v.Conforms (.array elem)) :
    v = .nil ∨ ∃ items, v = .array items ∧ ∀ item ∈ items, item.Conforms elem := by
  cases h with
  | nil => exact .inl rfl
  | array h => exact .inr ⟨_, rfl, h⟩

theorem Conforms.entries {v : Value} {key value : Ty} (h : v.Conforms (.map key value)) :
    v = .nil ∨ ∃ entries, v = .map entries ∧ (∀ e ∈ entries, (Value.string e.1).Conforms key) ∧
      ∀ e ∈ entries, e.2.Conforms value := by
  cases h with
  | nil => exact .inl rfl
  | map hkeys hvalues => exact .inr ⟨_, rfl, hkeys, hvalues⟩

/-- What is of a type that is dispatched as a list is missing or holds values of the type that is
known of them. -/
theorem Conforms.items_of_class {v : Value} {t : Ty} (h : v.Conforms t)
    (hclass : t.underlying = .arrayLike) :
    v = .nil ∨ ∃ items, v = .array items ∧ ∀ item ∈ items, item.Conforms (t.child?.getD .any) := by
  cases t with
  | array elem => exact h.items
  | arrayLike =>
    cases h with
    | nil => exact .inl rfl
    | arrayLike => exact .inr ⟨_, rfl, fun _ _ => .any⟩
  | _ => cases hclass

theorem Conforms.entries_of_class {v : Value} {t : Ty} (h : v.Conforms t)
    (hclass : t.underlying = .mapLike) :
    v = .nil ∨ ∃ entries, v = .map entries ∧
      (∀ e ∈ entries, (Value.string e.1).Conforms (t.key?.getD .string)) ∧
      ∀ e ∈ entries, e.2.Conforms (t.child?.getD .any) := by
  cases t with
  | map key value => exact h.entries
  | mapLike =>
    cases h with
    | nil => exact .inl rfl
    | mapLike => exact .inr ⟨_, rfl, fun _ _ => .string, fun _ _ => .any⟩
  | _ => cases hclass

theorem Conforms.eq_string {v : Value} (h : v.Conforms .string) :
    v = .nil ∨ ∃ s, v = .string s := by
  cases h with
  | nil => exact .inl rfl
  | string => exact .inr ⟨_, rfl⟩

theorem Conforms.eq_int {v : Value} (h : v.Conforms .int) : v = .nil ∨ ∃ n, v = .int n := by
  cases h with
  | nil => exact .inl rfl
  | int => exact .inr ⟨_, rfl⟩

theorem Conforms.eq_bool {v : Value} (h : v.Conforms .bool) : v = .nil ∨ ∃ b, v = .bool b := by
  cases h with
  | nil => exact .inl rfl
  | bool => exact .inr ⟨_, rfl⟩

theorem Conforms.of_fits {v : Value} {t expected : Ty} (h : v.Conforms t)
    (hfits : t.Fits expected) : v.Conforms expected := by
  induction hfits generalizing v with
  | any => exact .any
  | refl => exact h
  | arrayLike =>
    cases h with
    | nil => exact .nil
    | array => exact .arrayLike
  | mapLike =>
    cases h with
    | nil => exact .nil
    | map => exact .mapLike
  | resourceLike =>
    cases h with
    | nil => exact .nil
    | resource => exact .resourceLike
  | array _ ih =>
    cases h with
    | nil => exact .nil
    | array hitems => exact .array fun v hv => ih (hitems v hv)
  | map _ _ ihkey ihvalue =>
    cases h with
    | nil => exact .nil
    | map hkeys hvalues =>
      exact .map (fun e he => ihkey (hkeys e he)) fun e he => ihvalue (hvalues e he)

end Value

end AssetQuery
