import AssetQuery.Proofs.Value.Mixed

/-!
# What can be written

Which values are written under which types. Under a resource type every resource is written, of
whatever name: what is written is what matches the type when any resource passes for any other. What
matches the type with each resource under its own name is what is written with all its resources
named as declared.
-/

namespace AssetQuery

namespace Value

/-- Whether a value matches a type, where `passes` tells whether a resource of one name passes for
one of another. Under `any`, and in a map of `any`, a value is taken by the type that it tells; the
items of an array have one type other than `any`. -/
inductive Matches (passes : String → String → Prop) : Value → Ty → Prop
  | nil {t : Ty} : Matches passes .nil t
  | bool {b : Bool} : Matches passes (.bool b) .bool
  | int {n : Int64} : Matches passes (.int n) .int
  | score {n : Int64} : Matches passes (.int n) .score
  | float {x : Double} : Matches passes (.float x) .float
  | string {s : String} : Matches passes (.string s) .string
  | time {t : Instant} : Matches passes (.time t) .time
  | ref {r : Ref} : Matches passes (.ref r) .ref
  | function {r : Ref} : Matches passes (.function r) .functionLike
  | resource {name declared id : String} : passes name declared →
    Matches passes (.resource name id) (.resource declared)
  | emptyArray {elem : Ty} : Matches passes (.array []) (.array elem)
  | array {items : List Value} {elem : Ty} : elem ≠ .any → (∀ v ∈ items, Matches passes v elem) →
    Matches passes (.array items) (.array elem)
  | mapOfAny {entries : List (String × Value)} {key : Ty} :
    (∀ e ∈ entries, Matches passes e.2 e.2.inferType) →
    Matches passes (.map entries) (.map key .any)
  | map {entries : List (String × Value)} {key value : Ty} : value ≠ .any →
    (∀ e ∈ entries, Matches passes e.2 value) → Matches passes (.map entries) (.map key value)
  | any {v : Value} : Matches passes v v.inferType → Matches passes v .any

section Matching

variable {passes : String → String → Prop} {v : Value} {t elem key value : Ty}
  {items : List Value} {entries : List (String × Value)}

private theorem matches_array (hany : elem = .any → items = [])
    (hitems : ∀ v ∈ items, v.Matches passes elem) :
    (Value.array items).Matches passes (.array elem) := by
  by_cases helem : elem = .any
  · rw [hany helem]
    exact .emptyArray
  · exact .array helem hitems

private theorem Matches.of_any (h : v.Matches passes .any) : v.Matches passes v.inferType := by
  cases h with
  | nil => exact .nil
  | any h => exact h

private theorem matches_map (hentries : ∀ e ∈ entries, e.2.Matches passes value) :
    (Value.map entries).Matches passes (.map key value) := by
  by_cases hvalue : value = .any
  · subst hvalue
    exact .mapOfAny fun e he => (hentries e he).of_any
  · exact .map hvalue hentries

private theorem Matches.written (h : v.Matches passes t) : ∃ p, v.toPrimitive t = .ok p := by
  induction h with
  | emptyArray => exact (toPrimitive_array_succeeds rfl).mpr ⟨fun _ => rfl, List.forall_mem_nil _⟩
  | array helem _ ih =>
    exact (toPrimitive_array_succeeds rfl).mpr ⟨fun hany => absurd hany helem, ih⟩
  | mapOfAny _ ih =>
    apply (toPrimitive_map_succeeds rfl).mpr
    intro e he
    rw [← toPrimitive_inferType]
    exact ih e he
  | map _ _ ih => exact (toPrimitive_map_succeeds rfl).mpr ih
  | any _ ih =>
    rw [← toPrimitive_inferType]
    exact ih
  | _ => exact ⟨_, rfl⟩

end Matching

section Writing

mutual

private theorem matches_of_written (v : Value) {t : Ty} {p : Primitive}
    (h : v.toPrimitive t = .ok p) : v.Matches (fun _ _ => True) t := by
  cases v with
  | nil => exact .nil
  | bool b =>
    cases t with
    | bool => exact .bool
    | any => exact .any .bool
    | _ => cases h
  | int n =>
    cases t with
    | int => exact .int
    | score => exact .score
    | any => exact .any .int
    | _ => cases h
  | float x =>
    cases t with
    | float => exact .float
    | any => exact .any .float
    | _ => cases h
  | string s =>
    cases t with
    | string => exact .string
    | any => exact .any .string
    | _ => cases h
  | time at_ =>
    cases t with
    | time => exact .time
    | any => exact .any .time
    | _ => cases h
  | ref r =>
    cases t with
    | ref => exact .ref
    | any => exact .any .ref
    | _ => cases h
  | function r =>
    cases t with
    | functionLike => exact .function
    | any => exact .any .function
    | _ => cases h
  | resource name id =>
    cases t with
    | resource declared => exact .resource trivial
    | any => exact .any (.resource trivial)
    | _ => cases h
  | array items =>
    have harray {elem : Ty} (h : ∃ p, (array items).toPrimitive (.array elem) = .ok p) :
        (array items).Matches (fun _ _ => True) (.array elem) := by
      obtain ⟨hany, hitems⟩ := (toPrimitive_array_succeeds rfl).mp h
      exact matches_array hany (matches_of_items items hitems)
    cases t with
    | array elem => exact harray ⟨p, h⟩
    | any =>
      rw [← toPrimitive_inferType] at h
      exact .any (harray ⟨p, h⟩)
    | _ => cases h
  | map entries =>
    have hmap {key value : Ty} (h : ∃ p, (map entries).toPrimitive (.map key value) = .ok p) :
        (map entries).Matches (fun _ _ => True) (.map key value) :=
      matches_map (matches_of_entries entries ((toPrimitive_map_succeeds rfl).mp h))
    cases t with
    | map key value => exact hmap ⟨p, h⟩
    | any =>
      rw [← toPrimitive_inferType] at h
      exact .any (hmap ⟨p, h⟩)
    | _ => cases h

theorem matches_of_items (items : List Value) {elem : Ty}
    (h : ∀ v ∈ items, ∃ p, v.toPrimitive elem = .ok p) :
    ∀ v ∈ items, v.Matches (fun _ _ => True) elem := by
  cases items with
  | nil => exact List.forall_mem_nil _
  | cons v rest =>
    obtain ⟨⟨p, hp⟩, hrest⟩ := List.forall_mem_cons.mp h
    exact List.forall_mem_cons.mpr ⟨matches_of_written v hp, matches_of_items rest hrest⟩

theorem matches_of_entries (entries : List (String × Value)) {value : Ty}
    (h : ∀ e ∈ entries, ∃ p, e.2.toPrimitive value = .ok p) :
    ∀ e ∈ entries, e.2.Matches (fun _ _ => True) value := by
  rcases entries with _ | ⟨⟨key, v⟩, rest⟩
  · exact List.forall_mem_nil _
  · obtain ⟨⟨p, hp⟩, hrest⟩ := List.forall_mem_cons.mp h
    exact List.forall_mem_cons.mpr ⟨matches_of_written v hp, matches_of_entries rest hrest⟩

end

end Writing

section Names

variable {v : Value} {t elem value : Ty}

theorem namedItems_iff {items : List Value} :
    NamedItems items elem ↔ ∀ v ∈ items, v.Named elem := by
  induction items with
  | nil => simp [NamedItems]
  | cons v rest ih => simp [NamedItems, ih]

theorem namedEntries_iff {entries : List (String × Value)} :
    NamedEntries entries value ↔ ∀ e ∈ entries, e.2.Named value := by
  induction entries with
  | nil => simp [NamedEntries]
  | cons e rest ih => simp [NamedEntries, ih]

private theorem Matches.named (h : v.Matches (· = ·) t) : v.Named t := by
  induction h with
  | resource hname => exact hname
  | array _ _ ih => exact namedItems_iff.mpr ih
  | mapOfAny => exact namedEntries_any _
  | map _ _ ih => exact namedEntries_iff.mpr ih
  | any => exact named_any _
  | _ => exact trivial

/-- What matches a type up to the names of resources, and has them named as declared, matches with
each resource under its own name. -/
private theorem Matches.of_named (h : v.Matches (fun _ _ => True) t) (hnamed : v.Named t) :
    v.Matches (· = ·) t := by
  induction h with
  | nil => exact .nil
  | bool => exact .bool
  | int => exact .int
  | score => exact .score
  | float => exact .float
  | string => exact .string
  | time => exact .time
  | ref => exact .ref
  | function => exact .function
  | resource => exact .resource hnamed
  | emptyArray => exact .emptyArray
  | array helem _ ih =>
    exact .array helem fun v hv => ih v hv (namedItems_iff.mp hnamed v hv)
  | mapOfAny _ ih => exact .mapOfAny fun e he => ih e he (named_inferType e.2)
  | map hvalue _ ih =>
    exact .map hvalue fun e he => ih e he (namedEntries_iff.mp hnamed e he)
  | any _ ih => exact .any (ih (named_inferType _))

end Names

end Value

namespace Data

/-- Data is written exactly if its value matches its type when any resource passes for any other. It
matches with each resource under its own name exactly if it is written and its resources are named
as declared. -/
theorem written_iff_matches (d : Data) :
    ((∃ p, d.toPrimitive = .ok p) ↔ d.value.Matches (fun _ _ => True) d.typ) ∧
      (d.value.Matches (· = ·) d.typ ↔
        (∃ p, d.toPrimitive = .ok p) ∧ d.value.Named d.typ) := by
  have hwritten : (∃ p, d.toPrimitive = .ok p) ↔ d.value.Matches (fun _ _ => True) d.typ := by
    constructor
    · rintro ⟨p, hp⟩
      exact Value.matches_of_written d.value hp
    · exact Value.Matches.written
  refine ⟨hwritten, ?_⟩
  constructor
  · intro h
    exact ⟨h.written, h.named⟩
  · rintro ⟨hp, hnamed⟩
    exact (hwritten.mp hp).of_named hnamed

/-- A resource that is written under the name of another is read back as that other one. -/
theorem written_renamed :
    (∃ p, (of (.resource "user" "root") (.resource "group")).toPrimitive = .ok p ∧
        p.toValue = .ok (.resource "group" "root")) ∧
      ¬(Value.resource "user" "root").Matches (· = ·) (.resource "group") := by
  refine ⟨⟨_, rfl, Primitive.toValue_resource "group" "root"⟩, ?_⟩
  intro h
  cases h with
  | resource hname => exact absurd hname (by decide)

end Data

end AssetQuery
