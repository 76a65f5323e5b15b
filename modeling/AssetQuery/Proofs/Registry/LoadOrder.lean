import AssetQuery.Proofs.Registry.Declaration

/-!
# The order of a schema

The resources of a schema are declared one after the other, in the order of their keys. As each
brings about what is missing above it, all of them are declared exactly if none comes after one that
lies below it. That is so where the keys are the names.
-/

namespace AssetQuery

variable {F : Type}

open Dotted (IsPart Heads)

/-- Whether a field is another one, but for its name and for whether it is private. -/
def Field.Stays (field now : Field) : Prop :=
  now = { field with name := now.name, isPrivate := now.isPrivate }

theorem Field.Stays.trans {field next last : Field} (h : field.Stays next) (h' : next.Stays last) :
    field.Stays last := by
  rw [Stays] at h h' ⊢
  rw [h', h]

namespace Registry

variable {r r' : Registry F} {info : ResourceInfo} {infos : List ResourceInfo}

theorem Extends.contains_iff (h : r.Extends info r') (name : String) :
    r'.contains name ↔ r.contains name ∨ Heads name info.id := by
  by_cases hheads : Heads name info.id
  · simp only [hheads, or_true, iff_true]
    by_cases hname : info.id = name
    · obtain ⟨fields, hdeclared, _⟩ := h.declared
      exact Registry.contains_iff.mpr ⟨_, hname ▸ hdeclared⟩
    · obtain ⟨part, hpart, hnext⟩ := hheads.exists_next hname
      obtain ⟨now, hnow, _⟩ := h.above name part hpart hnext
      exact Registry.contains_iff.mpr ⟨now, hnow⟩
  · simp only [Registry.contains_iff, h.elsewhere name hheads, hheads, or_false]

private theorem Extends.field (h : r.Extends info r') (hnew : r.contains info.id = false)
    {resource key : String} {field : Field} (hfield : r.field? resource key = some field) :
    ∃ kept, r'.field? resource key = some kept ∧ field.Stays kept := by
  obtain ⟨entry, hentry, hkey⟩ := Option.bind_eq_some_iff.mp hfield
  by_cases hheads : Heads resource info.id
  · have hne : info.id ≠ resource := by
      rintro rfl
      rw [resource?_eq_none_iff.mpr hnew] at hentry
      cases hentry
    obtain ⟨part, hpart, hnext⟩ := hheads.exists_next hne
    obtain ⟨now, hnow, hlinked⟩ := h.above resource part hpart hnext
    rw [parent, hentry, Option.getD_some] at hlinked
    rw [field?, hnow]
    by_cases hkeypart : key = part
    · subst hkeypart
      exact ⟨_, hlinked.kept field hkey, rfl⟩
    · exact ⟨field, (hlinked.others key hkeypart).trans hkey, rfl⟩
  · refine ⟨field, ?_, rfl⟩
    rw [field?, h.elsewhere resource hheads]
    exact hfield

private theorem Extends.declared_field (h : r.Extends info r') {key : String} {field : Field}
    (hfield : info.fields.find? key = some field) :
    ∃ kept, r'.field? info.id key = some kept ∧ field.Stays kept := by
  obtain ⟨fields, hdeclared, hfields⟩ := h.declared
  refine ⟨field.named key, ?_, ?_⟩
  · simp [field?, hdeclared, hfields, hfield]
  · rw [Field.named]
    split <;> rfl

/-- Declarations succeed one after the other exactly if each of them is valid and new, and none
comes after one that lies below it. -/
theorem addResources_succeeds_iff (r : Registry F) (infos : List ResourceInfo) :
    (r.addResources infos).2 = .ok () ↔
      (∀ info ∈ infos, validateName info.id = .ok () ∧ r.contains info.id = false) ∧
        infos.Pairwise fun earlier later => ¬Heads later.id earlier.id := by
  induction infos generalizing r with
  | nil => simp [addResources]
  | cons info rest ih =>
    rw [List.forall_mem_cons, List.pairwise_cons, ← addResource_succeeds_iff, addResources]
    cases hadd : r.addResource info with
    | error e => simp
    | ok declared =>
      have hnow := (extends_addResource hadd).contains_iff
      simp only [ih, ← Bool.not_eq_true, hnow, not_or]
      constructor
      · rintro ⟨hrest, hpairs⟩
        refine ⟨⟨⟨declared, rfl⟩, fun later hlater => ?_⟩, fun later hlater => ?_, hpairs⟩
        · exact ⟨(hrest later hlater).1, (hrest later hlater).2.1⟩
        · exact (hrest later hlater).2.2
      · rintro ⟨⟨_, hrest⟩, hfirst, hpairs⟩
        refine ⟨fun later hlater => ?_, hpairs⟩
        exact ⟨(hrest later hlater).1, (hrest later hlater).2, hfirst later hlater⟩

/-- What is there after declarations is what was there, the resources that are declared, and all
that is above these. -/
private theorem contains_addResources (h : (r.addResources infos).2 = .ok ()) (name : String) :
    (r.addResources infos).1.contains name ↔
      r.contains name ∨ ∃ info ∈ infos, Heads name info.id := by
  induction infos generalizing r with
  | nil => simp [addResources]
  | cons info rest ih =>
    rw [addResources] at h ⊢
    cases hadd : r.addResource info with
    | error e =>
      rw [hadd] at h
      cases h
    | ok declared =>
      rw [hadd] at h
      simp only [ih h, (extends_addResource hadd).contains_iff, List.mem_cons, exists_eq_or_imp,
        or_assoc]

private theorem field_addResources (infos : List ResourceInfo) {resource key : String}
    {field : Field} (hfield : r.field? resource key = some field) :
    ∃ kept, (r.addResources infos).1.field? resource key = some kept ∧ field.Stays kept := by
  induction infos generalizing r field with
  | nil => exact ⟨field, hfield, rfl⟩
  | cons info rest ih =>
    rw [addResources]
    cases hadd : r.addResource info with
    | error e => exact ⟨field, hfield, rfl⟩
    | ok declared =>
      have hnew := (addResource_succeeds_iff.mp ⟨declared, hadd⟩).2
      obtain ⟨kept, hkept, hsame⟩ := (extends_addResource hadd).field hnew hfield
      obtain ⟨last, hlast, hsame'⟩ := ih hkept
      exact ⟨last, hlast, hsame.trans hsame'⟩

private theorem declared_field_addResources (h : (r.addResources infos).2 = .ok ()) :
    ∀ info ∈ infos, ∀ key field, info.fields.find? key = some field →
      ∃ kept, (r.addResources infos).1.field? info.id key = some kept ∧ field.Stays kept := by
  induction infos generalizing r with
  | nil => nofun
  | cons info rest ih =>
    rw [addResources] at h ⊢
    cases hadd : r.addResource info with
    | error e =>
      rw [hadd] at h
      cases h
    | ok declared =>
      rw [hadd] at h
      intro other hother key field hfield
      rcases List.mem_cons.mp hother with rfl | hother
      · obtain ⟨kept, hkept, hsame⟩ := (extends_addResource hadd).declared_field hfield
        obtain ⟨last, hlast, hsame'⟩ := field_addResources rest hkept
        exact ⟨last, hlast, hsame.trans hsame'⟩
      · exact ih h other hother key field hfield

theorem loadSchema_eq (r : Registry F) (s : Schema) :
    r.loadSchema s = r.addResources s.declarations := rfl

private theorem declarations_pairwise {s : Schema}
    (h : ∀ e ∈ s.resources.entries, e.2.id = "" ∨ e.2.id = e.1) :
    s.declarations.Pairwise fun earlier later => ¬Heads later.id earlier.id := by
  have hid : ∀ e ∈ s.resources.entries,
      (if e.2.id.isEmpty then { e.2 with id := e.1 } else e.2).id = e.1 := by
    intro e he
    rcases h e he with hempty | hkey
    · simp [hempty]
    · split
      · rfl
      · exact hkey
  rw [Schema.declarations, List.pairwise_map]
  apply s.resources.ordered.imp_of_mem
  intro earlier later hearlier hlater hlt hheads
  rw [hid earlier hearlier, hid later hlater] at hheads
  exact hheads.not_lt hlt

/-- A schema is loaded exactly if its names are valid and no resource comes after one that lies
below it, as is so where the keys are the names. Then its resources are there with what is above
them, and no others, and their fields are those that were declared. -/
theorem loadSchema_succeeds_iff (s : Schema) :
    (((empty : Registry F).loadSchema s).2 = .ok () ↔
      (∀ info ∈ s.declarations, validateName info.id = .ok ()) ∧
        s.declarations.Pairwise fun earlier later => ¬Heads later.id earlier.id) ∧
    ((∀ e ∈ s.resources.entries, e.2.id = "" ∨ e.2.id = e.1) →
      s.declarations.Pairwise fun earlier later => ¬Heads later.id earlier.id) ∧
    (((empty : Registry F).loadSchema s).2 = .ok () →
      (∀ name, ((empty : Registry F).loadSchema s).1.contains name ↔
        ∃ info ∈ s.declarations, Heads name info.id) ∧
      ∀ info ∈ s.declarations, ∀ key field, info.fields.find? key = some field →
        ∃ kept, ((empty : Registry F).loadSchema s).1.field? info.id key = some kept ∧
          field.Stays kept) := by
  have hempty (name : String) : (empty : Registry F).contains name = false := rfl
  rw [loadSchema_eq]
  refine ⟨?_, declarations_pairwise, fun h => ⟨fun name => ?_, declared_field_addResources h⟩⟩
  · simp only [addResources_succeeds_iff, hempty, and_true]
  · simp only [contains_addResources h name, hempty, Bool.false_eq_true, false_or]

theorem forall_valid_of_names {names : List String} (h : infos.map (·.id) = names)
    (hnames : ∀ name ∈ names, validateName name = .ok ()) :
    ∀ info ∈ infos, validateName info.id = .ok () := by
  intro info hinfo
  apply hnames
  rw [← h]
  exact List.mem_map_of_mem hinfo

/-- The packages of a system and the system, under keys that are not their names. -/
def packagesSchema : Schema :=
  ⟨.ofList [("1", ResourceInfo.plain "os"),
    ("2", { ResourceInfo.plain "os.packages" with listType := some (.resource "package") }),
    ("package", { ResourceInfo.plain "" with
      fields := .ofList [("name", .plain "name" .string)] })]⟩

/-- The system comes first, so that all is loaded. -/
theorem loadSchema_packagesSchema :
    ((empty : Registry Unit).loadSchema packagesSchema).2 = .ok () ∧
      (∀ name, ((empty : Registry Unit).loadSchema packagesSchema).1.contains name ↔
        ∃ info ∈ packagesSchema.declarations, Heads name info.id) ∧
      ∃ kept, ((empty : Registry Unit).loadSchema packagesSchema).1.field? "package" "name" =
        some kept ∧ kept.typ = .string := by
  obtain ⟨hiff, _, hloaded⟩ := loadSchema_succeeds_iff (F := Unit) packagesSchema
  have hnames : packagesSchema.declarations.map (·.id) = ["os", "os.packages", "package"] := by
    decide +kernel
  have hvalid : ∀ info ∈ packagesSchema.declarations, validateName info.id = .ok () := by
    apply forall_valid_of_names hnames
    simp only [List.forall_mem_cons]
    exact ⟨rfl, rfl, rfl, nofun⟩
  have horder : packagesSchema.declarations.Pairwise fun a b => a.id < b.id := by decide +kernel
  have hok := hiff.mpr ⟨hvalid, horder.imp fun hlt hheads => hheads.not_lt hlt⟩
  have hfield : ∃ info ∈ packagesSchema.declarations, info.id = "package" ∧
      info.fields.find? "name" = some (.plain "name" .string) := by decide +kernel
  obtain ⟨info, hinfo, hid, hname⟩ := hfield
  obtain ⟨hcontains, hfields⟩ := hloaded hok
  obtain ⟨kept, hkept, hstays⟩ := hfields info hinfo "name" _ hname
  rw [hid] at hkept
  refine ⟨hok, hcontains, kept, hkept, ?_⟩
  rw [hstays]
  rfl

/-- The same resources, the packages before the system. -/
def reversedSchema : Schema :=
  ⟨.ofList [("1", ResourceInfo.plain "os.packages"), ("2", ResourceInfo.plain "os")]⟩

/-- Names that are valid and different do not suffice: the packages bring about the system, which is
then no longer new. -/
theorem not_loaded_reversedSchema :
    (∀ info ∈ reversedSchema.declarations, validateName info.id = .ok ()) ∧
      (reversedSchema.declarations.map (·.id)).Nodup ∧
      ((empty : Registry Unit).loadSchema reversedSchema).2 = .error (.duplicateResource "os") := by
  have hnames : reversedSchema.declarations.map (·.id) = ["os.packages", "os"] := by
    decide +kernel
  refine ⟨?_, ?_, rfl⟩
  · apply forall_valid_of_names hnames
    simp only [List.forall_mem_cons]
    exact ⟨rfl, rfl, nofun⟩
  · rw [hnames]
    decide

end Registry

end AssetQuery
