import AssetQuery.Proofs.Entries
import AssetQuery.Proofs.Except
import AssetQuery.Proofs.Ty.Compatible
import AssetQuery.Registry

/-!
# Regular registries

Declarations that leave nothing open about what is read of a resource, and the registries of such
declarations. Declaring a resource keeps a registry regular.
-/

namespace AssetQuery

variable {F : Type}

/-- Whether a type tells what is in the lists of it. Blocks are of no such type. -/
def Ty.isDefinite : Ty → Bool
  | arrayLike | functionLike => false
  | array elem => elem.isDefinite
  | map key value => key.isDefinite && value.isDefinite
  | _ => true

/-- Whether a field is declared so that its type tells what is read: the type is definite, and a
link leads to a resource. -/
structure Field.Regular (field : Field) : Prop where
  definite : field.typ.isDefinite
  link : field.isImplicit → field.typ.resourceName?.isSome ∨ field.typ = .resourceLike ∨
    field.typ = .any

theorem Field.Regular.fits_link {field : Field} (h : field.Regular) (himplicit : field.isImplicit)
    (other : String) : (Ty.resource (field.typ.resourceName?.getD other)).Fits field.typ := by
  rcases h.link himplicit with hsome | hclass | hany
  · cases htyp : field.typ with
    | resource name => exact .refl
    | _ => rw [htyp] at hsome; cases hsome
  · exact hclass ▸ .resourceLike
  · exact hany ▸ .any

/-- Whether a resource is declared so: its fields are, and if it is a list, that is what its field
`list` is. -/
structure ResourceInfo.Regular (info : ResourceInfo) : Prop where
  fields : ∀ name field, info.fields.find? name = some field → field.Regular
  list : ∀ elem, info.listType = some elem → elem.isDefinite ∧
    ∃ field, info.fields.find? "list" = some field ∧ field.typ.Fits (.array elem)

/-- Whether all resources are declared so, and none without a name is a list. -/
structure Registry.Regular (registry : Registry F) : Prop where
  resources : ∀ name entry, registry.resource? name = some entry → entry.info.Regular
  nameless : ∀ entry, registry.resource? "" = some entry → entry.info.listType = none

/-- A resource that is no list is regular if its fields lead nowhere and are of definite types. -/
theorem ResourceInfo.regular_of_fields {info : ResourceInfo} (hlist : info.listType = none)
    (hfields : ∀ e ∈ info.fields.entries, e.2.typ.isDefinite ∧ e.2.isImplicit = false) :
    info.Regular := by
  refine ⟨fun name field hfield => ?_, fun elem helem => ?_⟩
  · obtain ⟨hdefinite, himplicit⟩ := hfields (name, field) (Table.mem_of_lookup hfield)
    exact ⟨hdefinite, fun h => nomatch himplicit.symm.trans h⟩
  · rw [hlist] at helem
    cases helem

namespace Registry

variable {registry declared : Registry F} {info : ResourceInfo}

theorem regular_empty : (empty : Registry F).Regular := ⟨nofun, nofun⟩

theorem Regular.field (h : registry.Regular) {resource name : String} {field : Field}
    (hfield : registry.field? resource name = some field) : field.Regular := by
  obtain ⟨entry, hentry, hfield⟩ := Option.bind_eq_some_iff.mp hfield
  exact (h.resources resource entry hentry).fields name field hfield

theorem Regular.insert (h : registry.Regular) {name : String} {entry : ResourceEntry F}
    (hentry : entry.info.Regular) (hnamed : name = "" → entry.info.listType = none) :
    (Registry.mk (registry.entries.insert name entry)).Regular := by
  have hcases {other : String} {found : ResourceEntry F}
      (hfound : (Registry.mk (registry.entries.insert name entry)).resource? other = some found) :
      other = name ∧ found = entry ∨ registry.resource? other = some found := by
    rw [resource?, Dict.find?_insert] at hfound
    split at hfound
    · next hother => exact .inl ⟨hother, (Option.some.inj hfound).symm⟩
    · exact .inr hfound
  refine ⟨fun other found hfound => ?_, fun found hfound => ?_⟩
  · rcases hcases hfound with ⟨_, rfl⟩ | hold
    · exact hentry
    · exact h.resources other found hold
  · rcases hcases hfound with ⟨hname, rfl⟩ | hold
    · exact hnamed hname.symm
    · exact h.nameless found hold

private theorem regular_linked (h : info.Regular) (part child : String) (isPrivate : Bool) :
    (linked info part child isPrivate).Regular := by
  have hlink : ((info.fields.find? part).getD (linkField part child isPrivate)).Regular := by
    cases hpart : info.fields.find? part with
    | none => exact ⟨rfl, fun _ => .inl rfl⟩
    | some field => exact h.fields part field hpart
  refine ⟨fun name field hfield => ?_, fun elem helem => ?_⟩
  · rw [linked, Dict.find?_insert] at hfield
    split at hfield
    · obtain rfl := Option.some.inj hfield
      exact ⟨hlink.definite, hlink.link⟩
    · exact h.fields name field hfield
  · obtain ⟨hdefinite, field, hfield, hfits⟩ := h.list elem helem
    refine ⟨hdefinite, ?_⟩
    rw [linked, Dict.find?_insert]
    split
    · next hpart => exact ⟨_, rfl, by rw [← hpart, hfield]; exact hfits⟩
    · exact ⟨field, hfield, hfits⟩

private theorem Regular.linkChain (h : registry.Regular) (isPrivate : Bool) (current : String)
    (parts : List String) : (linkChain isPrivate current parts registry).Regular := by
  induction parts generalizing current registry with
  | nil => exact h
  | cons part parts ih =>
    rw [Registry.linkChain]
    refine ih (h.insert (regular_linked ?_ part _ isPrivate) fun hname => ?_) _
    · cases hparent : registry.resource? current with
      | none => exact ⟨nofun, nofun⟩
      | some parent => exact h.resources current parent hparent
    · subst hname
      cases hparent : registry.resource? "" with
      | none => rfl
      | some parent => exact h.nameless parent hparent

private theorem Regular.addResource (h : registry.Regular) (hinfo : info.completed.Regular)
    (hadd : registry.addResource info = .ok declared) : declared.Regular := by
  rw [Registry.addResource] at hadd
  obtain ⟨_, hvalid, hadd⟩ := Except.bind_eq_ok.mp hadd
  have hnamed : info.id = "" → info.completed.listType = none := by
    intro hname
    rw [hname] at hvalid
    cases hvalid
  split at hadd
  · cases hadd
  · obtain rfl := Except.ok.inj hadd
    have hinserted :
        (Registry.mk (registry.entries.insert info.id ⟨info.completed, none⟩)).Regular :=
      h.insert hinfo hnamed
    rw [ensureChain]
    split
    · exact hinserted
    · exact hinserted.linkChain _ _ _

theorem Regular.addResources (h : registry.Regular) {infos : List ResourceInfo}
    (hinfos : ∀ info ∈ infos, info.completed.Regular) :
    (registry.addResources infos).1.Regular := by
  induction infos generalizing registry with
  | nil => exact h
  | cons info rest ih =>
    obtain ⟨hinfo, hrest⟩ := List.forall_mem_cons.mp hinfos
    rw [Registry.addResources]
    split
    · next declared hadd => exact ih (h.addResource hinfo hadd) hrest
    · exact h

theorem Regular.addFactory (h : registry.Regular) {name : String} {factory : F}
    (hadd : registry.addFactory name factory = .ok declared) : declared.Regular := by
  rw [Registry.addFactory] at hadd
  obtain ⟨_, hvalid, hadd⟩ := Except.bind_eq_ok.mp hadd
  split at hadd
  · next entry hentry =>
    obtain rfl := Except.ok.inj hadd
    exact h.insert (h.resources name entry hentry) fun hname =>
      h.nameless entry (hname ▸ hentry)
  · cases hadd

end Registry

end AssetQuery
