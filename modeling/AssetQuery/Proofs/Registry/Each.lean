import AssetQuery.Proofs.Registry.Chain

/-!
# What holds of every resource

Resources are declared, or come about above a declared one, and get links to what lies below them.
What holds of the declarations as they are completed and stays under links holds of every resource
of a registry.
-/

namespace AssetQuery.Registry

variable {F : Type} {r r' : Registry F} {P : String → ResourceInfo → Prop}

/-- Whether something holds of every resource. -/
def Each (r : Registry F) (P : String → ResourceInfo → Prop) : Prop :=
  ∀ name entry, r.resource? name = some entry → P name entry.info

theorem each_empty : (empty : Registry F).Each P := nofun

/-- Whether what holds of a resource stays when it gets a link, and holds of the resources above it
that nobody declared. -/
structure Kept (P : String → ResourceInfo → Prop) : Prop where
  plain : ∀ current parts info isPrivate, P (Dotted.below current parts) info →
    P current { ResourceInfo.plain current with isPrivate }
  linked : ∀ name info part child isPrivate, P name info → P name (linked info part child isPrivate)

theorem Each.insert (h : r.Each P) {name : String} {entry : ResourceEntry F}
    (hentry : P name entry.info) : (Registry.mk (r.entries.insert name entry)).Each P := by
  intro other found hfound
  rw [resource?_insert] at hfound
  by_cases hother : other = name
  · rw [if_pos hother] at hfound
    obtain rfl := Option.some.inj hfound
    exact hother ▸ hentry
  · rw [if_neg hother] at hfound
    exact h other found hfound

namespace Kept

variable (hkept : Kept P)

include hkept

/-- The resources on the way down to one of which it holds are taken as they are found, or are
declared on the way. -/
private theorem linkChain (h : r.Each P) (isPrivate : Bool) {current : String} {parts : List String}
    {info : ResourceInfo} (hlast : P (Dotted.below current parts) info) :
    (Registry.linkChain isPrivate current parts r).Each P := by
  induction parts generalizing current r with
  | nil => exact h
  | cons part rest ih =>
    rw [linkChain_cons]
    have hparent : P current (r.parent isPrivate current).info := by
      rw [parent]
      cases hfound : r.resource? current with
      | none => exact hkept.plain current (part :: rest) info isPrivate hlast
      | some entry => exact h current entry hfound
    apply ih
    · exact h.insert (hkept.linked current _ part _ isPrivate hparent)
    · exact hlast

private theorem addResource (h : r.Each P) {info : ResourceInfo}
    (hinfo : validateName info.id = .ok () → P info.id info.completed)
    (hadd : r.addResource info = .ok r') : r'.Each P := by
  rw [Registry.addResource] at hadd
  obtain ⟨⟨⟩, hvalid, hadd⟩ := Except.bind_eq_ok.mp hadd
  split at hadd
  · cases hadd
  · have hstart : (Registry.mk (r.entries.insert info.id ⟨info.completed, none⟩)).Each P :=
      h.insert (hinfo hvalid)
    obtain ⟨first, rest, hparts⟩ := Dotted.exists_parts_eq_cons info.id
    have hlast : P (Dotted.below first rest) info.completed := by
      rw [Dotted.below_of_parts hparts]
      exact hinfo hvalid
    obtain rfl := Except.ok.inj hadd
    rw [ensureChain, hparts]
    exact hkept.linkChain hstart _ hlast

theorem addResources (h : r.Each P) {infos : List ResourceInfo}
    (hinfos : ∀ info ∈ r.accepted infos, validateName info.id = .ok () → P info.id info.completed) :
    (r.addResources infos).1.Each P := by
  induction infos generalizing r with
  | nil => exact h
  | cons info rest ih =>
    rw [accepted] at hinfos
    rw [Registry.addResources]
    cases hadd : r.addResource info with
    | error e => exact h
    | ok next =>
      rw [hadd] at hinfos
      obtain ⟨hinfo, hrest⟩ := List.forall_mem_cons.mp hinfos
      exact ih (hkept.addResource h hinfo hadd) hrest

private theorem serve (h : r.Each P) {request : Request F}
    (hinfos : ∀ info ∈ r.accepted request.declarations, validateName info.id = .ok () →
      P info.id info.completed) : (r.serve request).Each P := by
  cases request with
  | declare info =>
    rw [serve_declare]
    exact hkept.addResources h hinfos
  | load s => exact hkept.addResources h hinfos
  | equip name factory =>
    rw [Registry.serve, Registry.addFactory]
    cases hvalid : validateName name with
    | error e => exact h
    | ok =>
      cases hfound : r.resource? name with
      | none => exact h
      | some entry => exact h.insert (h name entry hfound)

/-- Whatever is asked of a registry, it holds of every resource if it does of the declarations that
are taken over. -/
theorem serveAll (h : r.Each P) {requests : List (Request F)}
    (hinfos : ∀ info ∈ r.acceptedAll requests, validateName info.id = .ok () →
      P info.id info.completed) : (r.serveAll requests).Each P := by
  induction requests generalizing r with
  | nil => exact h
  | cons request rest ih =>
    rw [acceptedAll] at hinfos
    apply ih (hkept.serve h ?_)
    · intro info hinfo
      exact hinfos info (List.mem_append_right _ hinfo)
    · intro info hinfo
      exact hinfos info (List.mem_append_left _ hinfo)

end Kept

/-! ### Lengths of names -/

private theorem byteLength_append (s t : String) : byteLength
    (s ++ t) = byteLength s + byteLength t :=
  String.utf8ByteSize_append

private theorem byteLength_le_below (above : String) (parts : List String) :
    byteLength above ≤ byteLength (Dotted.below above parts) := by
  rcases Dotted.heads_below above parts with heq | ⟨more, hmore⟩
  · exact Nat.le_of_eq (congrArg byteLength heq.symm)
  · rw [hmore, byteLength_append, byteLength_append]
    omega

/-- Whether a name is not too long for a resource. -/
def IsBrief (name : String) : Prop := byteLength name ≤ maxNameLength

theorem validateName_eq_ok_iff {name : String} :
    validateName name = .ok () ↔ trim name.toList ≠ [] ∧ IsBrief name := by
  rw [validateName, IsBrief, ← Nat.not_lt]
  by_cases hblank : (trim name.toList).isEmpty
  · simp [List.isEmpty_iff.mp hblank]
  · rw [if_neg hblank]
    have hne : trim name.toList ≠ [] := mt List.isEmpty_iff.mpr hblank
    by_cases hlong : maxNameLength < byteLength name
    · simp [hlong]
    · simp [hlong, hne]

theorem isBrief_of_validateName {name : String} (h : validateName name = .ok ()) :
    IsBrief name := (validateName_eq_ok_iff.mp h).2

/-- What is above a resource has a shorter name, so that only declared names have to be looked
at. -/
theorem kept_isBrief : Kept fun name _ => IsBrief name where
  plain current parts _ _ hbelow := Nat.le_trans (byteLength_le_below current parts) hbelow
  linked _ _ _ _ _ hname := hname

end AssetQuery.Registry
