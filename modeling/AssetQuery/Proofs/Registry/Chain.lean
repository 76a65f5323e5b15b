import AssetQuery.Proofs.Except
import AssetQuery.Proofs.Text.Dotted
import AssetQuery.Registry

/-!
# Chains of resources

However a registry comes about, what is above a declared resource is declared too, and each resource
on the way down has a field for the next. Unless it was declared otherwise, that field is a link to
it. Nothing public lies below what is private. A call that fails changes none of this, nor does the
part of a schema that is taken over before the first declaration that is refused.
-/

namespace AssetQuery

variable {F : Type}

open Dotted (IsPart Heads)

/-- Something that is asked of a registry. -/
inductive Registry.Request (F : Type) where
  | declare (info : ResourceInfo)
  | load (schema : Schema)
  | equip (name : String) (factory : F)

/-- The declarations of a schema. -/
def Schema.declarations (s : Schema) : List ResourceInfo :=
  s.resources.entries.map fun e => if e.2.id.isEmpty then { e.2 with id := e.1 } else e.2

def Registry.Request.declarations : Request F → List ResourceInfo
  | declare info => [info]
  | load s => s.declarations
  | equip _ _ => []

namespace Registry

/-- The registry after a request, whether or not all of that is done. -/
def serve (r : Registry F) : Request F → Registry F
  | .declare info => (r.addResource info).toOption.getD r
  | .load s => (r.loadSchema s).1
  | .equip name factory => (r.addFactory name factory).toOption.getD r

def serveAll (r : Registry F) (requests : List (Request F)) : Registry F := requests.foldl serve r

/-- The declarations that are taken over, up to the first that is refused. -/
def accepted (r : Registry F) : List ResourceInfo → List ResourceInfo
  | [] => []
  | info :: rest =>
    match r.addResource info with
    | .ok r => info :: r.accepted rest
    | .error _ => []

/-- The declarations that are taken over when requests are served one after the other. -/
def acceptedAll (r : Registry F) : List (Request F) → List ResourceInfo
  | [] => []
  | request :: rest => r.accepted request.declarations ++ (r.serve request).acceptedAll rest

/-- Whether a declared resource has a field by its own declaration. -/
def Owns (declared : List ResourceInfo) (resource field : String) : Prop :=
  ∃ info ∈ declared, info.id = resource ∧ info.completed.fields.contains field

private theorem Owns.mono {declared more : List ResourceInfo} (hsub : declared ⊆ more)
    {resource field : String} (h : Owns declared resource field) : Owns more resource field := by
  obtain ⟨info, hinfo, hid, hfield⟩ := h
  exact ⟨info, hsub hinfo, hid, hfield⟩

/-- Whether a resource has a field for a part below it, where both are public if what they lead to
is. -/
def Links (r : Registry F) (above part : String) (isPrivate : Bool) : Prop :=
  ∃ parent link, r.resource? above = some parent ∧ parent.info.fields.find? part = some link ∧
    (isPrivate = false → parent.info.isPrivate = false ∧ link.isPrivate = false)

private theorem Links.mono {r : Registry F} {above part : String} {isPrivate now : Bool}
    (h : r.Links above part isPrivate) (hnow : now = false → isPrivate = false) :
    r.Links above part now := by
  obtain ⟨parent, link, hparent, hlink, hpublic⟩ := h
  exact ⟨parent, link, hparent, hlink, fun hpub => hpublic (hnow hpub)⟩

theorem links_congr {a b : Registry F} {above part : String}
    (h : a.resource? above = b.resource? above) (isPrivate : Bool) :
    a.Links above part isPrivate ↔ b.Links above part isPrivate := by
  rw [Links, Links, h]

/-- Whether every resource is linked from above, some perhaps not yet, and fields that were not
declared are links. -/
structure Chained (declared : List ResourceInfo) (pending : String → Prop) (r : Registry F) :
    Prop where
  fields : ∀ resource entry part field, r.resource? resource = some entry →
    entry.info.fields.find? part = some field →
      Owns declared resource part ∨
        field.isImplicit = true ∧ field.typ = .resource (resource ++ "." ++ part)
  above : ∀ above part entry, IsPart part → ¬pending (above ++ "." ++ part) →
    r.resource? (above ++ "." ++ part) = some entry → r.Links above part entry.info.isPrivate

variable {r : Registry F} {declared : List ResourceInfo} {pending : String → Prop}

theorem chained_empty : Chained [] pending (empty : Registry F) := ⟨nofun, nofun⟩

private theorem Chained.congr (h : Chained declared pending r) {other : Registry F}
    (hinfo : ∀ name, (other.resource? name).map (·.info) = (r.resource? name).map (·.info)) :
    Chained declared pending other := by
  have hold {name : String} {entry : ResourceEntry F} (hentry : other.resource? name = some entry) :
      ∃ old, r.resource? name = some old ∧ old.info = entry.info := by
    have hname := hinfo name
    rw [hentry] at hname
    exact Option.map_eq_some_iff.mp hname.symm
  have hnew {name : String} {entry : ResourceEntry F} (hentry : r.resource? name = some entry) :
      ∃ now, other.resource? name = some now ∧ now.info = entry.info := by
    have hname := hinfo name
    rw [hentry] at hname
    exact Option.map_eq_some_iff.mp hname
  refine ⟨fun resource entry part field hentry hfield => ?_,
    fun above part entry hpart hpending hentry => ?_⟩
  · obtain ⟨old, hold, hsame⟩ := hold hentry
    exact h.fields resource old part field hold (hsame ▸ hfield)
  · obtain ⟨old, hold, hsame⟩ := hold hentry
    obtain ⟨parent, link, hparent, hlink, hpublic⟩ := h.above above part old hpart hpending hold
    obtain ⟨now, hnow, hinfo⟩ := hnew hparent
    exact ⟨now, link, hnow, hinfo ▸ hlink, hinfo ▸ hsame ▸ hpublic⟩

theorem resource?_insert (r : Registry F) (name : String) (entry : ResourceEntry F)
    (other : String) :
    (Registry.mk (r.entries.insert name entry)).resource? other =
      if other = name then some entry else r.resource? other :=
  Dict.find?_insert _ _ _ _

section Links

variable (isPrivate : Bool) (current part : String)

/-- The resource of a name, or what is declared where it is missing. -/
def parent (r : Registry F) : ResourceEntry F :=
  (r.resource? current).getD ⟨{ ResourceInfo.plain current with isPrivate }, none⟩

/-- A resource with a link to what lies directly below it. -/
def linkedParent (r : Registry F) : ResourceEntry F :=
  { r.parent isPrivate current with
    info := linked (r.parent isPrivate current).info part (current ++ "." ++ part) isPrivate }

/-- The registry once a resource has a link to what lies directly below it. -/
def linkedTo (r : Registry F) : Registry F :=
  ⟨r.entries.insert current (r.linkedParent isPrivate current part)⟩

theorem resource?_linkedTo (name : String) :
    (r.linkedTo isPrivate current part).resource? name =
      if name = current then some (r.linkedParent isPrivate current part) else r.resource? name :=
  resource?_insert _ _ _ _

private theorem exists_resource_linkedTo {name : String} {entry : ResourceEntry F}
    (h : r.resource? name = some entry) :
    ∃ now, (r.linkedTo isPrivate current part).resource? name = some now ∧
      (entry.info.isPrivate = false → now.info.isPrivate = false) ∧
      ∀ p field, entry.info.fields.find? p = some field → ∃ field',
        now.info.fields.find? p = some field' ∧
          (field.isPrivate = false → field'.isPrivate = false) := by
  rw [resource?_linkedTo]
  split
  · next hname =>
    subst hname
    have hparent : r.parent isPrivate name = entry := by simp [parent, h]
    refine ⟨_, rfl, fun hpublic => ?_, fun p field hfield => ?_⟩
    · simp [linkedParent, hparent, linked, hpublic]
    · simp only [linkedParent, hparent, linked, Dict.find?_insert]
      split
      · next hp =>
        refine ⟨_, rfl, fun hpublic => ?_⟩
        simp [← hp, hfield, hpublic]
      · exact ⟨field, hfield, id⟩
  · exact ⟨entry, h, id, fun p field hfield => ⟨field, hfield, id⟩⟩

variable {isPrivate current part}

private theorem Links.linkedTo {above p : String} {b : Bool} (h : r.Links above p b) :
    (r.linkedTo isPrivate current part).Links above p b := by
  obtain ⟨parent, link, hparent, hlink, hpublic⟩ := h
  obtain ⟨now, hnow, hparent, hfields⟩ :=
    exists_resource_linkedTo isPrivate current part hparent
  obtain ⟨field, hfield, hlink⟩ := hfields p link hlink
  exact ⟨now, field, hnow, hfield, fun hb => ⟨hparent (hpublic hb).1, hlink (hpublic hb).2⟩⟩

private theorem links_linkedTo :
    (r.linkedTo isPrivate current part).Links current part isPrivate := by
  have hentry := resource?_linkedTo (r := r) isPrivate current part current
  rw [if_pos rfl] at hentry
  refine ⟨_, _, hentry, (Dict.find?_insert _ part _ part).trans (if_pos rfl), ?_⟩
  rintro rfl
  simp [linkedParent, linked]

private theorem Chained.parent_field (h : Chained declared pending r) {p : String} {field : Field}
    (hfield : (r.parent isPrivate current).info.fields.find? p = some field) :
    Owns declared current p ∨
      field.isImplicit = true ∧ field.typ = .resource (current ++ "." ++ p) := by
  rw [parent] at hfield
  cases hparent : r.resource? current with
  | some parent => exact h.fields current parent p field hparent (by rwa [hparent] at hfield)
  | none =>
    rw [hparent] at hfield
    cases hfield

/-- A link may be put in, and the resource that it starts from declared with it, if that one is
linked from above. -/
private theorem Chained.linkedTo (h : Chained declared pending r)
    (hcurrent : ∀ above p, IsPart p → current = above ++ "." ++ p → r.Links above p isPrivate) :
    Chained declared pending (r.linkedTo isPrivate current part) := by
  refine ⟨fun resource entry p field hentry hfield => ?_,
    fun above p entry hp hpending hentry => ?_⟩
  · rw [resource?_linkedTo] at hentry
    split at hentry
    · next hresource =>
      subst hresource
      obtain rfl := Option.some.inj hentry
      simp only [linkedParent, linked, Dict.find?_insert] at hfield
      split at hfield
      · next hpart =>
        subst hpart
        obtain rfl := Option.some.inj hfield
        cases hlink : (r.parent isPrivate resource).info.fields.find? p with
        | some link => exact (h.parent_field hlink :)
        | none => exact .inr ⟨rfl, rfl⟩
      · exact h.parent_field hfield
    · exact h.fields resource entry p field hentry hfield
  · rw [resource?_linkedTo] at hentry
    split at hentry
    · next hname =>
      obtain rfl := Option.some.inj hentry
      have habove := hcurrent above p hp hname.symm
      cases isPrivate with
      | false => simpa [linkedParent, linked] using habove.linkedTo
      | true =>
        cases hparent : r.resource? current with
        | some old =>
          have hold := h.above above p old hp hpending (hname ▸ hparent)
          simpa [linkedParent, linked, parent, hparent] using hold.linkedTo
        | none => simpa [linkedParent, linked, parent, hparent] using habove.linkedTo
    · exact (h.above above p entry hp hpending hentry).linkedTo

end Links

theorem linkChain_cons (isPrivate : Bool) (current part : String) (parts : List String)
    (r : Registry F) :
    linkChain isPrivate current (part :: parts) r =
      linkChain isPrivate (current ++ "." ++ part) parts (r.linkedTo isPrivate current part) := rfl

private theorem Chained.linkChain {isPrivate : Bool} {current : String} {parts : List String}
    (h : Chained declared (· = Dotted.below current parts) r) (hparts : ∀ part ∈ parts, IsPart part)
    (hcurrent : ∀ above p, IsPart p → current = above ++ "." ++ p → r.Links above p isPrivate)
    (hlast : ∃ entry, r.resource? (Dotted.below current parts) = some entry ∧
      entry.info.isPrivate = isPrivate) :
    Chained declared (fun _ => False) (Registry.linkChain isPrivate current parts r) := by
  induction parts generalizing current r with
  | nil =>
    refine ⟨h.fields, fun above p entry hp _ hentry => ?_⟩
    by_cases hname : above ++ "." ++ p = current
    · obtain ⟨last, hlast, hprivate⟩ := hlast
      obtain rfl := Option.some.inj (hlast.symm.trans (hname ▸ hentry))
      exact hprivate ▸ hcurrent above p hp hname.symm
    · exact h.above above p entry hp hname hentry
  | cons part parts ih =>
    rw [linkChain_cons]
    refine ih (h.linkedTo hcurrent) (fun p hp => hparts p (List.mem_cons_of_mem _ hp)) ?_ ?_
    · intro above p hp hname
      obtain ⟨rfl, rfl⟩ := Dotted.eq_of_append (hparts part List.mem_cons_self) hp hname
      exact links_linkedTo
    · -- the last resource is not one of those that get a link
      have hne : Dotted.below current (part :: parts) ≠ current :=
        (Dotted.ne_below_cons current part parts).symm
      obtain ⟨entry, hentry, hprivate⟩ := hlast
      exact ⟨entry, (resource?_linkedTo ..).trans ((if_neg hne).trans hentry), hprivate⟩

private theorem Chained.insert (h : Chained declared (fun _ => False) r) {info : ResourceInfo}
    (hnew : r.resource? info.id = none) :
    Chained (declared ++ [info]) (· = info.id)
      ⟨r.entries.insert info.id ⟨info.completed, none⟩⟩ := by
  refine ⟨fun resource entry part field hentry hfield => ?_,
    fun above part entry hp hne hentry => ?_⟩
  · rw [resource?_insert] at hentry
    split at hentry
    · next hid =>
      obtain rfl := Option.some.inj hentry
      exact .inl ⟨info, by simp, hid.symm, by simp [Dict.contains, hfield]⟩
    · exact (h.fields resource entry part field hentry hfield).imp
        (Owns.mono (List.subset_append_left _ _)) id
  · rw [resource?_insert, if_neg hne] at hentry
    obtain ⟨parent, link, hparent, hlink⟩ := h.above above part entry hp id hentry
    refine ⟨parent, link, ?_, hlink⟩
    rw [resource?_insert, if_neg, hparent]
    -- A resource that was there is not the one that is new.
    rintro rfl
    cases hnew.symm.trans hparent

private theorem Chained.addResource (h : Chained declared (fun _ => False) r) {info : ResourceInfo}
    {r' : Registry F} (hadd : r.addResource info = .ok r') :
    Chained (declared ++ [info]) (fun _ => False) r' := by
  rw [Registry.addResource] at hadd
  obtain ⟨_, _, hadd⟩ := Except.bind_eq_ok.mp hadd
  split at hadd
  · cases hadd
  · next hnew =>
    have hnone : r.resource? info.id = none := by
      simpa [Registry.contains, Dict.contains, resource?] using hnew
    obtain rfl := Except.ok.inj hadd
    let start : Registry F := ⟨r.entries.insert info.id ⟨info.completed, none⟩⟩
    obtain ⟨first, rest, hparts⟩ := Dotted.exists_parts_eq_cons info.id
    have hname := Dotted.below_of_parts hparts
    have hpart {part : String} (hpart : part ∈ first :: rest) : IsPart part :=
      Dotted.isPart_of_mem_parts (hparts ▸ hpart)
    have hchained : Chained (declared ++ [info]) (· = Dotted.below first rest) start :=
      hname ▸ h.insert hnone
    show Chained _ _ (start.ensureChain info.id info.isPrivate)
    rw [ensureChain, hparts]
    refine hchained.linkChain (fun part hp => hpart (List.mem_cons_of_mem _ hp)) ?_ ?_
    · rintro above p _ rfl
      refine absurd (hpart List.mem_cons_self) ?_
      simp [IsPart]
    · rw [hname, resource?_insert, if_pos rfl]
      refine ⟨_, rfl, ?_⟩
      simp only [ResourceInfo.completed]
      split
      · split <;> rfl
      · rfl

theorem serve_declare (r : Registry F) (info : ResourceInfo) :
    r.serve (.declare info) = (r.addResources [info]).1 := by
  rw [serve, addResources]
  cases r.addResource info <;> rfl

theorem Chained.addResources (h : Chained declared (fun _ => False) r) (infos : List ResourceInfo) :
    Chained (declared ++ r.accepted infos) (fun _ => False) (r.addResources infos).1 := by
  induction infos generalizing r declared with
  | nil =>
    rw [accepted, List.append_nil]
    exact h
  | cons info rest ih =>
    rw [Registry.addResources, accepted]
    cases hadd : r.addResource info with
    | ok r' => simpa using ih (h.addResource hadd)
    | error e => simpa using h

private theorem Chained.addFactory (h : Chained declared pending r) {name : String} {factory : F}
    {r' : Registry F} (hadd : r.addFactory name factory = .ok r') :
    Chained declared pending r' := by
  rw [Registry.addFactory] at hadd
  obtain ⟨_, _, hadd⟩ := Except.bind_eq_ok.mp hadd
  split at hadd
  · next entry hentry =>
    obtain rfl := Except.ok.inj hadd
    refine h.congr fun other => ?_
    rw [resource?_insert]
    split
    · next hname =>
      rw [hname, hentry]
      rfl
    · rfl
  · cases hadd

private theorem Chained.serve (h : Chained declared (fun _ => False) r) (request : Request F) :
    Chained (declared ++ r.accepted request.declarations) (fun _ => False) (r.serve request) := by
  cases request with
  | declare info =>
    rw [serve_declare]
    exact h.addResources [info]
  | load s => exact h.addResources s.declarations
  | equip name factory =>
    rw [Registry.serve, Request.declarations, accepted, List.append_nil]
    cases hadd : r.addFactory name factory with
    | ok r' => exact h.addFactory hadd
    | error e => exact h

theorem Chained.serveAll (h : Chained declared (fun _ => False) r) (requests : List (Request F)) :
    Chained (declared ++ r.acceptedAll requests) (fun _ => False) (r.serveAll requests) := by
  induction requests generalizing r declared with
  | nil =>
    rw [acceptedAll, List.append_nil]
    exact h
  | cons request rest ih =>
    rw [acceptedAll, ← List.append_assoc]
    exact ih (h.serve request)

/-- On the way down to a resource there is a link at each step. What it starts from is public if the
resource is, and so is the link. -/
theorem Chained.links (h : Chained declared (fun _ => False) r) {name : String}
    {entry : ResourceEntry F} (hentry : r.resource? name = some entry) {above part : String}
    (hpart : IsPart part) (hheads : Heads (above ++ "." ++ part) name) :
    r.Links above part entry.info.isPrivate := by
  induction hlength : name.length using Nat.strongRecOn generalizing name entry with
  | _ length ih =>
    by_cases hname : name = above ++ "." ++ part
    · subst hname
      exact h.above above part entry hpart id hentry
    · obtain ⟨upper, p, hp, rfl, hupper⟩ := hheads.exists_above hname
      obtain ⟨parent, _, hparent, _, hlinks⟩ := h.above upper p entry hp id hentry
      have hshorter : upper.length < length := by
        rw [← hlength, String.length_append, String.length_append]
        exact Nat.lt_add_right _ (Nat.lt_succ_self _)
      apply (ih upper.length hshorter hparent hupper rfl).mono
      intro hpublic
      exact (hlinks hpublic).1

/-- All that is above a public resource is public, and the links on the way down to it. -/
theorem Chained.links_of_public (h : Chained declared (fun _ => False) r) {name : String}
    {entry : ResourceEntry F} (hentry : r.resource? name = some entry)
    (hpublic : entry.info.isPrivate = false) {above part : String} (hpart : IsPart part)
    (hheads : Heads (above ++ "." ++ part) name) : r.Links above part false := by
  rw [← hpublic]
  exact h.links hentry hpart hheads

/-- Whatever is asked of a registry, and whether or not it is done: the resource above a declared
one is declared and has a field for it, which is a link unless that resource was declared with a
field of that name. Above a public resource everything is public, and so are the fields on the way
down. -/
theorem serveAll_linked (requests : List (Request F)) {above part : String}
    {entry : ResourceEntry F} (hpart : IsPart part)
    (hentry : (empty.serveAll requests).resource? (above ++ "." ++ part) = some entry) :
    ∃ parent link, (empty.serveAll requests).resource? above = some parent ∧
      parent.info.fields.find? part = some link ∧
      (Owns (empty.acceptedAll requests) above part ∨
        link.isImplicit = true ∧ link.typ = .resource (above ++ "." ++ part)) ∧
      (entry.info.isPrivate = false →
        parent.info.isPrivate = false ∧ link.isPrivate = false ∧
        ∀ upper p, IsPart p → Heads (upper ++ "." ++ p) (above ++ "." ++ part) →
          ∃ parent link, (empty.serveAll requests).resource? upper = some parent ∧
            parent.info.fields.find? p = some link ∧ parent.info.isPrivate = false ∧
            link.isPrivate = false) := by
  have h := chained_empty.serveAll requests
  rw [List.nil_append] at h
  obtain ⟨parent, link, hparent, hlink, hpublic⟩ := h.above above part entry hpart id hentry
  refine ⟨parent, link, hparent, hlink, h.fields above parent part link hparent hlink,
    fun hentry' => ⟨(hpublic hentry').1, (hpublic hentry').2, fun upper p hp hheads => ?_⟩⟩
  obtain ⟨parent, link, hparent, hlink, hpublic⟩ := h.links_of_public hentry hentry' hp hheads
  exact ⟨parent, link, hparent, hlink, hpublic rfl⟩

/-- A hidden disk brings about the system that it is of, which cannot be declared after that. A
public part of the disk is in a schema of which the rest is refused. -/
def diskRequests : List (Request Unit) :=
  [.declare { ResourceInfo.plain "os.disk" with
      fields := .ofList [("size", .plain "size" .int)], isPrivate := true },
    .declare ((ResourceInfo.plain "os").withField (.plain "disk" .string)),
    .load ⟨.ofList [("a", .plain "os.disk.part"), ("b", .plain "os.disk"), ("c", .plain "lost")]⟩,
    .equip "os" ()]

/-- The part makes all that is above it public. What was refused left nothing behind. -/
theorem serveAll_diskRequests :
    IsPart "part" ∧ (empty.serveAll diskRequests).names = ["os", "os.disk", "os.disk.part"] ∧
      (empty.acceptedAll diskRequests).map (·.id) = ["os.disk", "os.disk.part"] ∧
      ∃ entry, (empty.serveAll diskRequests).resource? ("os.disk" ++ "." ++ "part") = some entry ∧
        entry.info.isPrivate = false ∧
        ∃ system link, (empty.serveAll diskRequests).resource? "os" = some system ∧
          system.info.fields.find? "disk" = some link ∧ system.info.isPrivate = false ∧
          link.isPrivate = false ∧ link.typ = .resource "os.disk" := by
  have hpart : IsPart "part" := by decide
  have hseen : (empty.serveAll diskRequests).names = ["os", "os.disk", "os.disk.part"] ∧
      (empty.acceptedAll diskRequests).map (·.id) = ["os.disk", "os.disk.part"] ∧
      ((empty.serveAll diskRequests).resource? ("os.disk" ++ "." ++ "part")).map
        (·.info.isPrivate) = some false ∧
      ((empty.serveAll diskRequests).field? "os" "disk").map (·.typ) =
        some (.resource "os.disk") := by
    decide +kernel
  obtain ⟨hnames, haccepted, hentry, htyp⟩ := hseen
  obtain ⟨entry, hentry, hpublic⟩ := Option.map_eq_some_iff.mp hentry
  refine ⟨hpart, hnames, haccepted, entry, hentry, hpublic, ?_⟩
  obtain ⟨_, _, _, _, _, hchain⟩ := serveAll_linked diskRequests hpart hentry
  obtain ⟨_, _, habove⟩ := hchain hpublic
  obtain ⟨system, link, hsystem, hlink, hpublic⟩ :=
    habove "os" "disk" (by decide) (.inr ⟨"part", rfl⟩)
  refine ⟨system, link, hsystem, hlink, hpublic.1, hpublic.2, ?_⟩
  rw [field?, hsystem] at htyp
  simpa [hlink] using htyp

end Registry

end AssetQuery
