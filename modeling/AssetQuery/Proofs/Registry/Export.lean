import AssetQuery.Proofs.Registry.LoadOrder

/-!
# Schemas of registries

The schema of a registry can be loaded again. Each of its declarations is complete, and what is
above a resource comes before it with its links, so that nothing is filled in and the same schema
comes about. Only blank names stand in the way: no resource can be declared by one, but one comes
about above a name that starts with a dot.
-/

namespace AssetQuery

variable {F : Type}

open Dotted (IsPart Heads)

namespace Field

private theorem key_of_name_named {field : Field} {key : String} (h : (field.named key).name = "") :
    key = "" := by
  rw [named] at h
  split at h
  · exact h
  · next hname => exact absurd (String.isEmpty_iff.mpr h) hname

private theorem named_eq_self {field : Field} {key : String} (h : field.name = "" → key = "") :
    field.named key = field := by
  rw [named]
  split
  · next hempty =>
    have hname := String.isEmpty_iff.mp hempty
    rw [h hname, ← hname]
  · rfl

end Field

namespace ResourceInfo

structure Complete (info : ResourceInfo) : Prop where
  named : ∀ key field, info.fields.find? key = some field → field.name = "" → key = ""
  list : info.listType.isSome → info.fields.contains "list"

variable {info : ResourceInfo}

private theorem complete_completed (info : ResourceInfo) : info.completed.Complete where
  named key field hfield hname := by
    rw [find?_completed] at hfield
    rcases Option.or_eq_some_iff.mp hfield with hown | ⟨_, hlist⟩
    · obtain ⟨old, _, rfl⟩ := Option.map_eq_some_iff.mp hown
      exact Field.key_of_name_named hname
    · split at hlist
      · obtain ⟨elem, _, rfl⟩ := Option.map_eq_some_iff.mp hlist
        have hne : "list" ≠ "" := by decide
        exact absurd hname hne
      · cases hlist
  list hlist := by
    rw [completed_eq] at hlist
    rw [Dict.contains, find?_completed, if_pos rfl]
    simp [hlist]

private theorem Complete.linked (h : info.Complete) (part child : String) (isPrivate : Bool) :
    (Registry.linked info part child isPrivate).Complete where
  named key field hfield hname := by
    simp only [Registry.linked, Dict.find?_insert] at hfield
    split at hfield
    · next hkey =>
      subst hkey
      obtain rfl := Option.some.inj hfield
      cases hlink : info.fields.find? key with
      | none =>
        rw [hlink] at hname
        exact hname
      | some link =>
        rw [hlink] at hname
        exact h.named key link hlink hname
    · exact h.named key field hfield hname
  list hlist := by
    have hold := h.list hlist
    simp only [Dict.contains, Registry.linked, Dict.find?_insert] at hold ⊢
    split
    · rfl
    · exact hold

private theorem Complete.completed_eq_self (h : info.Complete) : info.completed = info := by
  have hnamed : info.fields.map Field.named = info.fields :=
    Dict.map_eq_self fun key field hfield => Field.named_eq_self (h.named key field hfield)
  have hfields : info.completed.fields = info.fields := by
    rw [fields_completed, hnamed]
    cases hlist : info.listType with
    | none => rfl
    | some elem => exact if_pos (h.list (by rw [hlist]; rfl))
  rw [completed_eq, hfields]

end ResourceInfo

/-- What is declared of a resource, whatever creates it. -/
def ResourceEntry.unequipped (entry : ResourceEntry F) : ResourceEntry F := ⟨entry.info, none⟩

namespace Registry

variable {r s : Registry F} {info : ResourceInfo} {isPrivate : Bool}

private theorem linked_eq_self {part child : String} {link : Field}
    (hlink : info.fields.find? part = some link)
    (hpublic : isPrivate = false → info.isPrivate = false ∧ link.isPrivate = false) :
    linked info part child isPrivate = info := by
  have hflags : (info.isPrivate && isPrivate) = info.isPrivate ∧
      (link.isPrivate && isPrivate) = link.isPrivate := by
    cases isPrivate with
    | false => simp [hpublic rfl]
    | true => simp
  simp only [linked, hlink, Option.getD_some, hflags.1, hflags.2, Dict.insert_of_find? hlink]

private theorem Links.linkedTo_eq_self {current part : String}
    (h : r.Links current part isPrivate) : r.linkedTo isPrivate current part = r := by
  obtain ⟨entry, link, hentry, hlink, hpublic⟩ := h
  have hparent : r.linkedParent isPrivate current part = entry := by
    simp only [linkedParent, parent, hentry, Option.getD_some, linked_eq_self hlink hpublic]
  rw [Registry.linkedTo, hparent]
  exact congrArg Registry.mk (Dict.insert_of_find? hentry)

private theorem linkChain_eq_self {current : String} {parts : List String}
    (h : ∀ front part back, parts = front ++ part :: back →
      r.Links (Dotted.below current front) part isPrivate) :
    linkChain isPrivate current parts r = r := by
  induction parts generalizing current with
  | nil => rfl
  | cons part parts ih =>
    have hfirst : r.Links current part isPrivate := h [] part parts rfl
    rw [linkChain_cons, hfirst.linkedTo_eq_self]
    apply ih
    intro front next back hparts
    exact h (part :: front) next back (by rw [hparts, List.cons_append])

private theorem addResource_of_links (hvalid : validateName info.id = .ok ())
    (hnew : r.contains info.id = false)
    (hlinks : ∀ above part, IsPart part → Heads (above ++ "." ++ part) info.id →
      r.Links above part info.isPrivate) :
    r.addResource info = .ok ⟨r.entries.insert info.id ⟨info.completed, none⟩⟩ := by
  obtain ⟨r', hadd⟩ := addResource_succeeds_iff.mpr ⟨hvalid, hnew⟩
  rw [hadd, addResource_eq_ok hadd]
  obtain ⟨first, rest, hparts⟩ := Dotted.exists_parts_eq_cons info.id
  simp only [ensureChain, hparts]
  apply congrArg Except.ok
  apply linkChain_eq_self
  intro front part back hrest
  have hmem : part ∈ Dotted.parts info.id := by
    rw [hparts, hrest]
    simp
  have hheads : Heads (Dotted.below first front ++ "." ++ part) info.id :=
    Dotted.heads_of_parts (hrest ▸ hparts)
  rw [links_congr]
  · exact hlinks _ part (Dotted.isPart_of_mem_parts hmem) hheads
  · rw [resource?_insert, if_neg hheads.ne_of_below]

/-- A registry without its factories. -/
def unequipped (r : Registry F) : Registry F := ⟨r.entries.map fun _ entry => entry.unequipped⟩

private theorem schema_unequipped (r : Registry F) : r.unequipped.schema = r.schema := by
  simp [schema, unequipped, ResourceEntry.unequipped, Dict.map]

/-- Whether all is there that a declaration brings about, of the resources and of what is above
them. -/
structure Settled (r : Registry F) : Prop where
  id : ∀ name entry, r.resource? name = some entry → entry.info.id = name
  complete : ∀ name entry, r.resource? name = some entry → entry.info.Complete
  links : ∀ name entry above part, r.resource? name = some entry → IsPart part →
    Heads (above ++ "." ++ part) name → r.Links above part entry.info.isPrivate

private theorem settled_serveAll (requests : List (Request F)) :
    (empty.serveAll requests).Settled := by
  have hkept : Kept fun name info => info.id = name ∧ info.Complete := by
    constructor
    · intro current parts info isPrivate _
      exact ⟨rfl, nofun, nofun⟩
    · intro name info part child isPrivate hinfo
      exact ⟨hinfo.1, hinfo.2.linked part child isPrivate⟩
  have heach : (empty.serveAll requests).Each fun name info => info.id = name ∧ info.Complete := by
    apply hkept.serveAll each_empty
    intro info _ _
    exact ⟨by rw [info.completed_eq], info.complete_completed⟩
  have hchained := chained_empty.serveAll requests
  constructor
  · intro name entry hentry
    exact (heach name entry hentry).1
  · intro name entry hentry
    exact (heach name entry hentry).2
  · intro name entry above part hentry hpart hheads
    exact hchained.links hentry hpart hheads

theorem Settled.declarations_schema (h : r.Settled) :
    r.schema.declarations = r.entries.entries.map (·.2.info) := by
  simp only [Schema.declarations, schema, Dict.map, List.map_map]
  apply List.map_congr_left
  intro e he
  have hid := h.id e.1 e.2 (Entries.lookup_of_mem r.entries.ordered he)
  simp only [Function.comp_apply]
  split
  · rw [← hid]
  · rfl

/-- Whether some of the resources of a registry are there in another one, as they are declared. The
others are still to come. -/
structure Partway (r s : Registry F) (before after : List (String × ResourceEntry F)) : Prop where
  entries : r.entries.entries = before ++ after
  there : s.entries.entries = before.map fun e => (e.1, e.2.unequipped)

namespace Partway

variable {before after : List (String × ResourceEntry F)} {name : String}
  {entry : ResourceEntry F}

private theorem resource? (h : r.Partway s before ((name, entry) :: after)) :
    r.resource? name = some entry := by
  apply Entries.lookup_of_mem r.entries.ordered
  rw [h.entries]
  exact List.mem_append_right _ List.mem_cons_self

theorem lt_next (h : r.Partway s before ((name, entry) :: after)) :
    ∀ e ∈ s.entries.entries, e.1 < name := by
  have hordered := r.entries.ordered
  rw [h.entries] at hordered
  intro e he
  rw [h.there] at he
  obtain ⟨old, hold, rfl⟩ := List.mem_map.mp he
  exact (List.pairwise_append.mp hordered).2.2 old hold (name, entry) List.mem_cons_self

private theorem contains_next (h : r.Partway s before ((name, entry) :: after)) :
    s.contains name = false := by
  apply resource?_eq_none_iff.mp
  apply List.lookup_eq_none_iff.mpr
  intro e he
  simpa using (Std.ne_of_lt (h.lt_next e he)).symm

private theorem resource?_above (h : r.Partway s before ((name, entry) :: after)) {above : String}
    {parent : ResourceEntry F} (hparent : r.resource? above = some parent)
    (hheads : Heads above name) (hne : above ≠ name) :
    s.resource? above = some parent.unequipped := by
  have hordered := r.entries.ordered
  rw [h.entries] at hordered
  obtain ⟨_, hnext, _⟩ := List.pairwise_append.mp hordered
  have hmem : (above, parent) ∈ r.entries.entries := Table.mem_of_lookup hparent
  rw [h.entries] at hmem
  apply Entries.lookup_of_mem s.entries.ordered
  rw [h.there]
  -- a name above another comes before it in order, so that it is not among those to come
  rcases List.mem_append.mp hmem with hbefore | hmem
  · exact List.mem_map.mpr ⟨_, hbefore, rfl⟩
  · rcases List.mem_cons.mp hmem with heq | hafter
    · exact absurd (congrArg Prod.fst heq) hne
    · have hlt : name < above := (List.pairwise_cons.mp hnext).1 _ hafter
      exact absurd hlt hheads.not_lt

private theorem insert (h : r.Partway s before ((name, entry) :: after)) :
    r.Partway ⟨s.entries.insert name entry.unequipped⟩ (before ++ [(name, entry)]) after where
  entries := by rw [h.entries, List.append_assoc, List.singleton_append]
  there := by
    rw [List.map_append, ← h.there]
    exact Entries.insert_append h.lt_next

private theorem eq_unequipped (h : r.Partway s before []) : s = r.unequipped := by
  have hentries := h.entries
  rw [List.append_nil] at hentries
  cases s with
  | mk entries =>
    cases entries with
    | mk entries ordered =>
      simp only [unequipped, Dict.map, hentries, mk.injEq, Dict.mk.injEq]
      exact h.there

end Partway

namespace Settled

variable {before after : List (String × ResourceEntry F)} {name : String}
  {entry : ResourceEntry F}

private theorem addResource (h : r.Settled) (hpartway : r.Partway s before ((name, entry) :: after))
    (hvalid : validateName name = .ok ()) :
    s.addResource entry.info = .ok ⟨s.entries.insert name entry.unequipped⟩ := by
  have hentry := hpartway.resource?
  obtain rfl := h.id name entry hentry
  have hlinks : ∀ above part, IsPart part → Heads (above ++ "." ++ part) entry.info.id →
      s.Links above part entry.info.isPrivate := by
    intro above part hpart hheads
    obtain ⟨parent, link, hparent, hlink, hpublic⟩ :=
      h.links _ entry above part hentry hpart hheads
    have habove := hpartway.resource?_above hparent hheads.of_below hheads.ne_of_below
    exact ⟨parent.unequipped, link, habove, hlink, hpublic⟩
  have hadd := addResource_of_links hvalid hpartway.contains_next hlinks
  rw [(h.complete _ entry hentry).completed_eq_self] at hadd
  exact hadd

private theorem addResources (h : r.Settled) (hpartway : r.Partway s before after)
    (hvalid : ∀ e ∈ after, validateName e.1 = .ok ()) :
    s.addResources (after.map (·.2.info)) = (r.unequipped, .ok ()) := by
  -- what is there grows at its end by the resource that is declared
  induction after generalizing before s with
  | nil => rw [List.map_nil, Registry.addResources, hpartway.eq_unequipped]
  | cons e after ih =>
    obtain ⟨hnext, hafter⟩ := List.forall_mem_cons.mp hvalid
    rw [List.map_cons, Registry.addResources, h.addResource hpartway hnext]
    exact ih hpartway.insert hafter

private theorem loadSchema_schema (h : r.Settled)
    (hvalid : ∀ name ∈ r.names, validateName name = .ok ()) :
    (empty : Registry F).loadSchema r.schema = (r.unequipped, .ok ()) := by
  have hpartway : r.Partway empty [] r.entries.entries := ⟨(List.nil_append _).symm, rfl⟩
  rw [loadSchema_eq, h.declarations_schema]
  apply h.addResources hpartway
  intro e he
  exact hvalid e.1 (List.mem_map_of_mem he)

private theorem valid_of_loadSchema (h : r.Settled)
    (hok : ((empty : Registry F).loadSchema r.schema).2 = .ok ()) :
    ∀ name ∈ r.names, validateName name = .ok () := by
  rw [loadSchema_eq, h.declarations_schema, addResources_succeeds_iff] at hok
  intro name hname
  obtain ⟨e, he, rfl⟩ := List.mem_map.mp hname
  rw [← h.id e.1 e.2 (Entries.lookup_of_mem r.entries.ordered he)]
  exact (hok.1 e.2.info (List.mem_map.mpr ⟨e, he, rfl⟩)).1

end Settled

private theorem validateName_serveAll_iff (requests : List (Request F)) :
    (∀ name ∈ (empty.serveAll requests).names, validateName name = .ok ()) ↔
      ∀ name ∈ (empty.serveAll requests).names, trim name.toList ≠ [] := by
  have hbrief : (empty.serveAll requests).Each fun name _ => IsBrief name :=
    kept_isBrief.serveAll each_empty fun info _ hvalid => isBrief_of_validateName hvalid
  apply forall₂_congr
  intro name hname
  obtain ⟨e, he, rfl⟩ := List.mem_map.mp hname
  have hentry := Entries.lookup_of_mem (empty.serveAll requests).entries.ordered he
  simp [validateName_eq_ok_iff, hbrief e.1 e.2 hentry]

/-- Whatever is asked of a registry, its schema can be loaded exactly if none of its names is blank,
and then what is loaded has the same schema. -/
theorem loadSchema_schema_iff (requests : List (Request F)) :
    (((empty : Registry F).loadSchema (empty.serveAll requests).schema).2 = .ok () ↔
      ∀ name ∈ (empty.serveAll requests).names, trim name.toList ≠ []) ∧
    ((∀ name ∈ (empty.serveAll requests).names, trim name.toList ≠ []) →
      ((empty : Registry F).loadSchema (empty.serveAll requests).schema).1.schema =
        (empty.serveAll requests).schema) := by
  have hsettled := settled_serveAll requests
  rw [← validateName_serveAll_iff]
  refine ⟨⟨hsettled.valid_of_loadSchema, ?_⟩, ?_⟩
  · intro hvalid
    rw [hsettled.loadSchema_schema hvalid]
  · intro hvalid
    rw [hsettled.loadSchema_schema hvalid]
    exact schema_unequipped _

/-- A hidden system that is created in some way of its own, and the parts of its disk. -/
def partsRequests : List (Request Unit) :=
  [.declare { ResourceInfo.plain "os" with
      fields := .ofList [("name", .plain "" .string)], isPrivate := true },
    .equip "os" (), .declare partsInfo]

/-- The disk that came about with its parts is declared before them. -/
theorem loadSchema_partsRequests :
    (empty.serveAll partsRequests).names = ["os", "os.disk", "os.disk.parts"] ∧
      ((empty : Registry Unit).loadSchema (empty.serveAll partsRequests).schema).2 = .ok () ∧
      ((empty : Registry Unit).loadSchema (empty.serveAll partsRequests).schema).1.schema =
        (empty.serveAll partsRequests).schema := by
  have hnames : (empty.serveAll partsRequests).names = ["os", "os.disk", "os.disk.parts"] := by
    decide +kernel
  have hblank : ∀ name ∈ (empty.serveAll partsRequests).names, trim name.toList ≠ [] := by
    rw [hnames]
    decide
  obtain ⟨hiff, hschema⟩ := loadSchema_schema_iff partsRequests
  exact ⟨hnames, hiff.mpr hblank, hschema hblank⟩

/-- A disk of a system without a name can be declared, but what comes about above it cannot. -/
theorem not_loaded_namelessSystem :
    ∃ r, (empty : Registry Unit).addResource (.plain ".disk") = .ok r ∧ r.names = ["", ".disk"] ∧
      ((empty : Registry Unit).loadSchema r.schema).2 = .error (.invalidName "") :=
  ⟨_, rfl, by decide +kernel, rfl⟩

end Registry

end AssetQuery
