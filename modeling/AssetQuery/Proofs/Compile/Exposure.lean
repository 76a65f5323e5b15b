import AssetQuery.Proofs.Compile.WellFormed
import AssetQuery.Proofs.Registry.Each

/-!
# What compiled code may touch

A query reads of resources what their declarations show to it, and as what they declare it; it
creates only resources that are shown, with arguments that are declared. Functions of lists read the
field `list` whatever is declared of it, so that this takes a registry that declares no such field
of a list in a way of its own.
-/

namespace AssetQuery

variable {F : Type} {registry : Registry F} {roots : Prop} {scope : Option Ty} {code code' : Code}
  {c : Chunk} {resource : String}

section Lists

/-- Whether every query may read the field `list` of a resource that is a list, as a list of its
elements. -/
def ResourceInfo.ListsOpenly (info : ResourceInfo) : Prop :=
  ∀ elem, info.listType = some elem →
    ∃ field, info.fields.find? "list" = some field ∧ field.isPrivate = false ∧
      field.typ = .array elem

instance (info : ResourceInfo) : Decidable info.ListsOpenly :=
  inferInstanceAs (Decidable (∀ elem ∈ info.listType, ∃ field ∈ info.fields.find? "list",
    field.isPrivate = false ∧ field.typ = .array elem))

private theorem Registry.kept_listsOpenly : Kept fun _ info => info.ListsOpenly where
  plain _ _ _ _ _ := nofun
  linked name info part child isPrivate h := by
    intro elem helem
    obtain ⟨field, hfield, hpublic, htype⟩ := h elem helem
    simp only [linked, Dict.find?_insert]
    by_cases hpart : "list" = part
    · rw [if_pos hpart, ← hpart, hfield]
      refine ⟨_, rfl, ?_, htype⟩
      simp [hpublic]
    · exact ⟨field, by rw [if_neg hpart, hfield], hpublic, htype⟩

end Lists

namespace Code

/-- Whether a chunk, if it is called on a resource, reads a field of it that is declared and public,
as what is declared of the field. -/
def ReadsOpenly (code : Code) (registry : Registry F) (c : Chunk) : Prop :=
  c.kind = .function → c.binding ≠ 0 → ∀ resource,
    code.chunkType? c.binding = some (.resource resource) →
    ∃ field, registry.field? resource c.id = some field ∧ field.isPrivate = false ∧
      c.function.map (·.typ) = some field.typ

/-- Whether a chunk, if it is called on nothing, creates a public resource with arguments that are
fields of it, each given once and of a type that fits. -/
def CreatesOpenly (code : Code) (registry : Registry F) (c : Chunk) : Prop :=
  c.kind = .function → c.binding = 0 → ∃ entry, registry.resource? c.id = some entry ∧
    entry.info.isPrivate = false ∧ ∃ pairs : List (String × Primitive),
      c.args = pairs.flatMap (fun a => [.string a.1, a.2]) ∧ (pairs.map Prod.fst).Nodup ∧
      ∀ a ∈ pairs, ∃ field t, entry.info.fields.find? a.1 = some field ∧
        code.dereference? a.2 = some t ∧ t.compatible field.typ

/-- Whether a code, with all its blocks, touches only what a registry shows. -/
inductive Exposed (registry : Registry F) : Code → Prop
  | intro {code : Code} (reads : ∀ c ∈ code.chunks, code.ReadsOpenly registry c)
    (creations : ∀ c ∈ code.chunks, code.CreatesOpenly registry c)
    (functions : ∀ block ∈ code.functions, Exposed registry block) : Exposed registry code

section Types

theorem HasType.chunkType? {r : Ref} {t : Ty} (h : code.HasType r t) :
    code.chunkType? r = some t := chunkType?_of_typeStep h.2

private theorem Operand.dereference? {p : Primitive} {t : Ty} (h : code.Operand p t) :
    code.dereference? p = some t := by
  cases h with
  | @chunk r t h =>
    have hr : (Primitive.ref r).asRef = .ok r := Primitive.asRef_scalar .ref r
    have htyp : (Primitive.ref r).typ = .ref := rfl
    rw [Code.dereference?, if_pos htyp, hr]
    exact h.chunkType?
  | constant h =>
    have htyp := Ty.ne_ref_of_isLiteral (Literal.toPrimitive_written h).isLiteral
    rw [Code.dereference?, if_neg htyp]

theorem chunkType?_congr (h : code'.chunks = code.chunks) (r : Ref) :
    code'.chunkType? r = code.chunkType? r := by
  have hstep (r : Ref) : code'.typeStep r = code.typeStep r := by
    rw [typeStep, typeStep, chunk?, chunk?, h]
  have hwithin (steps : Nat) (r : Ref) : code'.typeWithin steps r = code.typeWithin steps r := by
    induction steps generalizing r with
    | zero => rfl
    | succ steps ih => simp only [typeWithin, hstep, ih]
  rw [chunkType?, chunkType?, h]
  exact hwithin _ r

private theorem dereference?_congr (h : code'.chunks = code.chunks) (p : Primitive) :
    code'.dereference? p = code.dereference? p := by
  rw [dereference?, dereference?]
  simp only [chunkType?_congr h]

end Types

private theorem argumentNames_flatMap (pairs : List (String × Primitive)) :
    argumentNames (pairs.flatMap fun a => [.string a.1, a.2]) =
      pairs.map fun a => .string a.1 := by
  induction pairs with
  | nil => rfl
  | cons a rest ih =>
    simp only [List.flatMap_cons, List.cons_append, List.nil_append, argumentNames, ih,
      List.map_cons]

private theorem Describes.exists_pairs {info : ResourceInfo} {ps : List Primitive}
    (h : code.Describes info ps) (hnames : (argumentNames ps).Nodup) :
    ∃ pairs : List (String × Primitive), ps = pairs.flatMap (fun a => [.string a.1, a.2]) ∧
      (pairs.map Prod.fst).Nodup ∧ ∀ a ∈ pairs, ∃ field t, info.fields.find? a.1 = some field ∧
        code.dereference? a.2 = some t ∧ t.compatible field.typ := by
  induction h with
  | nil => exact ⟨[], rfl, .nil, nofun⟩
  | @cons name field p t rest hfield hp hfits _ ih =>
    rw [argumentNames, List.nodup_cons] at hnames
    obtain ⟨pairs, rfl, hdistinct, hpairs⟩ := ih hnames.2
    have hnew : name ∉ pairs.map Prod.fst := by
      intro hname
      obtain ⟨a, ha, rfl⟩ := List.mem_map.mp hname
      apply hnames.1
      rw [argumentNames_flatMap]
      exact List.mem_map.mpr ⟨a, ha, rfl⟩
    refine ⟨(name, p) :: pairs, by simp, ?_, ?_⟩
    · rw [List.map_cons]
      exact List.nodup_cons.mpr ⟨hnew, hdistinct⟩
    · intro a ha
      rcases List.mem_cons.mp ha with rfl | ha
      · exact ⟨field, t, hfield, hp.dereference?, hfits⟩
      · exact hpairs a ha

variable (hlists : registry.Each fun _ info => info.ListsOpenly)

include hlists

private theorem Admits.readsOpenly (h : code.Admits ⟨registry, .standard⟩ roots c) :
    code.ReadsOpenly registry c := by
  intro hkind hbinding resource htype
  have hreceiver {t : Ty} (ht : code.HasType c.binding t) : t = .resource resource :=
    Option.some.inj (ht.chunkType?.symm.trans htype)
  cases h with
  | constant => cases hkind
  | resource => exact absurd rfl hbinding
  | field ht hfield hpublic =>
    obtain rfl := hreceiver ht
    exact ⟨_, hfield, hpublic, rfl⟩
  | function ht _ hlookup =>
    obtain rfl := hreceiver ht
    exact absurd rfl (Builtins.underlying_of_simple hlookup)
  | contains ht hlookup hfinds =>
    obtain rfl := hreceiver ht
    have hsound := Builtins.sound_standard hlookup
    cases hfinds with
    | item => cases hsound
    | part => cases hsound
    | parts => cases hsound
  | list ht _ _ helem =>
    obtain rfl := hreceiver ht
    obtain ⟨entry, hentry, helem⟩ := Option.bind_eq_some_iff.mp helem
    obtain ⟨field, hfield, hpublic, htyp⟩ := hlists resource entry hentry _ helem
    refine ⟨field, ?_, hpublic, congrArg some htyp.symm⟩
    have hentry : registry.resource? resource = some entry := hentry
    rw [Registry.field?, hentry]
    exact hfield
  | length ht => cases hreceiver ht
  | filter ht => cases hreceiver ht

omit hlists

private theorem Admits.createsOpenly (h : code.Admits ⟨registry, .standard⟩ roots c) :
    code.CreatesOpenly registry c := by
  intro hkind hbinding
  cases h with
  | constant => cases hkind
  | resource _ hentry hps hpublic hnames =>
    exact ⟨_, hentry, hpublic, hps.exists_pairs hnames⟩
  | field ht => exact absurd hbinding ht.ne_zero
  | function ht => exact absurd hbinding ht.ne_zero
  | contains ht => exact absurd hbinding ht.ne_zero
  | list ht => exact absurd hbinding ht.ne_zero
  | length ht => exact absurd hbinding ht.ne_zero
  | filter ht => exact absurd hbinding ht.ne_zero

include hlists

private theorem Assembled.exposed_of_functions
    (h : code.Assembled ⟨registry, .standard⟩ roots scope)
    (hfunctions : ∀ block ∈ code.functions, block.Exposed registry) : code.Exposed registry := by
  have hchunk (c : Chunk) (hc : c ∈ code.chunks) :
      c.kind = .property ∨ code.Admits ⟨registry, .standard⟩ roots c := by
    obtain ⟨i, hi⟩ := List.mem_iff_getElem?.mp hc
    rcases h.chunk_cases hi with ⟨_, _, _, rfl⟩ | ⟨_, _, _, hgrows, _, hadmits⟩
    · exact .inl rfl
    · exact .inr (hadmits.of_within hgrows.within)
  apply Exposed.intro
  · intro c hc hkind
    rcases hchunk c hc with hproperty | hadmits
    · cases hkind.symm.trans hproperty
    · exact hadmits.readsOpenly hlists hkind
  · intro c hc hkind
    rcases hchunk c hc with hproperty | hadmits
    · cases hkind.symm.trans hproperty
    · exact hadmits.createsOpenly hkind
  · exact hfunctions

private theorem Assembled.exposed (h : code.Assembled ⟨registry, .standard⟩ roots scope) :
    code.Exposed registry := by
  apply h.exposed_of_functions hlists
  induction h with
  | empty => exact nofun
  | start => exact nofun
  | chunk _ _ ih => exact ih
  | function _ hblock ih ihblock =>
    intro f hf
    rcases List.mem_append.mp hf with hf | hf
    · exact ih f hf
    · obtain rfl := List.mem_singleton.mp hf
      exact hblock.exposed_of_functions hlists ihblock
  | entrypoint _ _ ih => exact ih

omit hlists

private theorem Exposed.stamp (h : code.Exposed registry) (digest : Digest) :
    (code.stamp digest).Exposed registry := by
  induction h with
  | @intro code reads creations _ ih =>
    obtain ⟨hchunks, _, _, hfunctions⟩ := stamp_eq digest code
    apply Exposed.intro
    · intro c hc hkind hbinding resource htype
      rw [chunkType?_congr hchunks] at htype
      exact reads c (hchunks ▸ hc) hkind hbinding resource htype
    · intro c hc
      simp only [CreatesOpenly, dereference?_congr hchunks]
      exact creations c (hchunks ▸ hc)
    · intro f hf
      obtain ⟨block, hblock, rfl⟩ := List.mem_map.mp (hfunctions ▸ hf)
      exact ih block hblock

end Code

namespace Vocabulary

/-- Whatever was asked of a registry, if no declaration that it took over hides the field `list` of
a list or gives it another type: a compiled code, with all its blocks, reads of resources only
public fields, as what is declared of them, and creates only public resources, each from arguments
that are different fields of it and fit them. -/
theorem exposed_of_compile {requests : List (Registry.Request F)}
    (hlists : ∀ info ∈ Registry.empty.acceptedAll requests, info.completed.ListsOpenly)
    {digest : Digest} {query : List Expr} (hsize : 2 * Expr.bodySize query < 2 ^ 31)
    (h : (⟨Registry.empty.serveAll requests, .standard⟩ : Vocabulary F).compile digest query =
      .ok code) : code.Exposed (Registry.empty.serveAll requests) := by
  have heach : (Registry.empty.serveAll requests).Each fun _ info => info.ListsOpenly :=
    Registry.kept_listsOpenly.serveAll Registry.each_empty fun info hinfo _ => hlists info hinfo
  have hquery : ∀ e ∈ query, True ∨ e.rootless := fun _ _ => .inl trivial
  obtain ⟨built, rfl, hassembled⟩ := assembled_of_compile hquery hsize h
  exact (hassembled.exposed heach).stamp digest

/-- A folder, which is a list of files, and the files, of which the path is private. -/
def folderRequests : List (Registry.Request Unit) :=
  [.declare { (ResourceInfo.plain "folder").withField (.plain "path" .string) with
      listType := some (.resource "file") },
    .declare { ResourceInfo.plain "file" with
      fields := .ofList [("content", .plain "content" .string),
        ("path", { Field.plain "path" .string with isPrivate := true })] }]

/-- The files in a folder that read the same. -/
def folderQuery : List Expr :=
  [.call (.root "folder" [⟨some "path", .literal (.string "etc")⟩]) "where"
    [⟨none, .block [.call (.root "content" []) "==" [⟨none, .literal (.string "readme")⟩]]⟩]]

theorem exposed_folderQuery :
    (∀ info ∈ Registry.empty.acceptedAll folderRequests, info.completed.ListsOpenly) ∧
      2 * Expr.bodySize folderQuery < 2 ^ 31 ∧
      ∃ code, (⟨Registry.empty.serveAll folderRequests, .standard⟩ : Vocabulary Unit).compile
          (fun _ => "") folderQuery = .ok code ∧
        code.Exposed (Registry.empty.serveAll folderRequests) ∧
        code.chunks.map (·.id) = ["folder", "list", "where"] ∧
        code.functions.map (fun f => f.chunks.map (·.id)) = [["_", "content", "=="]] := by
  have hlists : ∀ info ∈ Registry.empty.acceptedAll folderRequests,
      info.completed.ListsOpenly := by
    decide +kernel
  have hsize : 2 * Expr.bodySize folderQuery < 2 ^ 31 := by decide +kernel
  have hseen : ((⟨Registry.empty.serveAll folderRequests, .standard⟩ : Vocabulary Unit).compile
      (fun _ => "") folderQuery).toOption.map (fun code => (code.chunks.map (·.id),
        code.functions.map fun f => f.chunks.map (·.id))) =
      some (["folder", "list", "where"], [["_", "content", "=="]]) := by
    decide +kernel
  obtain ⟨code, hcode, hids⟩ := Except.exists_of_toOption_map hseen
  obtain ⟨hchunks, hfunctions⟩ := Prod.mk.inj hids
  exact ⟨hlists, hsize, code, hcode, exposed_of_compile hlists hsize hcode, hchunks, hfunctions⟩

/-- A list of texts with a private field `list` of its own. -/
def hiddenRequests : List (Registry.Request Unit) :=
  [.declare { ResourceInfo.plain "files" with
      listType := some .string
      fields := .ofList [("list", { Field.plain "list" .int with isPrivate := true })] }]

/-- A call of the field is refused, but the length of the list is of a list that reads it, as
something that it is not declared to be. -/
theorem not_exposed_hiddenQuery :
    (⟨Registry.empty.serveAll hiddenRequests, .standard⟩ : Vocabulary Unit).compile
        (fun _ => "") [.path "files.list"] = .error (.unknownField "files" "list") ∧
      ∃ code, (⟨Registry.empty.serveAll hiddenRequests, .standard⟩ : Vocabulary Unit).compile
          (fun _ => "") [.path "files.length"] = .ok code ∧
        ¬code.Exposed (Registry.empty.serveAll hiddenRequests) := by
  have hrefused : ((⟨Registry.empty.serveAll hiddenRequests, .standard⟩ :
      Vocabulary Unit).compile (fun _ => "") [.path "files.list"]).map (fun _ => ()) =
      .error (.unknownField "files" "list") := by
    decide +kernel
  have hseen : ((⟨Registry.empty.serveAll hiddenRequests, .standard⟩ : Vocabulary Unit).compile
      (fun _ => "") [.path "files.length"]).toOption.map (fun code =>
        (code.chunks[1]?.map fun c => (c.kind, c.id, c.binding), code.chunkType? 1)) =
      some (some (.function, "list", 1), some (.resource "files")) := by
    decide +kernel
  obtain ⟨code, hcode, hchunk⟩ := Except.exists_of_toOption_map hseen
  obtain ⟨hlist, htype⟩ := Prod.mk.inj hchunk
  obtain ⟨c, hc, hlist⟩ := Option.map_eq_some_iff.mp hlist
  obtain ⟨hkind, hlist⟩ := Prod.mk.inj hlist
  obtain ⟨hid, hbinding⟩ := Prod.mk.inj hlist
  refine ⟨?_, code, hcode, ?_⟩
  · exact Except.eq_error_of_map hrefused
  · rintro ⟨reads, _, _⟩
    obtain ⟨field, hfield, hpublic, _⟩ := reads c (List.mem_of_getElem? hc) hkind
      (by rw [hbinding]; decide) "files" (by rw [hbinding]; exact htype)
    have hhidden : ∀ field ∈ (Registry.empty.serveAll hiddenRequests).field? "files" "list",
        field.isPrivate = true := by
      decide +kernel
    rw [hid] at hfield
    cases (hhidden field hfield).symm.trans hpublic

end Vocabulary

end AssetQuery
