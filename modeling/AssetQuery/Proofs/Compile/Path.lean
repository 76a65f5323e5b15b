import AssetQuery.Proofs.Code.Growth
import AssetQuery.Proofs.Compile.Build
import AssetQuery.Proofs.Entries
import AssetQuery.Proofs.Registry.Each

/-!
# Paths to resources

A public resource is reached by the parts of its name, one call for each: the links on the way down
to it are public and lead to the resources that are named by more and more of the parts. This takes
that no resource on the way was declared with a field in the place of its link.
-/

namespace AssetQuery

open Dotted (IsPart Heads)

variable {F : Type}

namespace Dotted

private theorem length_splitChars_le (text : List Char) :
    (splitChars text).length ≤ text.length + 1 := by
  induction text with
  | nil => exact Nat.le_refl _
  | cons c rest ih =>
    simp only [splitChars]
    by_cases hc : c = '.'
    · simp [hc]
      exact ih
    · rw [if_neg hc]
      split
      · next hrest =>
        rw [hrest] at ih
        simpa using Nat.le_succ_of_le ih
      · simp

private theorem length_le_byteLength (text : List Char) :
    text.length ≤ byteLength (String.ofList text) := by
  induction text with
  | nil => exact Nat.zero_le _
  | cons c rest ih =>
    have hc : 0 < byteLength (String.ofList [c]) := by
      simpa [byteLength] using Char.utf8Size_pos c
    rw [← List.singleton_append, String.ofList_append]
    simp only [byteLength, String.utf8ByteSize_append] at ih hc ⊢
    simp only [List.singleton_append, List.length_cons]
    omega

private theorem length_parts_le (name : String) : (parts name).length ≤ byteLength name + 1 := by
  have hsplit := length_splitChars_le name.toList
  have hbytes := length_le_byteLength name.toList
  rw [String.ofList_toList] at hbytes
  simp only [parts, List.length_map]
  omega

end Dotted

namespace Registry

variable {r : Registry F} {declared infos : List ResourceInfo}

/-- Whether the parts below a resource lead, one after the other, over public links to the resources
of their names. -/
inductive Leads (r : Registry F) : String → List String → Prop
  | nil {current : String} : Leads r current []
  | cons {current part : String} {rest : List String} {link : Field} :
    r.field? current part = some link → link.isPrivate = false →
    link.typ = .resource (current ++ "." ++ part) → Leads r (current ++ "." ++ part) rest →
    Leads r current (part :: rest)

/-- Whether no resource was declared with a field that has the name of the next part of a declared
resource below it. -/
def Unobstructed (r : Registry F) (declared : List ResourceInfo) : Prop :=
  ∀ above part name, IsPart part → Owns declared above part → r.contains name →
    ¬Heads (above ++ "." ++ part) name

private theorem Chained.leads (h : Chained declared (fun _ => False) r)
    (hfree : r.Unobstructed declared)
    {current : String} {rest : List String} (hparts : ∀ part ∈ rest, IsPart part)
    {entry : ResourceEntry F} (hentry : r.resource? (Dotted.below current rest) = some entry)
    (hpublic : entry.info.isPrivate = false) : r.Leads current rest := by
  induction rest generalizing current with
  | nil => exact .nil
  | cons part rest ih =>
    have hpart : IsPart part := hparts part List.mem_cons_self
    have hheads := Dotted.heads_below (current ++ "." ++ part) rest
    obtain ⟨parent, link, hparent, hlink, hvisible⟩ :=
      h.links_of_public hentry hpublic hpart hheads
    have hfield : r.field? current part = some link := by
      rw [field?, hparent]
      exact hlink
    have hdeclared : r.contains (Dotted.below current (part :: rest)) := by
      rw [contains, Dict.contains]
      exact Option.isSome_of_eq_some hentry
    have htype : link.typ = .resource (current ++ "." ++ part) := by
      rcases h.fields current parent part link hparent hlink with howns | hlinked
      · exact absurd hheads (hfree current part _ hpart howns hdeclared)
      · exact hlinked.2
    apply Leads.cons hfield (hvisible rfl).2 htype
    apply ih
    · intro p hp
      exact hparts p (List.mem_cons_of_mem _ hp)
    · exact hentry

private theorem Chained.exists_first (h : Chained declared (fun _ => False) r) {first : String}
    {rest : List String} (hparts : ∀ part ∈ rest, IsPart part) {entry : ResourceEntry F}
    (hentry : r.resource? (Dotted.below first rest) = some entry)
    (hpublic : entry.info.isPrivate = false) :
    ∃ top, r.resource? first = some top ∧ top.info.isPrivate = false := by
  cases rest with
  | nil => exact ⟨entry, hentry, hpublic⟩
  | cons part rest =>
    have hheads := Dotted.heads_below (first ++ "." ++ part) rest
    obtain ⟨top, _, htop, _, hvisible⟩ :=
      h.links_of_public hentry hpublic (hparts part List.mem_cons_self) hheads
    exact ⟨top, htop, (hvisible rfl).1⟩

private theorem accepted_of_addResources {r' : Registry F}
    (h : r.addResources infos = (r', .ok ())) : r.accepted infos = infos := by
  induction infos generalizing r with
  | nil => rfl
  | cons info rest ih =>
    rw [addResources] at h
    rw [accepted]
    cases hadd : r.addResource info with
    | ok mid =>
      rw [hadd] at h
      simp only [ih h]
    | error e =>
      rw [hadd] at h
      cases h

end Registry

/-- The calls of the parts below a resource, the first of them on chunk `binding`. -/
def pathChunks (binding : Nat) (current : String) : List String → List Chunk
  | [] => []
  | part :: rest =>
    .call part (.resource (current ++ "." ++ part)) (Int32.ofNat binding) [] ::
      pathChunks (binding + 1) (current ++ "." ++ part) rest

private theorem length_pathChunks (binding : Nat) (current : String) (parts : List String) :
    (pathChunks binding current parts).length = parts.length := by
  induction parts generalizing binding current with
  | nil => rfl
  | cons part rest ih => simp [pathChunks, ih]

private theorem getElem?_pathChunks (binding : Nat) (current : String) {parts : List String}
    {i : Nat} (hi : i < parts.length) :
    ∃ part call, (pathChunks binding current parts)[i]? =
      some (.call part (.resource (Dotted.below current (parts.take (i + 1)))) call []) := by
  induction parts generalizing binding current i with
  | nil => cases hi
  | cons part rest ih =>
    cases i with
    | zero => exact ⟨part, Int32.ofNat binding, rfl⟩
    | succ i =>
      have hi : i < rest.length := Nat.lt_of_succ_lt_succ hi
      simp only [pathChunks, List.getElem?_cons_succ, List.take_succ_cons]
      exact ih _ _ hi

namespace Code

/-- The code with the calls of the parts below the resource that its last chunk gives. -/
def withPath (code : Code) (current : String) (parts : List String) : Code :=
  { code with chunks := code.chunks ++ pathChunks code.chunks.length current parts }

private theorem withPath_nil (code : Code) (current : String) : code.withPath current
    [] = code := by
  cases code
  simp [withPath, pathChunks]

private theorem withPath_cons (code : Code) (current part : String) (rest : List String) :
    code.withPath current (part :: rest) =
      (code.addChunk (.call part (.resource (current ++ "." ++ part)) code.lastRef [])).withPath
        (current ++ "." ++ part) rest := by
  simp [withPath, pathChunks, addChunk, lastRef]

end Code

namespace Vocabulary

open Build (yields_bind yields_pure yields_get yields_modify yields_emit)

variable {v : Vocabulary F} {code : Code}

private theorem method_field (code : Code) {current part : String} {link : Field} (binding : Ref)
    (hfield : v.registry.field? current part = some link) (hpublic : link.isPrivate = false)
    (args : Signature → Ty → Build (List Primitive)) :
    (v.method (.resource current) binding part 0 args).Yields code
      (code.addChunk (.call part link.typ binding [])).lastRef
      (code.addChunk (.call part link.typ binding [])) := by
  have hfound : v.field? (.resource current) part = some link := hfield
  rw [method_eq, hfound]
  simp only [hpublic]
  exact yields_emit.mpr ⟨rfl, rfl⟩

/-- Where parts lead down from the resource that an expression gives, each of them is compiled to a
call on the chunk before. -/
private theorem compileExpr_fields {e : Expr} {current : String} {rest : List String}
    (he : (v.compileExpr none e).Yields .empty code.lastRef code)
    (htype : code.chunkType code.lastRef = .resource current)
    (hroom : code.Room rest.length) (hleads : v.registry.Leads current rest) :
    (v.compileExpr none (e.fields rest)).Yields .empty (code.withPath current rest).lastRef
      (code.withPath current rest) := by
  induction rest generalizing e current code with
  | nil =>
    rw [Code.withPath_nil]
    exact he
  | cons part rest ih =>
    cases hleads with
    | cons hfield hpublic hlink hrest =>
      have hone : code.Room 1 := hroom.mono (Nat.le_add_left 1 _)
      have hcall := method_field code code.lastRef hfield hpublic
      rw [hlink] at hcall
      rw [Code.withPath_cons]
      apply ih (e := .call e part [])
      · rw [compileExpr_call]
        apply yields_bind.mpr
        refine ⟨_, _, he, yields_bind.mpr ⟨_, _, yields_get.mpr ⟨rfl, rfl⟩, ?_⟩⟩
        rw [htype]
        exact hcall _
      · exact Code.chunkType_call (Code.chunk?_addChunk hone _)
      · apply Code.Room.of_grows (m := 1) (hroom.mono (Nat.le_of_eq (Nat.add_comm 1 _)))
        exact .addChunk code _
      · exact hrest

private theorem compileExpr_resource {name : String} {entry : ResourceEntry F}
    (hentry : v.registry.resource? name = some entry) (hpublic : entry.info.isPrivate = false) :
    (v.compileExpr none (.root name [])).Yields .empty 1
      (Code.empty.addChunk (.call name (.resource name) 0 [])) := by
  have hinfo : v.constructible name = pure entry.info := by
    rw [constructible, hentry]
    simp [hpublic]
  rw [compileExpr_root]
  simp only [Option.bind_none]
  apply yields_bind.mpr
  refine ⟨entry.info, .empty, hinfo ▸ yields_pure.mpr ⟨rfl, rfl⟩, yields_bind.mpr ?_⟩
  refine ⟨[], .empty, ?_, yields_emit.mpr ⟨rfl, rfl⟩⟩
  rw [compileNamedArgs_nil]
  exact yields_pure.mpr ⟨rfl, rfl⟩

/-- The compiled path to a resource, before it is stamped. -/
def pathCode (name : String) : Code :=
  match Dotted.parts name with
  | [] => .empty
  | first :: rest => (Code.empty.addChunk (.call first (.resource first) 0 [])).withPath first rest

private theorem length_pathCode (name : String) :
    (pathCode name).chunks.length = (Dotted.parts name).length := by
  rw [pathCode]
  split
  · next h => simp [h, Code.empty]
  · next first rest h => simp [h, Code.withPath, Code.addChunk, Code.empty, length_pathChunks]

private theorem entrypoints_pathCode (name : String) : (pathCode name).entrypoints = [] := by
  rw [pathCode]
  split
  · rfl
  · rfl

private theorem chunk?_pathCode {name : String} (hfits : (Dotted.parts name).length < 2 ^ 31)
    {i : Nat} (hi : i < (Dotted.parts name).length) :
    ∃ part binding, (pathCode name).chunk? (Int32.ofNat (i + 1)) = some
      (.call part (.resource (Dotted.join ((Dotted.parts name).take (i + 1)))) binding []) := by
  rw [Code.chunk?, nth?_ofNat (by omega), pathCode]
  cases hparts : Dotted.parts name with
  | nil =>
    rw [hparts] at hi
    cases hi
  | cons first rest =>
    rw [List.take_succ_cons, Dotted.join_cons]
    cases i with
    | zero => exact ⟨first, 0, by simp [Code.withPath, Code.addChunk, Code.empty, Dotted.below]⟩
    | succ i =>
      have hi : i < rest.length := by
        rw [hparts] at hi
        exact Nat.lt_of_succ_lt_succ hi
      obtain ⟨part, binding, hcall⟩ := getElem?_pathChunks 1 first hi
      exact ⟨part, binding, hcall⟩

private theorem compile_singleton {e : Expr} {ref : Ref} {code : Code}
    (he : (v.compileExpr none e).Yields .empty ref code) (digest : Digest) :
    v.compile digest [e] = .ok ((code.addEntrypoint ref e.label).stamp digest) := by
  have hbody : (v.compileBody none [e]).Yields .empty () (code.addEntrypoint ref e.label) := by
    rw [compileBody_cons, compileBody_nil]
    apply yields_bind.mpr
    refine ⟨ref, code, he, yields_bind.mpr ⟨⟨⟩, _, yields_modify.mpr rfl, ?_⟩⟩
    exact yields_pure.mpr ⟨rfl, rfl⟩
  have houtcome : v.compileBody none [e] Code.empty =
      (.ok (), code.addEntrypoint ref e.label) := hbody
  rw [compile, houtcome]

private theorem compileExpr_path {infos : List ResourceInfo}
    (hchained : Registry.Chained infos (fun _ => False) v.registry)
    (hfree : v.registry.Unobstructed infos) {name : String} {entry : ResourceEntry F}
    (hentry : v.registry.resource? name = some entry) (hpublic : entry.info.isPrivate = false)
    (hfits : (Dotted.parts name).length < 2 ^ 31) :
    (v.compileExpr none (.path name)).Yields .empty (pathCode name).lastRef (pathCode name) := by
  obtain ⟨first, rest, hparts⟩ := Dotted.exists_parts_eq_cons name
  have hrest : ∀ part ∈ rest, IsPart part := by
    intro part hpart
    have hmem : part ∈ Dotted.parts name := by
      rw [hparts]
      exact List.mem_cons_of_mem _ hpart
    exact Dotted.isPart_of_mem_parts hmem
  rw [← Dotted.below_of_parts hparts] at hentry
  obtain ⟨top, htop, htopPublic⟩ := hchained.exists_first hrest hentry hpublic
  have hempty : Code.empty.Room 1 := by
    constructor
    · decide
    · decide
  have hstart : (Code.empty.addChunk (.call first (.resource first) 0 [])).Room rest.length := by
    rw [hparts, List.length_cons] at hfits
    constructor
    · simp only [Code.addChunk, Code.empty, List.nil_append, List.length_singleton]
      omega
    · simp only [Code.addChunk, Code.empty, List.length_nil]
      omega
  rw [Expr.path, pathCode, hparts]
  apply compileExpr_fields
  · exact compileExpr_resource htop htopPublic
  · exact Code.chunkType_call (Code.chunk?_addChunk hempty _)
  · exact hstart
  · exact hchained.leads hfree hrest hentry hpublic

private theorem length_parts_lt {infos : List ResourceInfo} {r : Registry F}
    (hdeclared : Registry.empty.addResources infos = (r, .ok ())) {name : String}
    {entry : ResourceEntry F} (hentry : r.resource? name = some entry) :
    (Dotted.parts name).length < 2 ^ 31 := by
  have hbrief : ((Registry.empty : Registry F).addResources infos).1.Each _ :=
    Registry.kept_isBrief.addResources Registry.each_empty fun _ _ =>
      Registry.isBrief_of_validateName
  rw [hdeclared] at hbrief
  have hbytes := hbrief name entry hentry
  have hlength := Dotted.length_parts_le name
  simp only [Registry.IsBrief, maxNameLength] at hbytes
  omega

/-- Every public resource is reached by its dotted name. The code that this is compiled to has one
chunk for each part of the name, which gives the resource of the parts so far; its entry point is
the last of them. -/
theorem compile_path {infos : List ResourceInfo} {r : Registry F}
    (hdeclared : Registry.empty.addResources infos = (r, .ok ())) (hfree : r.Unobstructed infos)
    {name : String} {entry : ResourceEntry F} (hentry : r.resource? name = some entry)
    (hpublic : entry.info.isPrivate = false) (builtins : Builtins) (digest : Digest) :
    ∃ code, (⟨r, builtins⟩ : Vocabulary F).compile digest [.path name] = .ok code ∧
      code.entrypoints = [code.lastRef] ∧
      code.chunkType? code.lastRef = some (.resource name) ∧
      code.chunks.length = (Dotted.parts name).length ∧
      ∀ i < (Dotted.parts name).length, code.chunkType? (Int32.ofNat (i + 1)) =
        some (.resource (Dotted.join ((Dotted.parts name).take (i + 1)))) := by
  have hchained : Registry.Chained infos (fun _ => False) r := by
    have h := Registry.chained_empty.addResources (r := (Registry.empty : Registry F)) infos
    rw [hdeclared, Registry.accepted_of_addResources hdeclared] at h
    exact h
  have hfits := length_parts_lt hdeclared hentry
  have hpath := compileExpr_path (v := ⟨r, builtins⟩) hchained hfree hentry hpublic hfits
  obtain ⟨hchunks, hentrypoints, _⟩ := Code.stamp_eq digest
    ((pathCode name).addEntrypoint (pathCode name).lastRef (Expr.path name).label)
  have hlast := congrArg (fun chunks : List Chunk => Int32.ofNat chunks.length) hchunks
  have htypes : ∀ i < (Dotted.parts name).length,
      (((pathCode name).addEntrypoint (pathCode name).lastRef (Expr.path name).label).stamp
        digest).chunkType? (Int32.ofNat (i + 1)) =
        some (.resource (Dotted.join ((Dotted.parts name).take (i + 1)))) := by
    intro i hi
    obtain ⟨part, binding, hcall⟩ := chunk?_pathCode hfits hi
    refine Code.chunkType?_call (?_ : Code.chunk? _ _ = some (.call part _ binding []))
    rw [Code.chunk?, hchunks]
    exact hcall
  refine ⟨_, compile_singleton hpath digest, ?_, ?_, ?_, htypes⟩
  · rw [hentrypoints, Code.addEntrypoint, entrypoints_pathCode]
    exact congrArg (fun last => [last]) hlast.symm
  · -- the last of the parts so far is the last part
    obtain ⟨first, rest, hparts⟩ := Dotted.exists_parts_eq_cons name
    have hlength : (pathCode name).chunks.length = rest.length + 1 := by
      rw [length_pathCode, hparts, List.length_cons]
    have hwhole := htypes rest.length (by rw [hparts]; exact Nat.lt_succ_self _)
    rw [hparts, List.take_of_length_le (Nat.le_of_eq (List.length_cons)), ← hparts,
      Dotted.join_parts, ← hlength] at hwhole
    rw [← hwhole]
    exact congrArg _ hlast
  · rw [hchunks]
    exact length_pathCode name

/-- A hidden disk with a capacity, and a public part of it. -/
def partInfos : List ResourceInfo :=
  [{ ResourceInfo.plain "os.disk" with
      fields := .ofList [("capacity", .plain "capacity" .int)], isPrivate := true },
    ResourceInfo.plain "os.disk.part"]

/-- The registry of the disk. -/
def partRegistry : Registry Unit := (Registry.empty.addResources partInfos).1

private theorem owns_partInfos {above part : String} (h : Registry.Owns partInfos above part) :
    above = "os.disk" ∧ part = "capacity" := by
  obtain ⟨info, hinfo, hid, hfield⟩ := h
  obtain ⟨field, hfield⟩ := Option.isSome_iff_exists.mp hfield
  have hentry := Table.mem_of_lookup hfield
  simp only [partInfos, List.mem_cons, List.not_mem_nil, or_false] at hinfo
  rcases hinfo with rfl | rfl
  · have hkeys : ∀ e ∈ (partInfos.head (by decide)).completed.fields.entries,
        e.1 = "capacity" := by decide +kernel
    exact ⟨hid.symm, hkeys _ hentry⟩
  · cases hentry

/-- The part is reached over three chunks, though the disk was declared as private. -/
theorem compile_path_partInfos :
    Registry.empty.addResources partInfos = (partRegistry, .ok ()) ∧
      partRegistry.Unobstructed partInfos ∧
      ∃ entry, partRegistry.resource? "os.disk.part" = some entry ∧
        entry.info.isPrivate = false ∧
        ∃ code, (⟨partRegistry, .standard⟩ : Vocabulary Unit).compile (fun _ => "")
            [.path "os.disk.part"] = .ok code ∧
          code.chunks.length = 3 ∧ code.entrypoints = [code.lastRef] ∧
          code.chunkType? code.lastRef = some (.resource "os.disk.part") ∧
          code.chunkType? 2 = some (.resource "os.disk") := by
  have hdeclared : Registry.empty.addResources partInfos = (partRegistry, .ok ()) :=
    Prod.ext rfl rfl
  have hfree : partRegistry.Unobstructed partInfos := by
    intro above part name _ howns hname hheads
    obtain ⟨rfl, rfl⟩ := owns_partInfos howns
    have hnames : ∀ e ∈ partRegistry.entries.entries, e.1.length < "os.disk.capacity".length := by
      decide +kernel
    obtain ⟨entry, hentry⟩ := Option.isSome_iff_exists.mp hname
    have hshort := hnames _ (Table.mem_of_lookup hentry)
    rcases hheads with rfl | ⟨rest, rfl⟩
    · exact Nat.lt_irrefl _ hshort
    · have hlonger : "os.disk.capacity".length ≤ ("os.disk.capacity" ++ "." ++ rest).length := by
        simp only [String.length_append]
        omega
      exact Nat.lt_irrefl _ (Nat.lt_of_lt_of_le hshort hlonger)
  have hseen : (partRegistry.resource? "os.disk.part").map (·.info.isPrivate) = some false := by
    decide +kernel
  obtain ⟨entry, hentry, hpublic⟩ := Option.map_eq_some_iff.mp hseen
  obtain ⟨code, hcode, hpoints, hlast, hlength, htypes⟩ :=
    compile_path hdeclared hfree hentry hpublic .standard (fun _ => "")
  have hparts : Dotted.parts "os.disk.part" = ["os", "disk", "part"] := by decide +kernel
  rw [hparts] at hlength htypes
  exact ⟨hdeclared, hfree, entry, hentry, hpublic, code, hcode, hlength, hpoints, hlast,
    htypes 1 (by decide)⟩

end Vocabulary

end AssetQuery
