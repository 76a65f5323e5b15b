import AssetQuery.Proofs.Compile.Assembly

/-!
# Well-formed codes

What execution, checksums and the types of chunks rely on: chunks use only chunks before them and
blocks that are there, entry points are chunks, and a block is about one element, which is its first
chunk. Compilation gives nothing else.
-/

namespace AssetQuery

open Build (yields_bind yields_pure yields_modify)

variable {F : Type} {v : Vocabulary F} {roots : Prop} {scope : Option Ty} {code code' : Code}

namespace Code

/-- Whether a number is that of one of the first so many chunks. -/
def Earlier (count : Nat) (r : Ref) : Prop := 0 < r.toInt ∧ r.toInt ≤ count

/-- Whether the first chunk is the element that a block is about, and the only property. -/
def OpensWithElement (code : Code) : Prop :=
  (∃ t, code.chunks[0]? = some (.property "_" t)) ∧
    ∀ i c, code.chunks[i]? = some c → c.kind = .property → i = 0

/-- What is asked of a code, and of its blocks in turn. The chunk with `i` chunks before it may use
none but these. -/
inductive WellFormed : Code → Prop
  | intro {code : Code}
    (bindings : ∀ i c, code.chunks[i]? = some c → c.binding = 0 ∨ Earlier i c.binding)
    (references : ∀ i c, code.chunks[i]? = some c → ∀ p ∈ c.args, p.typ = .ref →
      ∃ r, p.asRef = .ok r ∧ Earlier i r)
    (blocks : ∀ c ∈ code.chunks, ∀ p ∈ c.args, p.typ = .functionLike →
      ∃ k, p.asRef = .ok k ∧ (code.function? k).isSome)
    (entrypoints : ∀ r ∈ code.entrypoints, Earlier code.chunks.length r)
    (functions : ∀ block ∈ code.functions, WellFormed block)
    (elements : ∀ block ∈ code.functions, block.OpensWithElement) : WellFormed code

theorem earlier_of_isSome {r : Ref} (h : (code.chunk? r).isSome) :
    Earlier code.chunks.length r := by
  obtain ⟨c, hc⟩ := Option.isSome_iff_exists.mp h
  obtain ⟨hpos, hc⟩ := getElem?_of_chunk? hc
  have hlt := (List.getElem?_eq_some_iff.mp hc).1
  exact ⟨hpos, by omega⟩

theorem isSome_of_earlier {r : Ref} (h : Earlier code.chunks.length r) :
    (code.chunk? r).isSome := by
  obtain ⟨hpos, hle⟩ := h
  rw [chunk?, nth?, if_pos hpos, List.getElem?_eq_getElem (by omega)]
  rfl

section Admits

variable {c : Chunk} {p : Primitive} {t : Ty}

private theorem Admits.binding (h : code.Admits v roots c) :
    c.binding = 0 ∨ Earlier code.chunks.length c.binding := by
  cases h with
  | constant => exact .inl rfl
  | resource => exact .inl rfl
  | field h => exact .inr (earlier_of_isSome h.1)
  | function h => exact .inr (earlier_of_isSome h.1)
  | contains h => exact .inr (earlier_of_isSome h.1)
  | list h => exact .inr (earlier_of_isSome h.1)
  | length h => exact .inr (earlier_of_isSome h.1)
  | filter h => exact .inr (earlier_of_isSome h.1)

theorem Admits.kind (h : code.Admits v roots c) : c.kind ≠ .property := by
  cases h <;> exact nofun

private theorem Describes.operand {info : ResourceInfo} {ps : List Primitive}
    (h : code.Describes info ps) (hp : p ∈ ps) : ∃ t, code.Operand p t := by
  induction h with
  | nil => cases hp
  | @cons name field q t rest hfield hoperand hfits _ ih =>
    rcases List.mem_cons.mp hp with rfl | hp
    · have hname : (Literal.string name).toPrimitive = .ok (.string name) := by
        rw [Literal.toPrimitive]
      exact ⟨_, .constant hname⟩
    · rcases List.mem_cons.mp hp with rfl | hp
      · exact ⟨t, hoperand⟩
      · exact ih hp

/-- Whether a primitive, as an argument, uses only chunks and blocks of a code. -/
def Uses (code : Code) (p : Primitive) : Prop :=
  (∃ t, code.Operand p t) ∨ ∃ k, p = .function k ∧ (code.function? k).isSome

private theorem Supplies.uses {receiver : Ty} {signature : Signature} {ps : List Primitive}
    (h : code.Supplies v receiver signature ps) (hp : p ∈ ps) : code.Uses p := by
  have hfit := h.fit
  clear h
  generalize signature.args.take ps.length = declared at hfit
  induction hfit with
  | nil => cases hp
  | cons hfirst _ ih =>
    rcases List.mem_cons.mp hp with rfl | hp
    · cases hfirst with
      | operand h => exact .inl ⟨_, h⟩
      | block _ hk => exact .inr ⟨_, rfl, by rw [hk]; rfl⟩
    · exact ih hp

theorem Admits.uses (h : code.Admits v roots c) (hp : p ∈ c.args) : code.Uses p := by
  cases h with
  | constant => cases hp
  | resource _ _ h => exact .inl (h.operand hp)
  | field => cases hp
  | function _ _ _ h => exact h.uses hp
  | contains _ _ _ h => exact .inl ⟨_, List.mem_singleton.mp hp ▸ h⟩
  | list => cases hp
  | length => cases hp
  | filter _ h => exact h.uses hp

private theorem Uses.reference (h : code.Uses p) (htyp : p.typ = .ref) :
    ∃ r, p.asRef = .ok r ∧ Earlier code.chunks.length r := by
  rcases h with ⟨t, h⟩ | ⟨k, rfl, _⟩
  · cases h with
    | @chunk r t h => exact ⟨r, Primitive.asRef_scalar .ref r, earlier_of_isSome h.1⟩
    | constant h =>
      exact absurd htyp (Ty.ne_ref_of_isLiteral (Literal.toPrimitive_written h).isLiteral)
  · cases htyp

private theorem Uses.block (h : code.Uses p) (htyp : p.typ = .functionLike) :
    ∃ k, p.asRef = .ok k ∧ (code.function? k).isSome := by
  rcases h with ⟨t, h⟩ | ⟨k, rfl, hk⟩
  · cases h with
    | chunk => cases htyp
    | constant h =>
      have := (Literal.toPrimitive_written h).isLiteral
      rw [htyp] at this
      cases this
  · exact ⟨k, Primitive.asRef_scalar .functionLike k, hk⟩

end Admits

theorem Assembled.entrypoints (h : code.Assembled v roots scope) :
    ∀ r ∈ code.entrypoints, Earlier code.chunks.length r := by
  induction h with
  | empty => exact nofun
  | start => exact nofun
  | @chunk scope code c h hc ih =>
    intro r hr
    have := (Grows.addChunk code c).chunks.length_le
    exact ⟨(ih r hr).1, by have := (ih r hr).2; omega⟩
  | function _ _ ih => exact ih
  | @entrypoint scope code q label h hq ih =>
    intro r hr
    rcases List.mem_append.mp hr with hr | hr
    · exact ih r hr
    · obtain rfl := List.mem_singleton.mp hr
      exact earlier_of_isSome hq

private theorem Assembled.opensWithElement {bound : Ty} (h : code.Assembled v roots (some bound)) :
    code.OpensWithElement := by
  refine ⟨⟨bound, (getElem?_of_chunk? (h.opens bound rfl)).2⟩, fun i c hc hkind => ?_⟩
  rcases h.chunk_cases hc with ⟨_, _, hi, _⟩ | ⟨_, _, _, _, _, hadmits⟩
  · exact hi
  · exact absurd hkind hadmits.kind

private theorem Assembled.no_property (h : code.Assembled v roots none) :
    ∀ c ∈ code.chunks, c.kind ≠ .property := by
  intro c hc
  obtain ⟨i, hi⟩ := List.mem_iff_getElem?.mp hc
  rcases h.chunk_cases hi with ⟨_, hnone, _⟩ | ⟨_, _, _, _, _, hadmits⟩
  · cases hnone
  · exact hadmits.kind

private theorem Assembled.wellFormed_of_functions (h : code.Assembled v roots scope)
    (hfunctions : ∀ block ∈ code.functions, block.WellFormed ∧ block.OpensWithElement) :
    code.WellFormed := by
  refine .intro (fun i c hc => ?_) (fun i c hc p hp htyp => ?_) (fun c hc p hp htyp => ?_)
    h.entrypoints (fun f hf => (hfunctions f hf).1) fun f hf => (hfunctions f hf).2
  · rcases h.chunk_cases hc with ⟨_, _, _, rfl⟩ | ⟨before, _, _, _, rfl, hadmits⟩
    · exact .inl rfl
    · exact hadmits.binding
  · rcases h.chunk_cases hc with ⟨_, _, _, rfl⟩ | ⟨before, _, _, _, rfl, hadmits⟩
    · cases hp
    · exact (hadmits.uses hp).reference htyp
  · obtain ⟨i, hi⟩ := List.mem_iff_getElem?.mp hc
    rcases h.chunk_cases hi with ⟨_, _, _, rfl⟩ | ⟨before, _, _, hgrows, _, hadmits⟩
    · cases hp
    · obtain ⟨k, hk, hsome⟩ := (hadmits.uses hp).block htyp
      obtain ⟨block, hblock⟩ := Option.isSome_iff_exists.mp hsome
      have hblock : code.function? k = some block := nth?_of_leading hgrows.functions hblock
      exact ⟨k, hk, by rw [hblock]; rfl⟩

private theorem Assembled.wellFormed (h : code.Assembled v roots scope) : code.WellFormed := by
  refine h.wellFormed_of_functions ?_
  induction h with
  | empty => exact nofun
  | start => exact nofun
  | chunk _ _ ih => exact ih
  | @function scope bound code block _ hblock ih ihblock =>
    intro f hf
    rcases List.mem_append.mp hf with hf | hf
    · exact ih f hf
    · obtain rfl := List.mem_singleton.mp hf
      exact ⟨hblock.wellFormed_of_functions ihblock, hblock.opensWithElement⟩
  | entrypoint _ _ ih => exact ih

private theorem WellFormed.stamp (h : code.WellFormed) (digest : Digest) :
    (code.stamp digest).WellFormed := by
  induction h with
  | @intro code bindings references blocks entrypoints _ elements ih =>
    obtain ⟨hchunks, hentrypoints, _, hfunctions⟩ := stamp_eq digest code
    refine .intro ?_ ?_ (fun c hc p hp htyp => ?_) ?_ (fun f hf => ?_) fun f hf => ?_
    · rwa [hchunks]
    · rwa [hchunks]
    · obtain ⟨k, hk, hsome⟩ := blocks c (hchunks ▸ hc) p hp htyp
      refine ⟨k, hk, ?_⟩
      rw [function?, hfunctions, nth?_map, Option.isSome_map]
      exact hsome
    · rwa [hchunks, hentrypoints]
    · obtain ⟨block, hblock, rfl⟩ := List.mem_map.mp (hfunctions ▸ hf)
      exact ih block hblock
    · obtain ⟨block, hblock, rfl⟩ := List.mem_map.mp (hfunctions ▸ hf)
      rw [OpensWithElement, (stamp_eq digest block).1]
      exact elements block hblock

end Code

/-- At the top, where there is no element, every expression has an entry point of its own, later
than those before it, which has its label. -/
private theorem Expr.compileBody_labelled {body : List Expr} (h : ∀ e ∈ body, e.Assembles v roots)
    (hcode : code.Assembled v roots none) (hroom : code.Room (2 * bodySize body))
    (hbody : (v.compileBody none body).Yields code () code') :
    ∃ rs, code'.entrypoints = code.entrypoints ++ rs ∧
      List.Forall₂ (fun e r => code'.labels.lookup r = some e.label) body rs ∧
      rs.Pairwise (· < ·) ∧ (∀ r ∈ rs, code.chunks.length < r.toInt) ∧
      ∀ q : Ref, q.toInt ≤ code.chunks.length → code'.labels.lookup q = code.labels.lookup q := by
  induction body generalizing code with
  | nil =>
    rw [Vocabulary.compileBody_nil] at hbody
    obtain ⟨_, rfl⟩ := yields_pure.mp hbody
    exact ⟨[], by simp, .nil, .nil, List.forall_mem_nil _, fun _ _ => rfl⟩
  | cons e rest ih =>
    rw [Vocabulary.compileBody_cons] at hbody
    obtain ⟨r, mid, he, hbody⟩ := yields_bind.mp hbody
    obtain ⟨_, _, hentry, hrest⟩ := yields_bind.mp hbody
    obtain rfl := yields_modify.mp hentry
    rw [bodySize, Nat.mul_add] at hroom
    have hplaces := h e List.mem_cons_self none code r mid hcode (hroom.mono (by omega)) he
    obtain ⟨hlonger, hr⟩ := hplaces.position.resolve_left fun h =>
      Option.not_mem_none _ h.1.choose_spec.1
    have hgrows : code.Grows (2 * e.size) (mid.addEntrypoint r e.label) :=
      hplaces.appends.grows.trans (.addEntrypoint mid r e.label)
    obtain ⟨rs, hrs, hlabels, hsorted, hlater, hkept⟩ :=
      ih (fun f hf => h f (List.mem_cons_of_mem _ hf))
        (.entrypoint hplaces.appends.assembled hplaces.isSome) (hroom.of_grows hgrows) hrest
    have hlookup (q : Ref) : (mid.addEntrypoint r e.label).labels.lookup q =
        if q == r then some e.label else code.labels.lookup q := by
      rw [← hplaces.appends.labels]
      exact Table.lookup_put r e.label q mid.labels
    have hlength : (mid.addEntrypoint r e.label).chunks.length = mid.chunks.length := rfl
    refine ⟨r :: rs, ?_, .cons ?_ hlabels, .cons (fun q hq => ?_) hsorted,
      List.forall_mem_cons.mpr ⟨by omega, fun q hq => ?_⟩, fun q hq => ?_⟩
    · rw [hrs]
      simp [Code.addEntrypoint, hplaces.appends.entrypoints]
    · rw [hkept r (by omega), hlookup]
      simp
    · have := hlater q hq
      exact Int32.lt_iff_toInt_lt.mpr (by omega)
    · have := hlater q hq
      omega
    · rw [hkept q (by omega), hlookup, if_neg]
      intro heq
      obtain rfl := eq_of_beq heq
      omega

/-- A compiled code is well formed, with all its blocks. It takes no element; it has an entry point
for each expression of the query, in order, each another chunk and each labelled with its
expression. (The chunks of a query of 2 ^ 30 expressions could not all be numbered.) -/
theorem Vocabulary.wellFormed_of_compile {digest : Digest} {query : List Expr}
    (hsize : 2 * Expr.bodySize query < 2 ^ 31) (h : v.compile digest query = .ok code) :
    code.WellFormed ∧ (∀ c ∈ code.chunks, c.kind ≠ .property) ∧
      List.Forall₂ (fun e r => code.labels.lookup r = some e.label) query code.entrypoints ∧
      code.entrypoints.Pairwise (· < ·) := by
  rw [compile] at h
  split at h
  · next built hbuilt =>
    obtain rfl := Except.ok.inj h
    have hroom : Code.empty.Room (2 * Expr.bodySize query) :=
      ⟨by simpa [Code.empty] using hsize, by simpa [Code.empty] using hsize⟩
    have hplaced : ∀ e ∈ query, e.Assembles v True := fun e _ => e.assembles v (.inl trivial)
    obtain ⟨hassembled, _⟩ := Expr.compileBody_assembled hplaced .empty hroom hbuilt
    obtain ⟨rs, hrs, hlabelled, hsorted, _⟩ :=
      Expr.compileBody_labelled hplaced .empty hroom hbuilt
    have hpoints : built.entrypoints = rs := hrs
    obtain ⟨hchunks, hentrypoints, hlabels, _⟩ := Code.stamp_eq digest built
    rw [hchunks, hentrypoints, hlabels, hpoints]
    exact ⟨hassembled.wellFormed.stamp digest, hassembled.no_property, hlabelled, hsorted⟩
  · cases h

/-- A resource that is a list of texts. -/
def filesRegistry : Registry Unit :=
  ⟨.ofList [("files", ⟨(ResourceInfo.plain "files").withListType .string, none⟩)]⟩

/-- The files that are called readme. -/
def filesQuery : List Expr :=
  [.call (.root "files" []) "where"
    [⟨none, .block [.call .element "==" [⟨none, .literal (.string "readme")⟩]]⟩]]

theorem Vocabulary.wellFormed_filesQuery :
    2 * Expr.bodySize filesQuery < 2 ^ 31 ∧
      ∃ code, (⟨filesRegistry, .standard⟩ : Vocabulary Unit).compile (fun _ => "") filesQuery =
        .ok code ∧ code.WellFormed ∧ code.entrypoints = [3] ∧
        code.labels.lookup 3 = some "files.where" := by
  have hsize : Expr.bodySize filesQuery = 6 := rfl
  have hpoints : ((⟨filesRegistry, .standard⟩ : Vocabulary Unit).compile (fun _ => "")
      filesQuery).map (·.entrypoints) = .ok [3] := rfl
  cases hcode : (⟨filesRegistry, .standard⟩ : Vocabulary Unit).compile (fun _ => "") filesQuery with
  | error e =>
    rw [hcode] at hpoints
    cases hpoints
  | ok code =>
    rw [hcode] at hpoints
    have hpoints : code.entrypoints = [3] := Except.ok.inj hpoints
    obtain ⟨hwell, _, hlabelled, _⟩ := wellFormed_of_compile (by omega) hcode
    rw [hpoints] at hlabelled
    exact ⟨by omega, code, rfl, hwell, hpoints, (List.forall₂_cons.mp hlabelled).1⟩

end AssetQuery
