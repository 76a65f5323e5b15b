import AssetQuery.Proofs.Builtin.Kept
import AssetQuery.Proofs.Compile.Meaning
import AssetQuery.Proofs.Eval.Recursion
import AssetQuery.Proofs.Eval.Steps

/-!
# Answers that can be written

What a query without resources evaluates to keeps to the types of its chunks. So the data of an
entry point can be written unless it holds an array of several types. Such arrays come from `values`
of a map that holds several types, or from the rows of a projection in another, and from nothing
else.
-/

namespace AssetQuery

variable {F : Type} {registry : Registry F} {digest : Digest} {clean : Prop}

/-- Whether data keeps to a type, and stands for no failure. The item of an array of `any` has its
own type. -/
structure Data.Kept (clean : Prop) (t : Ty) (data : Data) : Prop where
  value : data.value.Kept clean t
  error : data.error = none
  typ : data.typ = t ∨ t = .any ∧ data.typ = data.value.inferType

namespace Data

variable {t : Ty} {data : Data}

theorem kept_of {v : Value} (h : v.Kept clean t) : (Data.of v t).Kept clean t := ⟨h, rfl, .inl rfl⟩

theorem Kept.typ_eq (h : data.Kept clean t) (ht : t ≠ .any) : data.typ = t :=
  h.typ.resolve_right fun hany => ht hany.1

theorem Kept.within (h : data.Kept clean t) : data.Within t := by
  rcases h.typ with htyp | ⟨rfl, htyp⟩
  · exact ⟨htyp ▸ .refl, htyp ▸ h.value.conforms⟩
  · exact ⟨.any, htyp ▸ Value.conforms_inferType _⟩

private theorem Kept.sound (h : data.Kept clean t) :
    data.Sound False t := ⟨h.within, fun _ => h.error⟩

private theorem Kept.isSpecific (h : data.Kept clean t) (ht : t.isLiteral) :
    data.typ.isSpecific := by
  rcases h.typ with htyp | ⟨_, htyp⟩
  · exact htyp ▸ Ty.isSpecific_of_isLiteral ht
  · exact htyp ▸ Value.isSpecific_inferType _

private theorem Kept.not_mixed (h : data.Kept clean t) (hclean : clean) :
    ¬data.value.Mixed data.typ := by
  rcases h.typ with htyp | ⟨rfl, htyp⟩
  · exact htyp ▸ h.value.not_mixed hclean
  · rw [htyp, Value.mixed_inferType]
    exact h.value.not_mixed hclean

/-- What becomes of data that is written: it is written exactly if it holds no array of several
types, and refused only for an array. -/
structure Serializes (data : Data) : Prop where
  succeeds : (∃ p, data.toPrimitive = .ok p) ↔ ¬data.value.Mixed data.typ
  fault : ∀ fault, data.toPrimitive = .error fault → fault.isOfArray

private theorem Kept.serializes (h : data.Kept clean t) (ht : t.isLiteral) : data.Serializes where
  succeeds := Value.toPrimitive_succeeds_iff h.within.value (h.isSpecific ht)
  fault _ := Value.toPrimitive_error h.within.value (h.isSpecific ht)

end Data

/-- Whether a code, with all its blocks, is free of what makes arrays of several types: `values` of
a map of several types, and projections with the rows of another in a column. -/
inductive Code.Unmixed : Code → Prop
  | intro {code : Code}
    (values : ∀ c ∈ code.chunks, c.id = "values" → c.function.map (·.typ) ≠ some (.array .any))
    (columns : ∀ c ∈ code.chunks, c.id = Builtin.projection → ∀ k, .function k ∈ c.args →
      ∀ block, code.function? k = some block →
        ∀ r ∈ block.entrypoints, block.chunkType r ≠ .array (.map .string .any))
    (functions : ∀ block ∈ code.functions, Unmixed block) : Unmixed code

/-- Whether an error is another than that something cannot be written. -/
def EvalError.Unserial (e : EvalError) : Prop := ∀ fault, e ≠ .serial fault

/-- Whether a frame is a compiled query or a block of one, about an element that keeps to its type,
and is clean if it is to be. -/
structure Frame.Keeps (registry : Registry F) (digest : Digest) (clean : Prop) (frame : Frame) :
    Prop where
  compiled : frame.Compiled registry digest False
  element : ∀ r t data, frame.code.chunk? r = some (.property "_" t) →
    frame.props.find? "_" = some data → t.isLiteral ∧ data.Kept clean t
  unmixed : clean → frame.code.Unmixed

private theorem Code.Admits.kind_ne_property {v : Vocabulary F} {roots : Prop} {code : Code}
    {c : Chunk} (h : code.Admits v roots c) : c.kind ≠ .property := by
  cases h <;> exact nofun

namespace Frame

variable {frame : Frame}

private theorem Compiled.element_unique {roots : Prop} (h : frame.Compiled registry digest roots)
    {r q : Ref} {name other : String} {t u : Ty}
    (hr : frame.code.chunk? r = some (.property name t))
    (hq : frame.code.chunk? q = some (.property other u)) : t = u := by
  obtain @⟨scope, code, props, assembled, _⟩ := h
  have hscope {r : Ref} {name : String} {t : Ty}
      (hr : (code.stamp digest).chunk? r = some (.property name t)) : t ∈ scope := by
    rw [Code.stamp_chunk?] at hr
    rcases assembled.admits hr with ⟨u, hu, hsame⟩ | hadmits
    · injection hsame with _ _ _ hsame
      injection Option.some.inj hsame with hsame
      exact hsame ▸ hu
    · exact absurd rfl hadmits.kind_ne_property
  exact Option.some.inj ((hscope hr).symm.trans (hscope hq))

private theorem Compiled.isLiteral_chunkType (h : frame.Compiled registry digest False) {r : Ref}
    (hr : (frame.code.chunk? r).isSome) : (frame.code.chunkType r).isLiteral := by
  have htype : frame.code.HasType r (frame.code.chunkType r) := by
    obtain @⟨scope, code, props, assembled, _⟩ := h
    replace hr : ((code.stamp digest).chunk? r).isSome := hr
    rw [Code.stamp_chunk?] at hr
    have htype := (assembled.hasType hr).of_within (Code.within_stamp digest code)
    exact htype.chunkType ▸ htype
  exact (h.permitted False.elim htype).literal id

private theorem Keeps.ofBlock (h : frame.Keeps registry digest clean) {k : Ref} {block : Code}
    (hblock : frame.code.function? k = some block) {bound : Ty}
    (hbound : block.chunk? 1 = some (.property "_" bound)) (hliteral : bound.isLiteral)
    {data : Data} (hdata : data.Kept clean bound) :
    (Frame.ofBlock block data).Keeps registry digest clean ∧
      ∀ q ∈ block.entrypoints, (block.chunk? q).isSome := by
  obtain ⟨hcompiled, hpoints⟩ := h.compiled.ofBlock hblock hbound
    (Ty.permitted_of_isLiteral hliteral) hdata.within hdata.error
  refine ⟨⟨hcompiled, fun r t found hr hfound => ?_, fun hclean => ?_⟩, hpoints⟩
  · obtain rfl := Compiled.element_unique hcompiled hr hbound
    obtain rfl : data = found := Option.some.inj hfound
    exact ⟨hliteral, hdata⟩
  · obtain ⟨_, _, functions⟩ := h.unmixed hclean
    exact functions block (mem_of_nth? hblock)

end Frame

private theorem Builtin.element_kept {elem : Ty} {item : Value} (h : item.Kept clean elem) :
    (element (.array elem) item).Kept clean elem := by
  rw [element]
  split
  · next hchild => cases hchild
  · next hchild =>
    obtain rfl : elem = .any := Option.some.inj hchild
    exact ⟨h, rfl, .inr ⟨rfl, rfl⟩⟩
  · next hchild =>
    obtain rfl := Option.some.inj hchild
    exact Data.kept_of h

private theorem Value.kept_rows {block : Code} {rows : List Value}
    (hcolumns : clean → ∀ q ∈ block.entrypoints, block.chunkType q ≠ .rows)
    (hrows : ∀ v ∈ rows, ∃ row : Row,
      (∀ e ∈ row, ∃ q ∈ block.entrypoints, e.2.Kept clean (block.chunkType q)) ∧
        v = row.toValue) : (array rows).Kept clean .rows := by
  apply Kept.rows
  intro v hv
  obtain ⟨row, hrow, rfl⟩ := hrows v hv
  apply Row.toValue_own
  intro e he
  obtain ⟨q, hq, hdata⟩ := hrow e he
  exact hdata.value.unmixed fun hclean => hcolumns hclean q hq

namespace Plain

open EvalError (Unserial)

section Steps

variable {outside : Outside} {value : Frame → Ref → Plain Data} {frame : Frame} {r : Ref}
  {t u elem : Ty} {name : String} {binding k : Ref} {p : Primitive} {ps : List Primitive}
  {block : Code}
  (hvalue : ∀ (frame : Frame) (r : Ref), frame.Keeps registry digest clean →
    (frame.code.chunk? r).isSome →
      (value frame r).Ensures Unserial (Data.Kept clean (frame.code.chunkType r)))
  (hframe : frame.Keeps registry digest clean)

include hvalue hframe

private theorem ensures_operand (hp : frame.code.Operand p t) :
    Ensures Unserial (Eval.operand (requests outside frame value) p) (Data.Kept clean t) := by
  cases hp with
  | @chunk q t hq =>
    have hr : (Primitive.ref q).asRef = .ok q := Primitive.asRef_scalar .ref q
    have htyp : (Primitive.ref q).typ = .ref := rfl
    rw [Eval.operand, if_pos htyp, hr, ← hq.chunkType]
    exact hvalue frame q hframe hq.1
  | @constant l p hp =>
    have hwritten := Literal.toPrimitive_written hp
    rw [Eval.operand, if_neg (Ty.ne_ref_of_isLiteral hwritten.isLiteral),
      Literal.toData_of_toPrimitive hp, hwritten.typ]
    exact ensures_pure (Data.kept_of (.own (Literal.own_toValue hp)))

private theorem ensures_operands (hps : ∀ p ∈ ps, ∃ t, frame.code.Operand p t) :
    Ensures Unserial (ps.mapM (Eval.operand (requests outside frame value)))
      (List.Forall₂ (fun p data => data.Kept clean (frame.code.dereference p)) ps) := by
  apply ensures_mapM
  intro p hp
  obtain ⟨t, ht⟩ := hps p hp
  rw [ht.dereference]
  exact ensures_operand hvalue hframe ht

theorem ensures_call {post : Data → Prop} (hbinding : frame.code.HasType binding t)
    (hany : t ≠ .any)
    (hrest : ∀ receiver : Data, receiver.Kept clean t → Ensures Unserial (do
      let args ← ps.mapM (Eval.operand (requests outside frame value))
      Builtin.apply (requests outside frame value).block name u receiver args) post) :
    Ensures Unserial (Eval.call (requests outside frame value) (.call name u binding ps)) post := by
  have hzero : ¬(Chunk.call name u binding ps).binding = 0 := hbinding.ne_zero
  have hliteral : t.isLiteral := (hframe.compiled.permitted False.elim hbinding).literal id
  rw [Eval.call, if_neg hzero]
  refine (hvalue frame binding hframe hbinding.1).bind fun receiver hreceiver => ?_
  rw [hbinding.chunkType] at hreceiver
  have hnone : receiver.typ.resourceName? = none := by
    rw [hreceiver.typ_eq hany]
    exact Ty.resourceName?_of_isLiteral hliteral
  rw [hreceiver.error]
  simp only [Eval.readsField, hnone]
  exact hrest receiver hreceiver

theorem ensures_direct (hps : ∀ p ∈ ps, ∃ t, frame.code.Operand p t) {receiver : Data}
    (hblock : ¬Builtin.RunsBlock receiver.typ name)
    (hmeets : ∀ args, List.Forall₂ (fun p (data : Data) =>
      data.Sound False (frame.code.dereference p)) ps args →
      Builtin.Meets name u args (Builtin.direct name u receiver args))
    (hkept : ∀ args (data : Data), data.value.Conforms u →
      Builtin.direct name u receiver args = .ok data → data.value.Kept clean u) :
    Ensures Unserial (do
      let args ← ps.mapM (Eval.operand (requests outside frame value))
      Builtin.apply (requests outside frame value).block name u receiver args)
      (Data.Kept clean u) := by
  refine (ensures_operands hvalue hframe hps).bind fun args hargs => ?_
  have hmeets := hmeets args (hargs.imp fun _ _ h => h.sound)
  rw [Builtin.apply_eq_direct hblock]
  cases hreply : Builtin.direct name u receiver args with
  | ok data =>
    rw [hreply] at hmeets
    obtain ⟨v, rfl, hv⟩ := hmeets
    exact ensures_pure (Data.kept_of (hkept args _ hv hreply))
  | error e =>
    rw [hreply] at hmeets
    obtain ⟨⟨fault, rfl⟩, _⟩ := hmeets
    exact ensures_throw nofun

/-- The row of a block for an element that keeps to its type holds what keeps to those of its entry
points. -/
private theorem ensures_row (hblock : frame.code.function? k = some block)
    (hbound : block.chunk? 1 = some (.property "_" elem)) (helem : elem.isLiteral)
    {data : Data} (hdata : data.Kept clean elem) :
    Ensures Unserial ((requests outside frame value).block k data) fun row =>
      ∀ e ∈ row, ∃ q ∈ block.entrypoints, e.2.Kept clean (block.chunkType q) := by
  obtain ⟨hinner, hpoints⟩ := hframe.ofBlock hblock hbound helem hdata
  show Ensures Unserial (Eval.row value frame k data) _
  rw [Eval.row, hblock]
  refine Ensures.imp (ensures_mapM (R := fun q e => e.2.Kept clean (block.chunkType q)) ?_) ?_
  · intro q hq
    exact (hvalue _ q hinner (hpoints q hq)).bind fun data hdata => ensures_pure hdata
  · intro row hrow e he
    exact Assurance.exists_of_forall₂ hrow he

private theorem ensures_runsBlock (hblock : frame.code.function? k = some block)
    (hbound : block.chunk? 1 = some (.property "_" elem)) (helem : elem.isLiteral)
    {receiver : Data} (hreceiver : receiver.Kept clean (.array elem))
    (hname : name = "where" ∧ u = .array elem ∨ (name = Builtin.projection ∧ u = .rows ∧
      (clean → ∀ q ∈ block.entrypoints, block.chunkType q ≠ .rows))) :
    Ensures Unserial (Builtin.apply (requests outside frame value).block name u receiver
      [.of (.function k) .functionLike]) (Data.Kept clean u) := by
  have htyp := hreceiver.typ_eq fun hany => by cases hany
  obtain ⟨v, typ, error⟩ := receiver
  simp only at htyp
  subst htyp
  have hcomparison : Comparison.ofName? name = none := by
    rcases hname with ⟨rfl, _⟩ | ⟨rfl, _⟩
    · rfl
    · rfl
  rcases hreceiver.value.conforms.items with hnil | ⟨items, hitems, _⟩
  · simp only at hnil
    subst hnil
    simp only [Builtin.apply, hcomparison, Value.isNil, if_true]
    exact ensures_pure (Data.kept_of .nil)
  · simp only at hitems
    subst hitems
    have hrow : ∀ item ∈ items, Ensures Unserial
        ((requests outside frame value).block k (Builtin.element (.array elem) item)) fun row =>
          ∀ e ∈ row, ∃ q ∈ block.entrypoints, e.2.Kept clean (block.chunkType q) := by
      intro item hitem
      have helement := Builtin.element_kept (hreceiver.value.item hitem)
      exact ensures_row hvalue hframe hblock hbound helem helement
    rcases hname with ⟨rfl, rfl⟩ | ⟨rfl, rfl, hcolumns⟩
    · show Ensures Unserial
        (do return .of (.array (← Builtin.keepItems _ items)) (.array elem) : Plain Data) _
      have hwhere : ∀ fault, Unserial (.invalidArgument "where" fault) := by
        intro _ _ h
        cases h
      refine (ensures_keepItems hwhere hrow).bind fun kept hkept => ensures_pure ?_
      exact Data.kept_of (hreceiver.value.filter hkept)
    · show Ensures Unserial
        (do return .of (.array (← Builtin.projectItems _ items)) .rows : Plain Data) _
      refine (ensures_projectItems hrow).bind fun rows hrows => ensures_pure ?_
      exact Data.kept_of (Value.kept_rows hcolumns hrows)

private theorem ensures_function {signature : Signature} (result : ResultRule)
    (hchunk : frame.code.chunk? r = some (.call name (result.apply t) binding ps))
    (hbinding : frame.code.HasType binding t)
    (hlookup : Builtins.standard.lookup? t name = some ⟨signature, .simple result⟩)
    (hsupplies : frame.code.Supplies ⟨registry, .standard⟩ t signature ps) :
    Ensures Unserial
      (Eval.call (requests outside frame value) (.call name (result.apply t) binding ps))
      (Data.Kept clean (result.apply t)) := by
  have hpermitted := hframe.compiled.permitted False.elim hbinding
  have hany := Builtins.ne_any_of_lookup? hlookup
  have hsound : Handler.Sound _ _ _ := Builtins.sound_standard hlookup
  obtain ⟨htakes, hrule, _⟩ := hsound
  obtain ⟨hrequired, hone, hfunction⟩ := htakes.of_underlying
  have hfit := hsupplies.fit_all hrequired
  have hmem : Chunk.call name (result.apply t) binding ps ∈ frame.code.chunks := mem_of_nth? hchunk
  refine ensures_call hvalue hframe hbinding hany fun receiver hreceiver => ?_
  have htyp := hreceiver.typ_eq hany
  by_cases hruns : Builtin.RunsBlock t name
  · obtain ⟨elem, rfl⟩ := hpermitted.eq_array hruns.1
    obtain ⟨k, block, rfl, hblock, hbound⟩ :=
      hframe.compiled.exists_block False.elim hfit hone (hfunction.mpr hruns)
    have hgiven : Eval.operand (requests outside frame value) (.function k) =
        pure (.of (.function k) .functionLike) := by
      have hne : ¬(Primitive.function k).typ = .ref := nofun
      rw [Eval.operand, if_neg hne, Primitive.toData, Primitive.toValue_function]
      rfl
    rw [List.mapM_cons, List.mapM_nil, hgiven, pure_bind, pure_bind, pure_bind]
    refine ensures_runsBlock hvalue hframe hblock hbound (hpermitted.elem.literal id) hreceiver ?_
    rcases hruns.2 with rfl | rfl
    · exact .inl ⟨rfl, by rw [hrule .receiver rfl]; rfl⟩
    · refine .inr ⟨rfl, by rw [hrule (.fixed (.array (.map .string .any))) rfl]; rfl, ?_⟩
      intro hclean
      obtain ⟨_, columns, _⟩ := hframe.unmixed hclean
      exact columns _ hmem rfl k (List.mem_singleton_self _) block hblock
  · have hnone := mt hfunction.mp hruns
    have hblock : ¬Builtin.RunsBlock receiver.typ name := by rwa [htyp]
    have hclass : receiver.typ.underlying = t.underlying := by rw [htyp]
    refine ensures_direct hvalue hframe (fun p hp => ?_) hblock (fun args hargs => ?_)
      fun args data hdata hreply => ?_
    · obtain ⟨expected, hexpected, hp⟩ := Assurance.exists_of_forall₂ hfit hp
      obtain ⟨t, ht, _⟩ := hp.exists_operand fun h => hnone (h ▸ hexpected)
      exact ⟨t, ht⟩
    · exact Builtin.direct_meets hlookup hruns hclass hreceiver.value.conforms
        (conforms_of_arguments hfit hnone hargs)
    · refine Builtin.direct_kept hlookup (hpermitted.literal id) hruns hclass hreceiver.value ?_
        hdata hreply
      intro hclean hname htype
      obtain ⟨values, _, _⟩ := hframe.unmixed hclean
      exact values _ hmem hname (congrArg some htype)

private theorem ensures_contains {found : Ty} {called : String} {signature : Signature}
    {form : SpecialForm} (hbinding : frame.code.HasType binding t)
    (hlookup : Builtins.standard.lookup? t called = some ⟨signature, .special form⟩)
    (hfinds : form.Finds t found name) (hp : frame.code.Operand p found) :
    Ensures Unserial (Eval.call (requests outside frame value) (.call name .bool binding [p]))
      (Data.Kept clean .bool) := by
  have hany := Builtins.ne_any_of_lookup? hlookup
  have hblock (receiver : Ty) : ¬Builtin.RunsBlock receiver name := by
    cases hfinds <;> simp [Builtin.RunsBlock, Builtin.projection]
  refine ensures_call hvalue hframe hbinding hany fun receiver hreceiver => ?_
  refine ensures_direct hvalue hframe (fun q hq => ⟨found, List.mem_singleton.mp hq ▸ hp⟩)
    (hblock receiver.typ) (fun args hargs => ?_) fun _ _ hdata _ =>
      Value.kept_of_conforms hdata (.inl rfl)
  obtain ⟨data, rest, hdata, hnone, rfl⟩ := List.forall₂_cons_left_iff.mp hargs
  obtain rfl := List.forall₂_nil_left_iff.mp hnone
  rw [hp.dereference] at hdata
  have hclass : receiver.typ.underlying = t.underlying := by rw [hreceiver.typ_eq hany]
  exact Builtin.direct_contains hlookup hfinds hclass hreceiver.value.conforms
    hdata.within.conforms

private theorem ensures_chunk (hr : (frame.code.chunk? r).isSome) :
    Ensures Unserial (Eval.chunk (requests outside frame value) frame r)
      (Data.Kept clean (frame.code.chunkType r)) := by
  obtain ⟨c, hc⟩ := Option.isSome_iff_exists.mp hr
  have hliteral {q : Ref} {t : Ty} (h : frame.code.HasType q t) : t.isLiteral :=
    (hframe.compiled.permitted False.elim h).literal id
  rw [Eval.chunk, hc]
  rcases hframe.compiled.cases_chunk hc with ⟨t, data, rfl, hdata, _⟩ | hadmits
  · simp only [Chunk.property, hdata]
    obtain ⟨ht, hkept⟩ := hframe.element r t data hc hdata
    rw [(Code.hasType_property hc).chunkType, if_neg (Ty.ne_ref_of_isLiteral ht)]
    exact ensures_pure hkept
  · cases hadmits with
    | @constant l p hp =>
      have hwritten := Literal.toPrimitive_written hp
      have href := Ty.ne_ref_of_isLiteral hwritten.isLiteral
      show Ensures Unserial (Eval.constant (requests outside frame value) r (some p)) _
      rw [Eval.constant, if_neg href, Literal.toData_of_toPrimitive hp,
        Code.chunkType_ofPrimitive hc href, hwritten.typ]
      exact ensures_pure (Data.kept_of (.own (Literal.own_toValue hp)))
    | resource hroots => exact hroots.elim
    | field hbinding hfield =>
      obtain ⟨resource, rfl, _⟩ := Vocabulary.field?_eq_some hfield
      cases hliteral hbinding
    | function hbinding _ hlookup hsupplies =>
      rw [(Code.hasType_call hc).chunkType]
      exact ensures_function hvalue hframe _ hc hbinding hlookup hsupplies
    | contains hbinding hlookup hfinds hp =>
      rw [(Code.hasType_call hc).chunkType]
      exact ensures_contains hvalue hframe hbinding hlookup hfinds hp
    | list hbinding hlookup hform helem =>
      have hclass := Builtins.sound_standard hlookup
      have hne := Ty.underlying_of_isLiteral (hliteral hbinding)
      rcases hform with rfl | rfl
      · exact absurd hclass hne
      · exact absurd hclass hne
    | length hlist =>
      rw [(Code.hasType_call hc).chunkType]
      exact ensures_function hvalue hframe (.fixed .int) hc hlist
        Builtins.lookup?_length ⟨.nil, .inl (Nat.le_refl _)⟩
    | filter hlist hsupplies =>
      rw [(Code.hasType_call hc).chunkType]
      exact ensures_function hvalue hframe .receiver hc hlist Builtins.lookup?_where hsupplies

end Steps

private theorem ensures_value (outside : Outside) (depth : Nat) (frame : Frame) (r : Ref)
    (hframe : frame.Keeps registry digest clean) (hr : (frame.code.chunk? r).isSome) :
    (value outside depth frame r).Ensures Unserial (Data.Kept clean (frame.code.chunkType r)) := by
  induction depth generalizing frame r with
  | zero => exact nofun
  | succ depth ih => exact ensures_chunk ih hframe hr

end Plain

private theorem Frame.keeps_of_compile {query : List Expr} (hrootless : ∀ e ∈ query, e.rootless)
    (hsize : 2 * Expr.bodySize query < 2 ^ 31) {code : Code}
    (hcompile : Vocabulary.compile ⟨registry, .standard⟩ digest query = .ok code) {clean : Prop}
    (hclean : clean → code.Unmixed) :
    (Frame.mk code .empty).Keeps registry digest clean ∧
      ∀ r ∈ code.entrypoints, (code.chunk? r).isSome := by
  have hquery : ∀ e ∈ query, False ∨ e.rootless := fun e he => .inr (hrootless e he)
  obtain ⟨built, rfl, hassembled⟩ := Vocabulary.assembled_of_compile hquery hsize hcompile
  refine ⟨⟨.intro hassembled ?_, ?_, hclean⟩, fun r hr => ?_⟩
  · exact fun t ht => absurd ht (Option.not_mem_none t)
  · intro _ _ _ _ hgiven
    cases hgiven
  · rw [Code.stamp_chunk?]
    rw [(Code.stamp_eq digest built).2.1] at hr
    exact Code.isSome_of_earlier (hassembled.entrypoints r hr)

namespace Setting

variable {σ : Type} {code : Code}

/-- Execution of a query without calls at the root, compiled with the standard functions, answers
each entry point with what the expression in its place evaluates to, or gives up at the limit to
depth. Such data is written as the answer exactly if it holds no array of several types, and the
evaluation itself does not fail for something that cannot be written. There is no such array, and
all data is written, if the code is free of what makes them. (The chunks of a query of 2 ^ 30
expressions could not all be numbered.) -/
theorem answers_serializable {query : List Expr} (hrootless : ∀ e ∈ query, e.rootless)
    (hsize : 2 * Expr.bodySize query < 2 ^ 31)
    (hcompile : Vocabulary.compile ⟨registry, .standard⟩ digest query = .ok code)
    (s : Setting σ) (session : Session σ) :
    ∃ answers, s.execute code .empty session = some (answers, session) ∧
      List.Forall₂ (fun e r =>
        (answers.lookup r = some (answerOf code r (e.evaluate none)) ∨
          s.config.maxDepth < 2 * Expr.bodySize query ∧ answers.lookup r =
            some (answerOf code r (.error (.depthExceeded s.config.maxDepth)))) ∧
        (∀ data, e.evaluate none = .ok data →
          data.Serializes ∧ (code.Unmixed → ∃ p, data.toPrimitive = .ok p)) ∧
        ∀ fault, e.evaluate none ≠ .error (.serial fault)) query code.entrypoints := by
  obtain ⟨answers, hrun, hanswers⟩ := execute_answers hrootless (by omega) hcompile s session
  have hvalues := compile_evaluates hrootless (by omega) hcompile fun resource field =>
    (s.registry.field? resource field).isSome
  obtain ⟨hframe, hpoints⟩ := Frame.keeps_of_compile hrootless hsize hcompile id
  refine ⟨answers, hrun, List.forall₂_iff_zip.mpr ⟨hvalues.length_eq, fun {e r} hmem => ?_⟩⟩
  have hr := hpoints r (List.of_mem_zip hmem).2
  have hensures := Plain.ensures_value _ _ _ r hframe hr _ (List.forall₂_zip hvalues hmem)
  refine ⟨List.forall₂_zip hanswers hmem, fun data hdata => ?_, fun fault he => ?_⟩
  · rw [hdata] at hensures
    have hkept : data.Kept code.Unmixed (code.chunkType r) := hensures
    have hserializes := hkept.serializes (hframe.compiled.isLiteral_chunkType hr)
    exact ⟨hserializes, fun hclean => hserializes.succeeds.mpr (hkept.not_mixed hclean)⟩
  · rw [he] at hensures
    exact hensures fault rfl

/-- Two texts, each with the price of what it names and all the prices. -/
def pricesQuery : List Expr :=
  let prices : Expr := .literal (.map [("a", .int 1), ("b", .int 2)])
  [.call (.literal (.array [.string "a", .string "z"])) Builtin.projection
    [⟨none, .block [.call prices "[]" [⟨none, .element⟩], .call prices "values" []]⟩]]

def pricesCode : Code := (bareCode pricesQuery).toOption.getD .empty

private theorem unmixed_pricesCode : pricesCode.Unmixed := by
  have hblock : ∀ block ∈ pricesCode.functions, block.functions = [] ∧
      (∀ t ∈ block.entrypoints.map block.chunkType, t ≠ .rows) ∧ ∀ c ∈ block.chunks,
        (c.id = "values" → c.function.map (·.typ) ≠ some (.array .any)) ∧
        c.id ≠ Builtin.projection := by
    decide +kernel
  refine .intro (by decide +kernel) ?_ ?_
  · intro c _ _ k _ block hk r hr
    exact (hblock block (mem_of_nth? hk)).2.1 _ (List.mem_map_of_mem hr)
  · intro block hmem
    obtain ⟨hnone, _, hchunks⟩ := hblock block hmem
    refine .intro (fun c hc => (hchunks c hc).1) ?_ (by rw [hnone]; exact nofun)
    exact fun c hc hid => absurd hid (hchunks c hc).2

/-- The second text names nothing, and still its row is written. -/
theorem answers_pricesQuery :
    (∀ e ∈ pricesQuery, e.rootless) ∧ 2 * Expr.bodySize pricesQuery < 2 ^ 31 ∧
      bareCode pricesQuery = .ok pricesCode ∧ pricesCode.Unmixed ∧
      ∃ e data p, pricesQuery = [e] ∧ e.evaluate none = .ok data ∧ data.typ = .rows ∧
        data.toPrimitive = .ok p := by
  have hrootless : ∀ e ∈ pricesQuery, e.rootless := by decide
  have hsize : 2 * Expr.bodySize pricesQuery < 2 ^ 31 := by decide +kernel
  have hcompile : bareCode pricesQuery = .ok pricesCode := rfl
  obtain ⟨_, _, hall⟩ := answers_serializable hrootless hsize hcompile bareSetting (.new ())
  have hpoints : pricesCode.entrypoints = [2] := rfl
  rw [hpoints] at hall
  obtain ⟨data, hdata, htyp⟩ : ∃ data, pricesQuery.head!.evaluate none = .ok data ∧
      data.typ = .rows := ⟨_, rfl, rfl⟩
  obtain ⟨p, hp⟩ := ((List.forall₂_cons.mp hall).1.2.1 data hdata).2 unmixed_pricesCode
  exact ⟨hrootless, hsize, hcompile, unmixed_pricesCode, _, data, p, rfl, hdata, htyp, hp⟩

/-- What a map of a number and a text holds. -/
def valuesQuery : List Expr :=
  [.call (.literal (.map [("a", .int 1), ("b", .string "x")])) "values" []]

/-- Rows, of which one holds the rows of a number that is there and of one that is not. -/
def nestedQuery : List Expr :=
  [.call (.literal (.array [.int 0])) Builtin.projection [⟨none, .block
    [.call (.literal (.array [.string "a", .string "z"])) Builtin.projection [⟨none, .block
      [.call (.literal (.map [("a", .int 1)])) "[]" [⟨none, .element⟩]]⟩]]⟩]]

/-- Both are compiled and evaluated, but what the first evaluates to is an array of `any`, and the
row of the second holds an array of several types. -/
theorem not_serializable_valuesQuery :
    (∀ e ∈ valuesQuery ++ nestedQuery, e.rootless) ∧
      ∃ code, bareCode (valuesQuery ++ nestedQuery) = .ok code ∧ code.entrypoints = [2, 4] ∧
        ∃ data rows answers,
          (Frame.mk code .empty).Evaluates 2 (.ok data) ∧
          data.toPrimitive = .error (.anyArray (.array .any)) ∧
          (Frame.mk code .empty).Evaluates 4 (.ok rows) ∧
          rows.toPrimitive = .error (.elementMismatch 0 (.map .string .any)
            (.map .string (.array .any))) ∧
          bareSetting.execute code .empty (.new ()) = some (answers, .new ()) ∧
          answers.lookup 2 = some (.failed ((code.checksum? 2).getD "")
            (SerialError.anyArray (.array .any)).message) := by
  refine ⟨by decide, _, rfl, rfl, _, _, _, ⟨8, rfl⟩, rfl, ⟨8, rfl⟩, rfl, rfl, rfl⟩

end Setting

end AssetQuery
