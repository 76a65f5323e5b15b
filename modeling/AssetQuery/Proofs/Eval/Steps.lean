import AssetQuery.Proofs.Eval.Sound

/-!
# Sound steps

The evaluation of a chunk of a compiled query is sound if that of the chunks that it asks for is,
and if the session, where resources are created, holds what is declared.
-/

namespace AssetQuery

open Assurance

variable {F σ : Type} {registry : Registry F} {digest : Digest} {roots : Prop}

/-- Data that may be given where a type is declared: of that type, or nil of no other. -/
def Data.Suits (t : Ty) (data : Data) : Prop :=
  data.Within t ∨ data.value = .nil ∧ data.typ = .nil

/-- Whether arguments for a resource are what is declared of its fields. -/
def Registry.Takes (registry : Registry F) (name : String) (args : Dict Data) : Prop :=
  ∀ field data declared, args.find? field = some data →
    registry.field? name field = some declared → data.Suits declared.typ

theorem Registry.takes_empty (registry : Registry F) (name : String) :
    registry.Takes name .empty := by
  intro field data declared hdata
  cases hdata

theorem Registry.Takes.insert {registry : Registry F} {name : String} {args : Dict Data}
    (h : registry.Takes name args) {field : String} {data : Data}
    (hdata : ∀ declared, registry.field? name field = some declared → data.Suits declared.typ) :
    registry.Takes name (args.insert field data) := by
  intro other found declared hfound hdeclared
  rw [Dict.find?_insert] at hfound
  split at hfound
  · next hother =>
    subst hother
    exact Option.some.inj hfound ▸ hdata declared hdeclared
  · exact h other found declared hfound hdeclared

structure Setting.Serves (s : Setting σ) (registry : Registry F) (kept : Session σ → Prop) :
    Prop where
  declares : ∀ resource field declared, registry.field? resource field = some declared →
    (s.registry.field? resource field).isSome
  create : ∀ name args session, kept session → registry.Takes name args →
    ∀ reply after, s.create name args session = some (reply, after) →
      kept after ∧ ∀ key, reply = .ok key → key.name = name
  read : ∀ key field declared session, kept session →
    registry.field? key.name field = some declared →
    ∀ reply after, s.read key field session = some (reply, after) →
      kept after ∧ ∀ data, reply = .ok data → data.Within declared.typ

theorem Code.Supplies.fit_all {code : Code} {v : Vocabulary F} {receiver : Ty}
    {signature : Signature} {ps : List Primitive} (h : code.Supplies v receiver signature ps)
    (hrequired : signature.required = signature.args.length) :
    List.Forall₂ (code.Argument v receiver) signature.args ps := by
  have henough := h.enough
  rw [hrequired, or_self] at henough
  exact List.take_of_length_le henough ▸ h.fit

theorem conforms_of_arguments {v : Vocabulary F} {code : Code} {receiver : Ty} {declared : List Ty}
    {ps : List Primitive} (hfit : List.Forall₂ (code.Argument v receiver) declared ps)
    (hblock : .functionLike ∉ declared) {args : List Data}
    (hargs : List.Forall₂ (fun p (data : Data) => data.Sound roots (code.dereference p)) ps args) :
    List.Forall₂ (fun expected (data : Data) => data.value.Conforms expected) declared args := by
  induction hfit generalizing args with
  | nil =>
    cases hargs
    exact .nil
  | @cons expected p declared ps hp _ ih =>
    obtain ⟨data, rest, hdata, hrest, rfl⟩ := List.forall₂_cons_left_iff.mp hargs
    obtain ⟨hne, hblock⟩ := not_or.mp (mt List.mem_cons.mpr hblock)
    obtain ⟨t, ht, hfits⟩ := hp.exists_operand (Ne.symm hne)
    rw [ht.dereference] at hdata
    exact .cons (hdata.within.conforms.of_fits (Ty.fits_of_compatible hfits)) (ih hblock hrest)

/-- Whether what becomes of a row is sound: it holds no failure where no resources are created, or
an entry point of the block is what failed, as it may. -/
def Row.Sound (roots : Prop) (most : Nat) (block : Code) (element : Data) (visits : List Visit)
    (reply : Except EvalError Row) : Prop :=
  match reply with
  | .ok row => ¬roots → row.fault? = none
  | .error e => ∃ q ∈ block.entrypoints, ⟨.ofBlock block element, q, .error e⟩ ∈ visits ∧
    FailsSoundly roots most visits (.ofBlock block element) q e

private theorem Row.Sound.mono {most : Nat} {block : Code} {element : Data}
    {visits visits' : List Visit} {reply : Except EvalError Row} (hmore : visits ⊆ visits')
    (h : Row.Sound roots most block element visits reply) :
    Row.Sound roots most block element visits' reply := by
  cases reply with
  | ok row => exact h
  | error e =>
    obtain ⟨q, hq, hmem, hcause⟩ := h
    exact ⟨q, hq, hmore hmem, hcause.mono hmore⟩

private theorem Builtin.element_within {elem elem' : Ty} {item : Value} (h : item.Conforms elem')
    (hfits : elem'.Fits elem) :
    (element (.array elem') item).Within elem ∧ (element (.array elem') item).error = none := by
  rw [element]
  split
  · next hchild => cases hchild
  · next hchild =>
    obtain rfl := Option.some.inj hchild
    obtain rfl : elem = .any := by cases hfits <;> rfl
    exact ⟨⟨.any, Value.conforms_inferType item⟩, rfl⟩
  · next hchild =>
    obtain rfl := Option.some.inj hchild
    exact ⟨⟨hfits, h⟩, rfl⟩

section Steps

variable {most : Nat} {kept : Session σ → Prop} {s : Setting σ} {seen : List Visit}
  {value target : Frame → Ref → Traced σ Data} {frame : Frame} {r : Ref} {t u elem : Ty}
  {name : String} {binding k : Ref} {p : Primitive} {ps : List Primitive} {block : Code}

/-- Whether an argument has been evaluated soundly. -/
def Operand.Sound (roots : Prop) (most : Nat) (frame : Frame) (p : Primitive) (visits : List Visit)
    (reply : Except EvalError Data) : Prop :=
  match reply with
  | .ok data => Given visits frame p data ∧ data.Sound roots (frame.code.dereference p)
  | .error e => ∃ q, p = .ref q ∧ ⟨frame, q, .error e⟩ ∈ visits ∧
    FailsSoundly roots most visits frame q e

private theorem Operand.Sound.mono {visits visits' : List Visit} {reply : Except EvalError Data}
    (hmore : visits ⊆ visits') (h : Operand.Sound roots most frame p visits reply) :
    Operand.Sound roots most frame p visits' reply := by
  cases reply with
  | ok data => exact ⟨h.1.mono hmore, h.2⟩
  | error e =>
    obtain ⟨q, hq, hmem, hcause⟩ := h
    exact ⟨q, hq, hmore hmem, hcause.mono hmore⟩

theorem Visit.Sound.call {visits : List Visit} {data : Data}
    (hchunk : frame.code.chunk? r = some (.call name u binding ps)) (hdata : data.Sound roots u) :
    Visit.Sound roots most visits ⟨frame, r, .ok data⟩ :=
  show Data.Sound roots _ _ from (Code.hasType_call hchunk).chunkType ▸ hdata

variable (hvalue : (soundness roots most kept).Answers (Frame.Has registry digest roots) value)
  (hframe : frame.Compiled registry digest roots)

include hvalue hframe

theorem ensures_operand (hp : frame.code.Operand p t) :
    (soundness roots most kept).Ensures frame seen
      (Eval.operand (Traced.requests s frame value target) p)
      (Operand.Sound roots most frame p) := by
  have hderef := hp.dereference
  cases hp with
  | @chunk q t hq =>
    have hr : (Primitive.ref q).asRef = .ok q := Primitive.asRef_scalar .ref q
    have htyp : (Primitive.ref q).typ = .ref := rfl
    rw [Eval.operand, if_pos htyp, hr]
    refine (hvalue frame q seen ⟨hframe, hq.1⟩).imp fun visits reply _ h => ?_
    obtain ⟨hmem, hsound⟩ := h
    cases reply with
    | ok data => exact ⟨.inl ⟨q, rfl, hmem⟩, (hderef.trans hq.chunkType.symm) ▸ hsound⟩
    | error e => exact ⟨q, rfl, hmem, hsound⟩
  | @constant l p hp =>
    have hwritten := Literal.toPrimitive_written hp
    have hdata := Literal.toData_of_toPrimitive hp
    rw [Eval.operand, if_neg (Ty.ne_ref_of_isLiteral hwritten.isLiteral), hdata]
    refine ensures_pure fun visits _ => ⟨.inr hdata, hderef.trans hwritten.typ ▸ ?_⟩
    exact Data.sound_of (Value.conforms_inferType _)

private theorem ensures_operands
    (hps : ∀ p ∈ ps, ∃ t, frame.code.Operand p t) :
    (soundness roots most kept).Ensures frame seen
      (ps.mapM (Eval.operand (Traced.requests s frame value target))) fun visits reply =>
        match reply with
        | .ok args => List.Forall₂ (fun p data => Given visits frame p data ∧
          data.Sound roots (frame.code.dereference p)) ps args
        | .error e => ∃ q, .ref q ∈ ps ∧ ⟨frame, q, .error e⟩ ∈ visits ∧
          FailsSoundly roots most visits frame q e := by
  have hmono : ∀ p visits visits' reply, visits ⊆ visits' →
      Operand.Sound roots most frame p visits reply →
      Operand.Sound roots most frame p visits' reply := fun _ _ _ _ => Operand.Sound.mono
  refine (ensures_mapM hmono fun p hp visits _ => ?_).imp fun visits reply _ h => ?_
  · obtain ⟨t, ht⟩ := hps p hp
    exact ensures_operand hvalue hframe ht
  · cases reply with
    | ok args => exact h
    | error e =>
      obtain ⟨p, hp, q, rfl, hq⟩ := h
      exact ⟨q, hp, hq⟩

theorem ensures_call
    (hchunk : frame.code.chunk? r = some (.call name u binding ps))
    (hbinding : frame.code.HasType binding t)
    (hrest : ∀ receiver visits, receiver.Within t → (soundness roots most kept).Ensures frame visits
      (if Eval.readsField (Traced.requests s frame value target) receiver.typ name then
        match receiver.value with
        | .resource resource id =>
          (Traced.requests s frame value target).read resource id name
        | _ => return .of .nil u
      else do
        let args ← ps.mapM (Eval.operand (Traced.requests s frame value target))
        Builtin.apply (Traced.requests s frame value target).block name u receiver args)
      fun visits reply => Visit.Sound roots most visits ⟨frame, r, reply⟩) :
    (soundness roots most kept).Ensures frame seen
      (Eval.call (Traced.requests s frame value target) (.call name u binding ps))
      fun visits reply => Visit.Sound roots most visits ⟨frame, r, reply⟩ := by
  have hzero : ¬(Chunk.call name u binding ps).binding = 0 := hbinding.ne_zero
  rw [Eval.call, if_neg hzero]
  refine (hvalue frame binding seen ⟨hframe, hbinding.1⟩).bind
    (fun visits e _ he => ?_) fun receiver visits _ hreceiver => ?_
  · obtain ⟨hmem, hcause⟩ := he
    exact FailsSoundly.pass hcause fun hfails => .receiver hchunk hmem hfails
  · obtain ⟨_, hreceiver⟩ := hreceiver
    have hreceiver : receiver.Sound roots t := hbinding.chunkType ▸ hreceiver
    cases herror : receiver.error with
    | some cause =>
      refine ensures_pure fun visits _ =>
        .call hchunk ⟨Data.within_failed u cause, fun hnot => ?_⟩
      rw [hreceiver.error hnot] at herror
      cases herror
    | none => exact hrest receiver visits hreceiver.within

theorem ensures_apply
    (hchunk : frame.code.chunk? r = some (.call name u binding ps))
    (hbinding : frame.code.HasType binding t) (hany : t ≠ .any)
    (hclass : t.underlying ≠ .resourceLike)
    (hrest : ∀ receiver visits, receiver.Within t → (soundness roots most kept).Ensures frame visits
      (do
        let args ← ps.mapM (Eval.operand (Traced.requests s frame value target))
        Builtin.apply (Traced.requests s frame value target).block name u receiver args)
      fun visits reply => Visit.Sound roots most visits ⟨frame, r, reply⟩) :
    (soundness roots most kept).Ensures frame seen
      (Eval.call (Traced.requests s frame value target) (.call name u binding ps))
      fun visits reply => Visit.Sound roots most visits ⟨frame, r, reply⟩ := by
  refine ensures_call hvalue hframe hchunk hbinding fun receiver visits hreceiver => ?_
  have hnone : receiver.typ.resourceName? = none := by
    have heq := hreceiver.typ.underlying_eq hany
    cases htyp : receiver.typ with
    | resource other =>
      rw [htyp] at heq
      exact absurd heq.symm hclass
    | _ => rfl
  rw [Eval.readsField, hnone]
  exact hrest receiver visits hreceiver

theorem ensures_direct
    (hchunk : frame.code.chunk? r = some (.call name u binding ps))
    (hps : ∀ p ∈ ps, ∃ t, frame.code.Operand p t) {receiver : Data}
    (hblock : ¬Builtin.RunsBlock receiver.typ name)
    (hmeets : ∀ args, List.Forall₂ (fun p (data : Data) =>
      data.Sound roots (frame.code.dereference p)) ps args →
      Builtin.Meets name u args (Builtin.direct name u receiver args)) :
    (soundness roots most kept).Ensures frame seen
      (do
        let args ← ps.mapM (Eval.operand (Traced.requests s frame value target))
        Builtin.apply (Traced.requests s frame value target).block name u receiver args)
      fun visits reply => Visit.Sound roots most visits ⟨frame, r, reply⟩ := by
  refine (ensures_operands hvalue hframe hps).bind (fun visits e _ he => ?_)
    fun args visits _ hargs => ?_
  · obtain ⟨q, hq, hmem, hcause⟩ := he
    exact FailsSoundly.pass hcause fun hfails => .operand hchunk hq hmem hfails
  · rw [Builtin.apply_eq_direct hblock]
    have hmeets := hmeets args (hargs.imp fun _ _ h => h.2)
    refine ensures_ofExcept fun last hlast => ?_
    cases hreply : Builtin.direct name u receiver args with
    | ok data =>
      rw [hreply] at hmeets
      obtain ⟨v, rfl, hv⟩ := hmeets
      exact .call hchunk (Data.sound_of hv)
    | error e =>
      rw [hreply] at hmeets
      obtain ⟨⟨fault, rfl⟩, data, hdata, hnil⟩ := hmeets
      obtain ⟨p, hp, hgiven, _⟩ := exists_of_forall₂ hargs hdata
      exact ⟨rfl, fun _ => .inr (.argument hchunk hp (hgiven.mono hlast) hnil)⟩

private theorem ensures_row (hblock : frame.code.function? k = some block)
    (hbound : block.chunk? 1 = some (.property "_" elem)) (helem : elem.Permitted roots)
    {data : Data} (hdata : data.Within elem) (herror : data.error = none) :
    (soundness roots most kept).Ensures frame seen
      ((Traced.requests s frame value target).block k data) (Row.Sound roots most block data) := by
  obtain ⟨hinner, hpoints⟩ := hframe.ofBlock hblock hbound helem hdata herror
  have hrow : (soundness roots most kept).Ensures frame seen _ _ :=
    Answers.row hvalue hblock fun q hq => ⟨hinner, hpoints q hq⟩
  refine hrow.imp fun visits reply _ h => ?_
  cases reply with
  | ok row =>
    refine fun hnot => List.findSome?_eq_none_iff.mpr fun e he => ?_
    obtain ⟨q, _, hsound⟩ := h e he
    have hsound : e.2.Sound roots _ := hsound
    rw [hsound.error hnot]
    rfl
  | error e => exact h

section Blocks

variable (hchunk : frame.code.chunk? r = some (.call name u binding [.function k]))
  (hblock : frame.code.function? k = some block)

omit hvalue hframe in
include hchunk hblock in
private theorem Row.Sound.fails {visits : List Visit} {e : EvalError} {element : Data}
    (h : Row.Sound roots most block element visits (.error e)) :
    Visit.Sound roots most visits ⟨frame, r, .error e⟩ := by
  obtain ⟨q, hq, hmem, hcause⟩ := h
  exact hcause.pass fun hfails => .block hchunk (List.mem_singleton_self _) hblock hq hmem hfails

variable (hbound : block.chunk? 1 = some (.property "_" elem)) (helem : elem.Permitted roots)

include hchunk hblock hbound helem

private theorem ensures_runsBlock {receiver : Data} (hreceiver : receiver.Within (.array elem))
    (hname : name = "where" ∧ u = .array elem ∨
      name = Builtin.projection ∧ u = .array (.map .string .any)) :
    (soundness roots most kept).Ensures frame seen
      (Builtin.apply (Traced.requests s frame value target).block name u receiver
        [.of (.function k) .functionLike])
      fun visits reply => Visit.Sound roots most visits ⟨frame, r, reply⟩ := by
  obtain ⟨v, typ, error⟩ := receiver
  obtain ⟨elem', rfl, hfits⟩ : ∃ elem', typ = .array elem' ∧ elem'.Fits elem := by
    cases hreceiver.typ with
    | refl => exact ⟨elem, rfl, .refl⟩
    | array h => exact ⟨_, rfl, h⟩
  rcases hreceiver.value.items with hnil | ⟨items, hitems, hconforms⟩
  · simp only at hnil
    subst hnil
    have hcomparison : Comparison.ofName? name = none := by
      rcases hname with ⟨rfl, _⟩ | ⟨rfl, _⟩
      · rfl
      · rfl
    simp only [Builtin.apply, hcomparison, Value.isNil, if_true]
    exact ensures_pure fun _ _ => .call hchunk (Data.sound_of .nil)
  · simp only at hitems
    subst hitems
    have hrow : ∀ item ∈ items, ∀ visits, seen ⊆ visits →
        (soundness roots most kept).Ensures frame visits
          ((Traced.requests s frame value target).block k (Builtin.element (.array elem') item))
          (Row.Sound roots most block (Builtin.element (.array elem') item)) := by
      intro item hitem _ _
      obtain ⟨hwithin, herror⟩ := Builtin.element_within (hconforms item hitem) hfits
      exact ensures_row hvalue hframe hblock hbound helem hwithin herror
    rcases hname with ⟨rfl, rfl⟩ | ⟨rfl, rfl⟩
    · show (soundness roots most kept).Ensures frame seen
        (do return .of (.array (← Builtin.keepItems _ items)) (.array elem') : Traced σ Data) _
      refine (ensures_keepItems (fun _ _ _ _ hmore h => h.mono hmore) hrow).bind
        (fun visits e _ h => ?_) fun items' visits _ h => ?_
      · obtain ⟨item, _, h | ⟨row, fault, hrow, hfault, rfl⟩⟩ := h
        · exact h.fails hchunk hblock
        · exact ⟨rfl, fun hnot =>
            absurd (hfault.symm.trans (hrow hnot)) (Option.some_ne_none fault)⟩
      · refine ensures_pure fun _ _ => .call hchunk ⟨⟨.array hfits, ?_⟩, fun _ => rfl⟩
        exact .array fun v hv => hconforms v (h hv)
    · show (soundness roots most kept).Ensures frame seen
        (do return .of (.array (← Builtin.projectItems _ items)) (.array (.map .string .any)) :
          Traced σ Data) _
      refine (ensures_projectItems hrow).bind (fun visits e _ h => ?_) fun rows visits _ h => ?_
      · obtain ⟨item, _, h⟩ := h
        exact h.fails hchunk hblock
      · refine ensures_pure fun _ _ => .call hchunk (Data.sound_of (.array fun v hv => ?_))
        obtain ⟨row, rfl⟩ := h v hv
        exact .map (fun _ _ => .string) fun _ _ => .any

end Blocks

private theorem ensures_function
    (hregular : roots → registry.Regular)
    {signature : Signature} (result : ResultRule)
    (hchunk : frame.code.chunk? r = some (.call name (result.apply t) binding ps))
    (hbinding : frame.code.HasType binding t)
    (hlookup : Builtins.standard.lookup? t name = some ⟨signature, .simple result⟩)
    (hsupplies : frame.code.Supplies ⟨registry, .standard⟩ t signature ps) :
    (soundness roots most kept).Ensures frame seen
      (Eval.call (Traced.requests s frame value target) (.call name (result.apply t) binding ps))
      fun visits reply => Visit.Sound roots most visits ⟨frame, r, reply⟩ := by
  have hpermitted := hframe.permitted hregular hbinding
  have hany := Builtins.ne_any_of_lookup? hlookup
  have hsound : Handler.Sound _ _ _ := Builtins.sound_standard hlookup
  obtain ⟨htakes, hrule, _⟩ := hsound
  obtain ⟨hrequired, hone, hfunction⟩ := htakes.of_underlying
  have hfit := hsupplies.fit_all hrequired
  refine ensures_apply hvalue hframe hchunk hbinding hany (Builtins.underlying_of_simple hlookup)
    fun receiver visits hreceiver => ?_
  have hclass := hreceiver.typ.underlying_eq hany
  by_cases hruns : Builtin.RunsBlock t name
  · obtain ⟨elem, rfl⟩ := hpermitted.eq_array hruns.1
    obtain ⟨k, block, rfl, hblock, hbound⟩ :=
      hframe.exists_block hregular hfit hone (hfunction.mpr hruns)
    have hgiven : Eval.operand (Traced.requests s frame value target) (.function k) =
        pure (.of (.function k) .functionLike) := by
      have htyp : ¬(Primitive.function k).typ = .ref := nofun
      rw [Eval.operand, if_neg htyp, Primitive.toData, Primitive.toValue_function]
      rfl
    rw [List.mapM_cons, List.mapM_nil, hgiven, pure_bind, pure_bind, pure_bind]
    refine ensures_runsBlock hvalue hframe hchunk hblock hbound hpermitted.elem hreceiver ?_
    rcases hruns.2 with rfl | rfl
    · exact .inl ⟨rfl, by rw [hrule .receiver rfl]; rfl⟩
    · exact .inr ⟨rfl, by rw [hrule (.fixed (.array (.map .string .any))) rfl]; rfl⟩
  · have hnone := mt hfunction.mp hruns
    have hblock : ¬Builtin.RunsBlock receiver.typ name := by rwa [Builtin.RunsBlock, hclass]
    refine ensures_direct hvalue hframe hchunk (fun p hp => ?_) hblock fun args hargs => ?_
    · obtain ⟨expected, hexpected, hp⟩ := exists_of_forall₂ hfit hp
      obtain ⟨t, ht, _⟩ := hp.exists_operand fun h => hnone (h ▸ hexpected)
      exact ⟨t, ht⟩
    · exact Builtin.direct_meets hlookup hruns hclass hreceiver.conforms
        (conforms_of_arguments hfit hnone hargs)

private theorem ensures_contains {found : Ty} {called : String} {signature : Signature}
    {form : SpecialForm}
    (hchunk : frame.code.chunk? r = some (.call name .bool binding [p]))
    (hbinding : frame.code.HasType binding t)
    (hlookup : Builtins.standard.lookup? t called = some ⟨signature, .special form⟩)
    (hfinds : form.Finds t found name) (hp : frame.code.Operand p found) :
    (soundness roots most kept).Ensures frame seen
      (Eval.call (Traced.requests s frame value target) (.call name .bool binding [p]))
      fun visits reply => Visit.Sound roots most visits ⟨frame, r, reply⟩ := by
  have hany := Builtins.ne_any_of_lookup? hlookup
  have hsound : Handler.Sound _ _ _ := Builtins.sound_standard hlookup
  have hclass : t.underlying ≠ .resourceLike := by
    intro hresource
    cases hfinds with
    | item => exact nomatch hresource.symm.trans hsound
    | part => exact nomatch hresource.symm.trans hsound
    | parts => exact nomatch hresource.symm.trans hsound
  have hblock (receiver : Ty) : ¬Builtin.RunsBlock receiver name := by
    cases hfinds <;> simp [Builtin.RunsBlock, Builtin.projection]
  refine ensures_apply hvalue hframe hchunk hbinding hany hclass
    fun receiver visits hreceiver => ?_
  refine ensures_direct hvalue hframe hchunk (fun q hq => ⟨found, List.mem_singleton.mp hq ▸ hp⟩)
    (hblock receiver.typ) fun args hargs => ?_
  obtain ⟨data, rest, hdata, hnone, rfl⟩ := List.forall₂_cons_left_iff.mp hargs
  obtain rfl := List.forall₂_nil_left_iff.mp hnone
  rw [hp.dereference] at hdata
  exact Builtin.direct_contains hlookup hfinds (hreceiver.typ.underlying_eq hany)
    hreceiver.conforms hdata.within.conforms

end Steps

section Resources

variable {most : Nat} {kept : Session σ → Prop} {s : Setting σ} {seen : List Visit}
  {value target : Frame → Ref → Traced σ Data} {frame : Frame} {r : Ref} {t u : Ty}
  {name resource : String} {binding : Ref} {ps : List Primitive}

private theorem ensures_field
    (hvalue : (soundness roots most kept).Answers (Frame.Has registry digest roots) value)
    (hserves : s.Serves registry kept) (hroots : roots)
    (hframe : frame.Compiled registry digest roots)
    (hchunk : frame.code.chunk? r = some (.call name u binding ps))
    (hbinding : frame.code.HasType binding (.resource resource)) {declared : Field}
    (hfield : registry.field? resource name = some declared) (hfits : declared.typ.Fits u) :
    (soundness roots most kept).Ensures frame seen
      (Eval.call (Traced.requests s frame value target) (.call name u binding ps))
      fun visits reply => Visit.Sound roots most visits ⟨frame, r, reply⟩ := by
  have hsound {visits : List Visit} {data : Data} (hdata : data.Within u) :
      Visit.Sound roots most visits ⟨frame, r, .ok data⟩ :=
    .call hchunk ⟨hdata, fun hnot => absurd hroots hnot⟩
  refine ensures_call hvalue hframe hchunk hbinding fun receiver visits hreceiver => ?_
  obtain ⟨v, typ, error⟩ := receiver
  obtain ⟨hclass, hconforms⟩ := hreceiver
  obtain rfl : typ = .resource resource := by cases hclass; rfl
  have hreads : Eval.readsField (Traced.requests s frame value target) (.resource resource) name =
      true := hserves.declares resource name declared hfield
  rw [if_pos hreads]
  cases hconforms with
  | nil => exact ensures_pure fun _ _ => hsound (Data.within_of .nil)
  | @resource _ id =>
    refine ensures_silent fun progress hkept reply after hrun => ?_
    replace hrun : (if (progress.session.instance? ⟨resource, id⟩).isSome then
      Execution.work (s.read ⟨resource, id⟩ name)
      else throw (.invalidArgument name (.notLoaded resource id))) progress = some (reply, after) :=
        hrun
    split at hrun
    · replace hrun : (s.read ⟨resource, id⟩ name progress.session).bind _ = some (reply, after) :=
        hrun
      rcases hread : s.read ⟨resource, id⟩ name progress.session with _ | ⟨found, session⟩
      · rw [hread] at hrun
        cases hrun
      · rw [hread] at hrun
        cases hrun
        obtain ⟨hkept, hdata⟩ :=
          hserves.read ⟨resource, id⟩ name declared _ hkept hfield found session hread
        refine ⟨hkept, rfl, fun visits _ => ?_⟩
        cases found with
        | ok data => exact hsound ((hdata data rfl).trans hfits)
        | error e => exact FailsSoundly.of_roots hroots rfl
    · cases hrun
      exact ⟨hkept, rfl, fun visits _ => FailsSoundly.of_roots hroots rfl⟩

private theorem ensures_namedArgs
    (hvalue : (soundness roots most kept).Answers (Frame.Has registry digest roots) value)
    (hframe : frame.Compiled registry digest roots) {entry : ResourceEntry F}
    (hentry : registry.resource? name = some entry) (hps : frame.code.Describes entry.info ps)
    {args : Dict Data} (hargs : registry.Takes name args) :
    (soundness roots most kept).Ensures frame seen
      (Eval.namedArgs (Traced.requests s frame value target) resource args ps) fun _ reply =>
        match reply with
        | .ok args => registry.Takes name args
        | .error e => e.isDangling = false := by
  induction hps generalizing seen args with
  | nil => exact ensures_pure fun _ _ => hargs
  | @cons field declared p t rest hdeclared hp hfits _ ih =>
    have hname : (Primitive.string field).asText = .ok field := Primitive.asText_string field
    rw [Eval.namedArgs, hname]
    refine (ensures_operand hvalue hframe hp).bind (fun visits e _ he => ?_)
      fun data visits _ hdata => ih (hargs.insert fun expected hexpected => ?_)
    · obtain ⟨q, _, _, hcause⟩ := he
      exact hcause.present
    · obtain ⟨_, hentry', hexpected⟩ := Option.bind_eq_some_iff.mp hexpected
      obtain rfl := Option.some.inj (hentry.symm.trans hentry')
      obtain rfl := Option.some.inj (hdeclared.symm.trans hexpected)
      have hsound := hdata.2.within
      rw [hp.dereference] at hsound
      exact .inl (hsound.trans (Ty.fits_of_compatible hfits))

private theorem ensures_create
    (hvalue : (soundness roots most kept).Answers (Frame.Has registry digest roots) value)
    (hserves : s.Serves registry kept) (hroots : roots)
    (hframe : frame.Compiled registry digest roots)
    (hchunk : frame.code.chunk? r = some (.call name (.resource name) 0 ps))
    {entry : ResourceEntry F} (hentry : registry.resource? name = some entry)
    (hps : frame.code.Describes entry.info ps) :
    (soundness roots most kept).Ensures frame seen
      (Eval.call (Traced.requests s frame value target) (.call name (.resource name) 0 ps))
      fun visits reply => Visit.Sound roots most visits ⟨frame, r, reply⟩ := by
  have hzero : (Chunk.call name (.resource name) 0 ps).binding = 0 := rfl
  rw [Eval.call, if_pos hzero]
  refine (ensures_namedArgs hvalue hframe hentry hps (registry.takes_empty name)).bind
    (fun visits e _ he => ?_)
    fun args visits _ hargs => ?_
  · exact FailsSoundly.of_roots hroots he
  · refine ensures_silent fun progress hkept reply after hrun => ?_
    replace hrun : (Execution.work (s.create name args) >>= fun key =>
      pure (.resource key.name key.id)) progress = some (reply, after) := hrun
    replace hrun : ((s.create name args progress.session).bind _).bind _ = some (reply, after) :=
      hrun
    rcases hcreate : s.create name args progress.session with _ | ⟨found, session⟩
    · rw [hcreate] at hrun
      cases hrun
    · rw [hcreate] at hrun
      obtain ⟨hkept, hkey⟩ := hserves.create name args _ hkept hargs found session hcreate
      cases found with
      | error e =>
        cases hrun
        exact ⟨hkept, rfl, fun visits _ => FailsSoundly.of_roots hroots rfl⟩
      | ok key =>
        cases hrun
        refine ⟨hkept, rfl, fun visits _ => show Data.Sound roots _ _ from ?_⟩
        rw [(Code.hasType_call hchunk).chunkType, ← hkey key rfl]
        exact Data.sound_of .resource

private theorem ensures_chunk
    (hvalue : (soundness roots most kept).Answers (Frame.Has registry digest roots) value)
    (hregular : roots → registry.Regular) (hserves : roots → s.Serves registry kept)
    (hhas : frame.Has registry digest roots r) :
    (soundness roots most kept).Ensures frame seen
      (Eval.chunk (Traced.requests s frame value target) frame r)
      fun visits reply => Visit.Sound roots most visits ⟨frame, r, reply⟩ := by
  obtain ⟨hframe, hsome⟩ := hhas
  obtain ⟨c, hc⟩ := Option.isSome_iff_exists.mp hsome
  have hpermitted {binding : Ref} {t : Ty} (h : frame.code.HasType binding t) :=
    hframe.permitted hregular h
  rw [Eval.chunk, hc]
  rcases hframe.cases_chunk hc with ⟨t, data, rfl, hdata, hwithin, herror⟩ | hadmits
  · simp only [Chunk.property, hdata]
    refine ensures_pure fun _ _ => show data.Sound roots _ from ?_
    rw [(Code.hasType_property hc).chunkType]
    split
    · exact ⟨hwithin.trans .any, fun _ => herror⟩
    · exact ⟨hwithin, fun _ => herror⟩
  · cases hadmits with
    | @constant l p hp =>
      have hwritten := Literal.toPrimitive_written hp
      have href := Ty.ne_ref_of_isLiteral hwritten.isLiteral
      show (soundness roots most kept).Ensures frame seen
        (Eval.constant (Traced.requests s frame value target) r (some p)) _
      rw [Eval.constant, if_neg href, Literal.toData_of_toPrimitive hp]
      refine ensures_pure fun _ _ => show l.toData.Sound roots _ from ?_
      rw [Code.chunkType_ofPrimitive hc href, hwritten.typ]
      exact Data.sound_of (Value.conforms_inferType _)
    | resource hroots hentry hps =>
      exact ensures_create hvalue (hserves hroots) hroots hframe hc hentry hps
    | field hbinding hfield =>
      obtain ⟨resource, rfl, hfield⟩ := Vocabulary.field?_eq_some hfield
      have hroots : roots := Classical.byContradiction fun hnot =>
        Bool.false_ne_true ((hpermitted hbinding).literal hnot)
      exact ensures_field hvalue (hserves hroots) hroots hframe hc hbinding hfield .refl
    | function hbinding _ hlookup hsupplies =>
      exact ensures_function hvalue hframe hregular _ hc hbinding hlookup hsupplies
    | contains hbinding hlookup hfinds hp =>
      exact ensures_contains hvalue hframe hc hbinding hlookup hfinds hp
    | list hbinding hlookup hform helem =>
      have hclass := Builtins.sound_standard hlookup
      have hroots : roots := Classical.byContradiction fun hnot => by
        have hne := Ty.underlying_of_isLiteral ((hpermitted hbinding).literal hnot)
        rcases hform with rfl | rfl
        · exact hne hclass
        · exact hne hclass
      obtain ⟨_, resource, declared, rfl, hfield, hfits⟩ := (hregular hroots).exists_list helem
      exact ensures_field hvalue (hserves hroots) hroots hframe hc hbinding hfield hfits
    | length hlist =>
      exact ensures_function hvalue hframe hregular (.fixed .int) hc hlist
        Builtins.lookup?_length ⟨.nil, .inl (Nat.le_refl _)⟩
    | filter hlist hsupplies =>
      exact ensures_function hvalue hframe hregular .receiver hc hlist
        Builtins.lookup?_where hsupplies

end Resources

/-- Every chunk that the execution of a compiled query evaluates is sound. -/
theorem Setting.visits_sound {query : List Expr} (hquery : ∀ e ∈ query, roots ∨ e.rootless)
    (hsize : 2 * Expr.bodySize query < 2 ^ 31) {code : Code}
    (hcompile : Vocabulary.compile ⟨registry, .standard⟩ digest query = .ok code)
    {s : Setting σ} {kept : Session σ → Prop} (hregular : roots → registry.Regular)
    (hserves : roots → s.Serves registry kept) {session : Session σ} (hsession : kept session)
    {result : List (Ref × Answer) × Session σ} {visits : List Visit}
    (hrun : s.trace code .empty session = some (result, visits)) :
    kept result.2 ∧ ∀ v ∈ visits, v.Sound roots s.config.maxDepth visits := by
  rw [Vocabulary.compile] at hcompile
  split at hcompile
  · next built hbuilt =>
    obtain rfl := Except.ok.inj hcompile
    have hroom : Code.empty.Room (2 * Expr.bodySize query) :=
      ⟨by simpa [Code.empty] using hsize, by simpa [Code.empty] using hsize⟩
    have hassembles : ∀ e ∈ query, e.Assembles ⟨registry, .standard⟩ roots := fun e he =>
      e.assembles _ (hquery e he)
    obtain ⟨hassembled, _⟩ := Expr.compileBody_assembled hassembles .empty hroom hbuilt
    have hanswers : (soundness roots s.config.maxDepth kept).Answers
        (Frame.Has registry digest roots) (Traced.value s (s.config.maxDepth + 1)) :=
      answers_value (fun _ _ _ => FailsSoundly.depth)
        (fun _ _ hvalue _ _ _ _ hhas => ensures_chunk hvalue hregular hserves hhas) _
    refine hanswers.trace (fun r hr =>
      ⟨.intro hassembled fun t ht => absurd ht (Option.not_mem_none t), ?_⟩) hsession hrun
    rw [Code.stamp_chunk?]
    exact Code.isSome_of_earlier
      (hassembled.entrypoints r ((Code.stamp_eq digest built).2.1 ▸ hr))
  · cases hcompile

end AssetQuery
