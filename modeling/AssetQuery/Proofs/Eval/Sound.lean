import AssetQuery.Proofs.Builtin.Typed
import AssetQuery.Proofs.Compile.WellFormed
import AssetQuery.Proofs.Eval.Assurance
import AssetQuery.Proofs.Registry

/-!
# Soundness of types

What is to hold of every chunk that is evaluated: data is of the type that compilation gave the
chunk, and no failure is that something is not there which the chunk refers to. Of queries that
create no resources more is to hold. Their data stands for no failure, and a failure is the limit to
depth or comes of an argument that is nil.
-/

namespace AssetQuery

variable {F σ : Type} {registry : Registry F} {digest : Digest} {roots : Prop} {scope : Option Ty}
  {code : Code} {t u : Ty}

/-- Data of a type or of one below it, with a value of its own type. -/
structure Data.Within (t : Ty) (data : Data) : Prop where
  typ : data.typ.Fits t
  value : data.value.Conforms data.typ

namespace Data

variable {data : Data}

theorem Within.conforms (h : data.Within t) : data.value.Conforms t := h.value.of_fits h.typ

theorem Within.trans (h : data.Within t) (hfits : t.Fits u) : data.Within u :=
  ⟨h.typ.trans hfits, h.value⟩

theorem within_of {v : Value} (h : v.Conforms t) : (of v t).Within t := ⟨.refl, h⟩

theorem within_failed (t : Ty) (cause : String) : (failed t cause).Within t := ⟨.refl, .nil⟩

end Data

/-- Whether a failure is that something is not there which a chunk refers to. -/
def EvalError.isDangling : EvalError → Bool
  | invalidReference _ | invalidFunction _ | unknownFunction _ _ | missingProperty _ => true
  | _ => false

/-- What a primitive is as an argument, given the visits made: the value of the chunk it refers to,
or its own. -/
def Given (visits : List Visit) (frame : Frame) (p : Primitive) (data : Data) : Prop :=
  (∃ r, p = .ref r ∧ ⟨frame, r, .ok data⟩ ∈ visits) ∨ p.toData = .ok data

/-- Whether a chunk fails because a function refused an argument that is nil: the chunk's own, or
one of a chunk or a block that it failed with. -/
inductive FailsByNil (visits : List Visit) : Frame → Ref → EvalError → Prop
  | argument {frame : Frame} {r : Ref} {c : Chunk} {p : Primitive} {data : Data}
    {fault : ArgumentFault} : frame.code.chunk? r = some c → p ∈ c.args →
    Given visits frame p data → data.value = .nil →
    FailsByNil visits frame r (.invalidArgument c.id fault)
  | receiver {frame : Frame} {r : Ref} {c : Chunk} {e : EvalError} :
    frame.code.chunk? r = some c → ⟨frame, c.binding, .error e⟩ ∈ visits →
    FailsByNil visits frame c.binding e → FailsByNil visits frame r e
  | operand {frame : Frame} {r q : Ref} {c : Chunk} {e : EvalError} :
    frame.code.chunk? r = some c → .ref q ∈ c.args → ⟨frame, q, .error e⟩ ∈ visits →
    FailsByNil visits frame q e → FailsByNil visits frame r e
  | block {frame : Frame} {r q k : Ref} {c : Chunk} {block : Code} {element : Data}
    {e : EvalError} : frame.code.chunk? r = some c → .function k ∈ c.args →
    frame.code.function? k = some block → q ∈ block.entrypoints →
    ⟨.ofBlock block element, q, .error e⟩ ∈ visits →
    FailsByNil visits (.ofBlock block element) q e → FailsByNil visits frame r e

theorem Given.mono {visits visits' : List Visit} (h : visits ⊆ visits') {frame : Frame}
    {p : Primitive} {data : Data} (hgiven : Given visits frame p data) :
    Given visits' frame p data :=
  hgiven.imp (fun ⟨r, hr, hmem⟩ => ⟨r, hr, h hmem⟩) id

private theorem FailsByNil.mono {visits visits' : List Visit} (h : visits ⊆ visits') {frame : Frame}
    {r : Ref} {e : EvalError} (hfails : FailsByNil visits frame r e) :
    FailsByNil visits' frame r e := by
  induction hfails with
  | argument hc hp hgiven hnil => exact .argument hc hp (hgiven.mono h) hnil
  | receiver hc hmem _ ih => exact .receiver hc (h hmem) ih
  | operand hc hp hmem _ ih => exact .operand hc hp (h hmem) ih
  | block hc hp hblock hq hmem _ ih => exact .block hc hp hblock hq (h hmem) ih

structure FailsSoundly (roots : Prop) (most : Nat) (visits : List Visit) (frame : Frame) (r : Ref)
    (e : EvalError) : Prop where
  present : e.isDangling = false
  cause : ¬roots → e = .depthExceeded most ∨ FailsByNil visits frame r e

theorem FailsSoundly.mono {most : Nat} {visits visits' : List Visit} {frame : Frame} {r : Ref}
    {e : EvalError} (hmore : visits ⊆ visits') (h : FailsSoundly roots most visits frame r e) :
    FailsSoundly roots most visits' frame r e :=
  ⟨h.present, fun hroots => (h.cause hroots).imp id (FailsByNil.mono hmore)⟩

theorem FailsSoundly.of_roots {most : Nat} {visits : List Visit} {frame : Frame} {r : Ref}
    {e : EvalError} (hroots : roots) (h : e.isDangling = false) :
    FailsSoundly roots most visits frame r e :=
  ⟨h, fun hnot => absurd hroots hnot⟩

theorem FailsSoundly.depth {most : Nat} {visits : List Visit} {frame : Frame} {r : Ref} :
    FailsSoundly roots most visits frame r (.depthExceeded most) :=
  ⟨rfl, fun _ => .inl rfl⟩

/-- A chunk fails as one does that it asks for. -/
theorem FailsSoundly.pass {most : Nat} {visits : List Visit} {frame inner : Frame} {r q : Ref}
    {e : EvalError} (h : FailsSoundly roots most visits inner q e)
    (hpass : FailsByNil visits inner q e → FailsByNil visits frame r e) :
    FailsSoundly roots most visits frame r e :=
  ⟨h.present, fun hroots => (h.cause hroots).imp id hpass⟩

structure Data.Sound (roots : Prop) (t : Ty) (data : Data) : Prop where
  within : data.Within t
  error : ¬roots → data.error = none

theorem Data.sound_of {v : Value} (h : v.Conforms t) : (Data.of v t).Sound roots t :=
  ⟨within_of h, fun _ => rfl⟩

/-- Whether what becomes of a chunk is sound. -/
def Visit.Sound (roots : Prop) (most : Nat) (visits : List Visit) (v : Visit) : Prop :=
  match v.outcome with
  | .ok data => data.Sound roots (v.frame.code.chunkType v.r)
  | .error e => FailsSoundly roots most visits v.frame v.r e

/-- What is to hold of chunks, where sessions are kept as they are to be. -/
def soundness (roots : Prop) (most : Nat) (kept : Session σ → Prop) : Assurance σ where
  session := kept
  outcome visits frame r o := Visit.Sound roots most visits ⟨frame, r, o⟩
  mono {visits visits' frame r o} hmore h := by
    cases o with
    | ok data => exact h
    | error e => exact FailsSoundly.mono hmore h

namespace Ty

private theorem isDefinite_of_isLiteral {t : Ty} (h : t.isLiteral) : t.isDefinite := by
  induction t with
  | array elem ih =>
    rw [isLiteral] at h
    rw [isDefinite]
    exact ih h
  | map key value ihkey ihvalue =>
    rw [isLiteral, Bool.and_eq_true] at h
    rw [isDefinite, Bool.and_eq_true]
    exact ⟨ihkey h.1, ihvalue h.2⟩
  | arrayLike => cases h
  | functionLike => cases h
  | _ => rfl

structure Permitted (roots : Prop) (t : Ty) : Prop where
  definite : t.isDefinite
  literal : ¬roots → t.isLiteral

theorem permitted_of_isLiteral (h : t.isLiteral) : t.Permitted roots :=
  ⟨isDefinite_of_isLiteral h, fun _ => h⟩

namespace Permitted

theorem array {elem : Ty} (h : elem.Permitted roots) : (Ty.array elem).Permitted roots :=
  ⟨h.definite, h.literal⟩

theorem elem {elem : Ty} (h : (Ty.array elem).Permitted roots) : elem.Permitted roots :=
  ⟨h.definite, h.literal⟩

private theorem key {key value : Ty} (h : (Ty.map key value).Permitted roots) :
    key.Permitted roots :=
  ⟨(Bool.and_eq_true_iff.mp h.definite).1, fun hroots =>
    (Bool.and_eq_true_iff.mp (h.literal hroots)).1⟩

private theorem value {key value : Ty} (h : (Ty.map key value).Permitted roots) :
    value.Permitted roots :=
  ⟨(Bool.and_eq_true_iff.mp h.definite).2, fun hroots =>
    (Bool.and_eq_true_iff.mp (h.literal hroots)).2⟩

private theorem child (h : t.Permitted roots) : (t.child?.getD .any).Permitted roots := by
  cases t with
  | array elem => exact h.elem
  | map key value => exact h.value
  | _ => exact permitted_of_isLiteral rfl

private theorem apply {rule : ResultRule} (hrule : rule.isLiteral) (h : t.Permitted roots) :
    (rule.apply t).Permitted roots := by
  cases rule with
  | fixed u => exact permitted_of_isLiteral hrule
  | receiver => exact h
  | child => exact h.child
  | keys =>
    refine array ?_
    cases t with
    | map key value => exact h.key
    | _ => exact permitted_of_isLiteral rfl
  | values => exact h.child.array

theorem eq_array (h : t.Permitted roots) (harray : t.underlying = .arrayLike) :
    ∃ elem, t = .array elem := by
  cases t with
  | array elem => exact ⟨elem, rfl⟩
  | arrayLike => cases h.definite
  | _ => cases harray

private theorem not_compatible (h : t.Permitted roots) : t.compatible .functionLike = false := by
  cases t with
  | functionLike => cases h.definite
  | _ => rfl

end Permitted

end Ty

theorem Registry.Regular.exists_list (h : registry.Regular) {elem : Ty}
    (helem : Vocabulary.listType? ⟨registry, .standard⟩ t = some elem) :
    elem.isDefinite ∧ ∃ name declared, t = .resource name ∧
      registry.field? name "list" = some declared ∧ declared.typ.Fits (.array elem) := by
  obtain ⟨entry, hentry, hlist⟩ := Option.bind_eq_some_iff.mp helem
  cases hname : t.resourceName? with
  | none =>
    rw [hname] at hentry
    rw [h.nameless entry hentry] at hlist
    cases hlist
  | some name =>
    obtain rfl : t = .resource name := by
      cases t with
      | resource other => exact congrArg Ty.resource (Option.some.inj hname)
      | _ => cases hname
    rw [hname] at hentry
    obtain ⟨hdefinite, declared, hdeclared, hfits⟩ :=
      (h.resources name entry hentry).list elem hlist
    refine ⟨hdefinite, name, declared, rfl, ?_, hfits⟩
    rw [field?]
    exact Option.bind_eq_some_iff.mpr ⟨entry, hentry, hdeclared⟩

theorem Vocabulary.field?_eq_some {v : Vocabulary F} {name : String} {declared : Field}
    (h : v.field? t name = some declared) :
    ∃ resource, t = .resource resource ∧ v.registry.field? resource name = some declared := by
  obtain ⟨resource, hresource, hfield⟩ := Option.bind_eq_some_iff.mp h
  cases t with
  | resource other =>
    obtain rfl := Option.some.inj hresource
    exact ⟨other, rfl, hfield⟩
  | _ => cases hresource

private theorem Code.Assembled.permitted (h : code.Assembled ⟨registry, .standard⟩ roots scope)
    (hregular : roots → registry.Regular) (hscope : ∀ t ∈ scope, t.Permitted roots) {r : Ref}
    (ht : code.HasType r t) : t.Permitted roots := by
  induction h generalizing r t with
  | empty =>
    obtain ⟨c, hc⟩ := Option.isSome_iff_exists.mp ht.1
    cases (getElem?_of_chunk? hc).2
  | start bound =>
    obtain ⟨c, hc⟩ := Option.isSome_iff_exists.mp ht.1
    obtain ⟨_, rfl⟩ := getElem?_blockStart (getElem?_of_chunk? hc).2
    rw [ht.unique (hasType_property hc)]
    split
    · exact Ty.permitted_of_isLiteral rfl
    · exact hscope bound rfl
  | function _ _ ih => exact ih hscope ht
  | entrypoint _ _ ih => exact ih hscope ht
  | @chunk scope code c h hc ih =>
    obtain ⟨d, hd⟩ := Option.isSome_iff_exists.mp ht.1
    obtain ⟨hpos, hat⟩ := getElem?_of_chunk? hd
    rcases getElem?_addChunk_cases hat with hold | ⟨_, rfl⟩
    · exact ih hscope (ht.congr ((chunk?_of_getElem? hpos hold).trans hd.symm))
    · have hof {u : Ty} (hu : u.isDefinite) (hroots : roots) : u.Permitted roots :=
        ⟨hu, fun hnot => absurd hroots hnot⟩
      cases hc with
      | constant hp =>
        have hliteral := (Literal.toPrimitive_written hp).isLiteral
        exact ht.unique (hasType_ofPrimitive hd (Ty.ne_ref_of_isLiteral hliteral)) ▸
          Ty.permitted_of_isLiteral hliteral
      | resource hroots => exact ht.unique (hasType_call hd) ▸ hof rfl hroots
      | field hbinding hfield =>
        obtain ⟨resource, rfl, hfield⟩ := Vocabulary.field?_eq_some hfield
        have hroots : roots := Classical.byContradiction fun hnot =>
          Bool.false_ne_true ((ih hscope hbinding).literal hnot)
        exact ht.unique (hasType_call hd) ▸
          hof ((hregular hroots).field hfield).definite hroots
      | function hbinding _ hlookup _ =>
        rw [ht.unique (hasType_call hd)]
        exact (ih hscope hbinding).apply (Builtins.sound_standard hlookup).2.2
      | contains => exact ht.unique (hasType_call hd) ▸ Ty.permitted_of_isLiteral rfl
      | list hbinding hlookup hform helem =>
        have hclass := Builtins.sound_standard hlookup
        have hroots : roots := Classical.byContradiction fun hnot => by
          have hne := Ty.underlying_of_isLiteral ((ih hscope hbinding).literal hnot)
          rcases hform with rfl | rfl
          · exact hne hclass
          · exact hne hclass
        have hlist := (hof ((hregular hroots).exists_list helem).1 hroots).array
        exact ht.unique (hasType_call hd) ▸ hlist
      | length => exact ht.unique (hasType_call hd) ▸ Ty.permitted_of_isLiteral rfl
      | filter hlist _ => exact ht.unique (hasType_call hd) ▸ ih hscope hlist

/-- A compiled query, or a block of one about an element of its type. -/
inductive Frame.Compiled (registry : Registry F) (digest : Digest) (roots : Prop) : Frame → Prop
  | intro {scope : Option Ty} {code : Code} {props : Dict Data}
    (assembled : code.Assembled ⟨registry, .standard⟩ roots scope)
    (element : ∀ t ∈ scope, t.Permitted roots ∧ ∃ data, props.find? "_" = some data ∧
      data.Within t ∧ data.error = none) :
    Compiled registry digest roots ⟨code.stamp digest, props⟩

/-- Whether a frame has a chunk and is of the kind that is executed. -/
def Frame.Has (registry : Registry F) (digest : Digest) (roots : Prop) (frame : Frame) (r : Ref) :
    Prop :=
  frame.Compiled registry digest roots ∧ (frame.code.chunk? r).isSome

namespace Frame.Compiled

variable {frame : Frame} {r : Ref} {c : Chunk}

/-- A chunk is the element that a block is about, or one that its code admits. -/
theorem cases_chunk (h : frame.Compiled registry digest roots)
    (hc : frame.code.chunk? r = some c) :
    (∃ t data, c = .property "_" t ∧ frame.props.find? "_" = some data ∧ data.Within t ∧
      data.error = none) ∨ frame.code.Admits ⟨registry, .standard⟩ roots c := by
  obtain @⟨scope, code, props, assembled, element⟩ := h
  replace hc : (code.stamp digest).chunk? r = some c := hc
  rw [Code.stamp_chunk?] at hc
  rcases assembled.admits hc with ⟨t, ht, rfl⟩ | hadmits
  · obtain ⟨_, data, hdata, hwithin, herror⟩ := element t ht
    exact .inl ⟨t, data, rfl, hdata, hwithin, herror⟩
  · exact .inr (hadmits.of_within (Code.within_stamp digest code))

theorem permitted (h : frame.Compiled registry digest roots) (hregular : roots → registry.Regular)
    (ht : frame.code.HasType r t) : t.Permitted roots := by
  obtain @⟨scope, code, props, assembled, element⟩ := h
  refine assembled.permitted hregular (fun t ht => (element t ht).1) (r := r) (ht.congr ?_)
  exact (Code.stamp_chunk? digest code r).symm

private theorem permitted_operand (h : frame.Compiled registry digest roots)
    (hregular : roots → registry.Regular) {p : Primitive} (hp : frame.code.Operand p t) :
    t.Permitted roots := by
  cases hp with
  | chunk ht => exact h.permitted hregular ht
  | constant hp => exact Ty.permitted_of_isLiteral (Literal.toPrimitive_written hp).isLiteral

/-- A block about an element of its type is executed as the query is. -/
theorem ofBlock (h : frame.Compiled registry digest roots) {k : Ref} {block : Code}
    (hblock : frame.code.function? k = some block) {bound : Ty}
    (hbound : block.chunk? 1 = some (.property "_" bound)) (hpermitted : bound.Permitted roots)
    {data : Data} (hdata : data.Within bound) (herror : data.error = none) :
    (Frame.ofBlock block data).Compiled registry digest roots ∧
      ∀ q ∈ block.entrypoints, (block.chunk? q).isSome := by
  obtain @⟨scope, code, props, assembled, _⟩ := h
  replace hblock : (code.stamp digest).function? k = some block := hblock
  rw [Code.stamp_function?] at hblock
  obtain ⟨inner, hinner, rfl⟩ := Option.map_eq_some_iff.mp hblock
  rw [Code.stamp_chunk?] at hbound
  have hassembled := assembled.block hinner hbound
  refine ⟨.intro hassembled ?_, fun q hq => ?_⟩
  · rintro t ⟨⟩
    exact ⟨hpermitted, data, rfl, hdata, herror⟩
  · rw [Code.stamp_chunk?]
    exact Code.isSome_of_earlier
      (hassembled.entrypoints q ((Code.stamp_eq digest inner).2.1 ▸ hq))

/-- What is declared as a block is one. -/
theorem exists_block (h : frame.Compiled registry digest roots)
    (hregular : roots → registry.Regular) {elem : Ty} {declared : List Ty} {ps : List Primitive}
    (hfit : List.Forall₂ (frame.code.Argument ⟨registry, .standard⟩ (.array elem)) declared ps)
    (hone : declared.length ≤ 1) (hmem : .functionLike ∈ declared) :
    ∃ k block, ps = [.function k] ∧ frame.code.function? k = some block ∧
      block.chunk? 1 = some (.property "_" elem) := by
  obtain ⟨expected, rfl⟩ : ∃ expected, declared = [expected] :=
    List.length_eq_one_iff.mp (Nat.le_antisymm hone (List.length_pos_of_mem hmem))
  obtain rfl := List.mem_singleton.mp hmem
  obtain ⟨p, rest, hp, hnone, rfl⟩ := List.forall₂_cons_left_iff.mp hfit
  obtain rfl := List.forall₂_nil_left_iff.mp hnone
  cases hp with
  | operand hp hfits =>
    rw [(h.permitted_operand hregular hp).not_compatible] at hfits
    cases hfits
  | @block k block _ hblock hbound => exact ⟨k, block, rfl, hblock, hbound⟩

end Frame.Compiled

end AssetQuery
