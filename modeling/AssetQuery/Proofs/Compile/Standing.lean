import AssetQuery.Proofs.Code.Growth
import AssetQuery.Proofs.Compile.Build
import AssetQuery.Proofs.Compile.Literal
import AssetQuery.Proofs.Eval.Plain

/-!
# What chunks stand for

A chunk stands for an expression if, in every code that goes on from there, it evaluates to what
the expression evaluates to. A constant and the element of a block stand for themselves; a call
stands for a call of the expression that its receiver stands for, if its arguments pass what they
should.
-/

namespace AssetQuery

/-- Data that is no failure and has a type, where `any` leaves the type open. -/
def Data.Fits (t : Ty) (data : Data) : Prop := data.error = none ∧ (data.typ = t ∨ t = .any)

/-- Whether there is an item of the type in scope, if there is one in scope. -/
def ItemFits (scope : Option Ty) (item : Option Data) : Prop :=
  ∀ t ∈ scope, ∃ data ∈ item, data.Fits t

structure Frame.Continues (frame : Frame) (digest : Digest) (code : Code) (item : Option Data) :
    Prop where
  chunks : code.chunks <+: frame.code.chunks
  functions : code.functions.map (Code.stamp digest) <+: frame.code.functions
  item : frame.props.find? "_" = item

theorem Frame.Continues.of_grows {frame : Frame} {digest : Digest} {code code' : Code}
    {item : Option Data} {most : Nat} (h : frame.Continues digest code' item)
    (hgrows : code.Grows most code') : frame.Continues digest code item :=
  ⟨hgrows.chunks.trans h.chunks, (hgrows.functions.map _).trans h.functions, h.item⟩

namespace Code

/-- Whether the first chunk is the element in scope, if there is one. -/
def Opens (code : Code) (scope : Option Ty) : Prop :=
  ∀ t ∈ scope, t.isLiteral ∧ code.chunk? 1 = some (.property "_" t)

theorem Opens.of_grows {code code' : Code} {scope : Option Ty} {most : Nat}
    (h : code.Opens scope) (hgrows : code.Grows most code') : code'.Opens scope :=
  fun t ht => ⟨(h t ht).1, chunk?_of_leading hgrows.chunks (h t ht).2⟩

theorem Opens.length_pos {code : Code} {scope : Option Ty} (h : code.Opens scope)
    (hscope : scope.isSome) : 0 < code.chunks.length := by
  obtain ⟨t, rfl⟩ := Option.isSome_iff_exists.mp hscope
  have hchunk : code.chunks[0]? = some (.property "_" t) := (h t rfl).2
  exact (List.getElem?_eq_some_iff.mp hchunk).1

/-- Whether a chunk has a type and stands for an expression, in every code that goes on. -/
structure Stands (code : Code) (digest : Digest) (scope : Option Ty) (r : Ref) (e : Expr)
    (t : Ty) : Prop where
  number : r ≠ 0
  isLiteral : t.isLiteral
  typ : ∀ code' : Code, code.chunks <+: code'.chunks → code'.chunkType r = t
  value : ∀ declares frame item, Frame.Continues frame digest code item → ItemFits scope item →
    (Plain.value (.declaring declares) e.size frame r).run = some (e.evaluate item)
  fits : ∀ item data, ItemFits scope item → e.evaluate item = .ok data → data.Fits t

theorem Stands.of_grows {code code' : Code} {digest : Digest} {scope : Option Ty} {r : Ref}
    {e : Expr} {t : Ty} {most : Nat} (h : code.Stands digest scope r e t)
    (hgrows : code.Grows most code') : code'.Stands digest scope r e t where
  number := h.number
  isLiteral := h.isLiteral
  typ _ hlead := h.typ _ (hgrows.chunks.trans hlead)
  value _ _ _ hframe hitem := h.value _ _ _ (hframe.of_grows hgrows) hitem
  fits := h.fits

variable {code : Code} {digest : Digest} {scope : Option Ty}

theorem stands_literal {l : Literal} {p : Primitive} (hp : l.toPrimitive = .ok p) {r : Ref}
    (hnumber : r ≠ 0) (hr : code.chunk? r = some (.ofPrimitive p)) :
    code.Stands digest scope r (.literal l) p.typ := by
  have hwritten := Literal.toPrimitive_written hp
  have href : p.typ ≠ .ref := Ty.ne_ref_of_isLiteral hwritten.isLiteral
  have hdata := Literal.toData_of_toPrimitive hp
  refine ⟨hnumber, hwritten.isLiteral, fun code' hlead => ?_,
    fun declares frame item hframe _ => ?_, fun item data _ hdata => ?_⟩
  · exact chunkType_ofPrimitive (chunk?_of_leading hlead hr) href
  · have hchunk : frame.code.chunk? r = some (.ofPrimitive p) :=
      chunk?_of_leading hframe.chunks hr
    show (Eval.chunk _ frame r).run = _
    rw [Eval.chunk, hchunk]
    show (Eval.constant _ r (some p)).run = _
    rw [Eval.constant, if_neg href, hdata]
    rfl
  · rw [← Except.ok.inj hdata, hwritten.typ]
    exact ⟨rfl, .inl rfl⟩

theorem stands_element {t : Ty} (h : code.Opens (some t)) :
    code.Stands digest (some t) 1 .element t := by
  obtain ⟨hliteral, hchunk⟩ := h t rfl
  have hvalue {item : Option Data} (hitem : ItemFits (some t) item) :
      ∃ data, item = some data ∧ data.Fits t := by
    obtain ⟨data, hdata, hfits⟩ := hitem t rfl
    exact ⟨data, hdata, hfits⟩
  refine ⟨by decide, hliteral, fun code' hlead => ?_, fun declares frame item hframe hitem => ?_,
    fun item data hitem hdata => ?_⟩
  · exact chunkType_property (chunk?_of_leading hlead hchunk) (Ty.ne_ref_of_isLiteral hliteral)
  · obtain ⟨data, rfl, _⟩ := hvalue hitem
    have hchunk : frame.code.chunk? 1 = some (.property "_" t) :=
      chunk?_of_leading hframe.chunks hchunk
    show (Eval.chunk _ frame 1).run = _
    rw [Eval.chunk, hchunk]
    simp only [Chunk.property, hframe.item]
    rfl
  · obtain ⟨found, rfl, hfits⟩ := hvalue hitem
    exact Except.ok.inj hdata ▸ hfits

/-- What evaluation asks for below a chunk, where of resources only the declarations are known. -/
abbrev repliesBelow (declares : (resource field : String) → Bool) (depth : Nat) (frame : Frame) :
    Requests Option :=
  Plain.requests (.declaring declares) frame (Plain.value (.declaring declares) depth)

structure Denotes (code : Code) (digest : Digest) (scope : Option Ty) (p : Primitive) (e : Expr)
    (t : Ty) : Prop where
  isLiteral : t.isLiteral
  typ : code.dereference p = t
  value : ∀ declares frame item depth, Frame.Continues frame digest code item →
    ItemFits scope item → e.size ≤ depth →
    (Eval.operand (repliesBelow declares depth frame) p).run = some (e.evaluate item)
  fits : ∀ item data, ItemFits scope item → e.evaluate item = .ok data → data.Fits t

theorem denotes_literal {l : Literal} {p : Primitive} (hp : l.toPrimitive = .ok p) :
    code.Denotes digest scope p (.literal l) p.typ := by
  have hwritten := Literal.toPrimitive_written hp
  have href : p.typ ≠ .ref := Ty.ne_ref_of_isLiteral hwritten.isLiteral
  refine ⟨hwritten.isLiteral, dereference_of_ne_ref code href, fun _ _ _ _ _ _ _ => ?_,
    fun item data _ hdata => ?_⟩
  · rw [Eval.operand, if_neg href, Literal.toData_of_toPrimitive hp]
    rfl
  · rw [← Except.ok.inj hdata, hwritten.typ]
    exact ⟨rfl, .inl rfl⟩

theorem Stands.denotes {r : Ref} {e : Expr} {t : Ty} (h : code.Stands digest scope r e t) :
    code.Denotes digest scope (.ref r) e t := by
  refine ⟨h.isLiteral, (dereference_ref code r).trans (h.typ code List.prefix_rfl),
    fun declares frame item depth hframe hitem hdepth => ?_, h.fits⟩
  have hr : (Primitive.ref r).asRef = .ok r := Primitive.asRef_scalar .ref r
  have htyp : (Primitive.ref r).typ = .ref := rfl
  rw [Eval.operand, if_pos htyp, hr]
  exact Plain.value_mono hdepth (h.value declares frame item hframe hitem)

/-- Whether primitives pass to a function, called on data of type `t`, what arguments of a call of
`name` are. -/
structure Passes (code : Code) (digest : Digest) (scope : Option Ty) (t : Ty) (name : String)
    (args : List (Arg Expr)) (function : String) (u : Ty) (ps : List Primitive) : Prop where
  resolves : ∀ item values, ItemFits scope item → Expr.evaluateArgs args item = .ok values →
    Builtin.resolve? t name (values.map (·.typ)) = some (function, u)
  value : ∀ declares frame item depth receiver, Frame.Continues frame digest code item →
    ItemFits scope item → Expr.argsSize args ≤ depth → receiver.typ = t →
    (do
      let values ← ps.mapM (Eval.operand (repliesBelow declares depth frame))
      Builtin.apply (repliesBelow declares depth frame).block function u receiver values :
        Plain Data).run =
      some (do
        let values ← Expr.evaluateArgs args item
        Builtin.dispatch (Expr.evaluateBlock args) name receiver values)

section Passes

variable {t u : Ty} {name function : String}

theorem apply_run_of_not_runsBlock {block : Ref → Data → Plain Row}
    (hblock : ¬Builtin.RunsBlock t function) {receiver : Data} (hreceiver : receiver.typ = t)
    {values : List Data}
    (hresolve : Builtin.resolve? t name (values.map (·.typ)) = some (function, u))
    (block' : Data → Except EvalError Row) :
    (Builtin.apply block function u receiver values).run =
      some (Builtin.dispatch block' name receiver values) := by
  subst hreceiver
  rw [Builtin.dispatch_eq hresolve, Builtin.apply_of_not_runsBlock fun h => absurd h hblock]
  have happly : Plain.ending.Rel
      (Builtin.apply (fun _ _ => throw (.missingProperty "_")) function u receiver values)
      fun _ => Builtin.apply (fun _ _ => throw (.missingProperty "_")) function u receiver values :=
    Eval.Simulation.rel_apply (fun _ _ => Plain.ending.rel_throw _) function u values
  refine happly.trans (congrArg (fun x : ExceptT EvalError Id Data => some x.run) ?_)
  exact (Builtin.apply_of_not_runsBlock (fun h => absurd h hblock) values).symm

theorem passes_nil (hblock : ¬Builtin.RunsBlock t function)
    (hresolve : Builtin.resolve? t name [] = some (function, u)) :
    code.Passes digest scope t name [] function u [] where
  resolves _ _ _ hvalues := by
    rw [← Except.ok.inj hvalues]
    exact hresolve
  value _ _ _ _ _ _ _ _ hreceiver := apply_run_of_not_runsBlock hblock hreceiver hresolve _

/-- An argument that is no block passes the value that it denotes. -/
theorem Denotes.passes {p : Primitive} {e : Expr} {found : Ty}
    (h : code.Denotes digest scope p e found) (hblock : ¬Builtin.RunsBlock t function)
    (hresolve : ∀ types, (found ≠ .any → types.head? = some found) →
      Builtin.resolve? t name types = some (function, u)) :
    code.Passes digest scope t name [⟨none, e⟩] function u [p] := by
  have hargs (item : Option Data) : Expr.evaluateArgs [⟨none, e⟩] item =
      (do return [← e.evaluate item] : Except EvalError (List Data)) := by
    rw [Expr.evaluateArgs, Expr.evaluateArgs]
    rfl
  have hone {item : Option Data} {data : Data} (hitem : ItemFits scope item)
      (hdata : e.evaluate item = .ok data) :
      Builtin.resolve? t name [data.typ] = some (function, u) := by
    refine hresolve _ fun hany => ?_
    rw [List.head?_cons, (h.fits item data hitem hdata).2.resolve_right hany]
  constructor
  · intro item values hitem hvalues
    rw [hargs] at hvalues
    obtain ⟨data, hdata, hvalues⟩ := Except.bind_eq_ok.mp hvalues
    rw [← Except.ok.inj hvalues]
    exact hone hitem hdata
  · intro declares frame item depth receiver hframe hitem hdepth hreceiver
    have hoperand := h.value declares frame item depth hframe hitem hdepth
    rw [hargs, List.mapM_cons, List.mapM_nil]
    cases hdata : e.evaluate item with
    | error error =>
      rw [hdata] at hoperand
      exact Plain.run_bind_of_error (Plain.run_bind_of_error hoperand)
    | ok data =>
      rw [hdata] at hoperand
      rw [bind_assoc, Plain.run_bind_of_ok hoperand, pure_bind, pure_bind]
      exact apply_run_of_not_runsBlock hblock hreceiver (hone hitem hdata) _

/-- Whether the entry points of a block give the row of a body for any item of a type. -/
def Runs (function : Code) (digest : Digest) (bound : Ty) (body : List Expr) : Prop :=
  ∀ declares frame item depth, Frame.Continues frame digest function (some item) →
    item.Fits bound → Expr.bodySize body ≤ depth →
    (function.entrypoints.mapM fun r => do
      return ((function.labels.lookup r).getD "",
        ← Plain.value (.declaring declares) depth frame r) : Plain Row).run =
      some (Expr.evaluateBody body item)

private theorem element_fits (elem : Ty) (item : Value) :
    (Builtin.element (.array elem) item).Fits elem := by
  by_cases hany : elem = .any
  · subst hany
    exact ⟨rfl, .inr rfl⟩
  · have helement : Builtin.element (.array elem) item = .of item elem := by
      cases elem with
      | any => exact absurd rfl hany
      | _ => rfl
    rw [helement]
    exact ⟨rfl, .inl rfl⟩

private theorem Runs.row {block : Code} {elem : Ty} {body : List Expr}
    (h : block.Runs digest elem body)
    {k : Ref} (hk : code.function? k = some block) {declares : (resource field : String) → Bool}
    {frame : Frame} {item : Option Data} (hframe : frame.Continues digest code item) {depth : Nat}
    (hdepth : Expr.bodySize body ≤ depth) {element : Data} (helement : element.Fits elem) :
    ((repliesBelow declares depth frame).block k element).run =
      some (Expr.evaluateBody body element) := by
  have hblock : frame.code.function? k = some (block.stamp digest) := by
    refine nth?_of_leading hframe.functions ?_
    rw [nth?_map]
    exact congrArg _ hk
  obtain ⟨hchunks, hentrypoints, hlabels, hfunctions⟩ := stamp_eq digest block
  have hinner : Frame.Continues (.ofBlock (block.stamp digest) element) digest block
      (some element) := by
    refine ⟨?_, ?_, ?_⟩
    · exact hchunks ▸ List.prefix_rfl
    · exact hfunctions ▸ List.prefix_rfl
    · rw [Frame.ofBlock, Dict.find?_insert]
      rfl
  show (Eval.row (Plain.value (.declaring declares) depth) frame k element).run = _
  rw [Eval.row, hblock]
  simp only
  rw [hentrypoints, hlabels]
  exact h declares _ element depth hinner helement hdepth

/-- A block passes itself to a function that runs it. -/
theorem Runs.passes {block : Code} {elem : Ty} {body : List Expr}
    (h : block.Runs digest elem body) {k : Ref} (hk : code.function? k = some block)
    (hblock : Builtin.RunsBlock (.array elem) function)
    (hresolve : Builtin.resolve? (.array elem) name [.functionLike] = some (function, u)) :
    code.Passes digest scope (.array elem) name [⟨none, .block body⟩] function u
      [.function k] := by
  have hargs (item : Option Data) : Expr.evaluateArgs [⟨none, .block body⟩] item =
      .ok [.of (.function 1) .functionLike] := by
    rw [Expr.evaluateArgs, Expr.evaluateArgs, Expr.evaluate]
    rfl
  constructor
  · intro item values _ hvalues
    rw [hargs] at hvalues
    rw [← Except.ok.inj hvalues]
    exact hresolve
  · intro declares frame item depth receiver hframe _ hdepth hreceiver
    have hbody : Expr.bodySize body ≤ depth := by
      simp only [Expr.argsSize, Expr.size] at hdepth
      omega
    have hoperand : (Eval.operand (repliesBelow declares depth frame) (.function k)).run =
        some (.ok (.of (.function k) .functionLike)) := by
      have htyp : (Primitive.function k).typ ≠ .ref := by
        intro htyp
        cases htyp
      rw [Eval.operand, if_neg htyp, Primitive.toData, Primitive.toValue_function]
      rfl
    rw [hargs, List.mapM_cons, List.mapM_nil, bind_assoc, Plain.run_bind_of_ok hoperand, pure_bind,
      pure_bind]
    have hrow (r : Ref) (item : Value) :
        ((repliesBelow declares depth frame).block k (Builtin.element receiver.typ item)).run =
          some (Expr.evaluateBody body (Builtin.element receiver.typ item)) := by
      rw [hreceiver]
      exact h.row hk hframe hbody (element_fits elem item)
    have happly : Plain.ending.Rel
        (Builtin.apply (fun _ => (repliesBelow declares depth frame).block k) function u receiver
          [.of (.function 1) .functionLike])
        fun _ => Builtin.apply (fun _ item => Expr.evaluateBody body item) function u receiver
          [.of (.function 1) .functionLike] := Eval.Simulation.rel_apply hrow function u _
    rw [← hreceiver] at hblock hresolve
    rw [Builtin.apply_function hblock k 1]
    have hbodies : Expr.evaluateBlock [⟨none, .block body⟩] = Expr.evaluateBody body := by
      funext item
      rw [Expr.evaluateBlock]
    have hdispatch : Builtin.dispatch (Expr.evaluateBlock [⟨none, .block body⟩]) name receiver
        [.of (.function 1) .functionLike] =
        (Builtin.apply (m := Id) (fun _ item => Expr.evaluateBody body item) function u receiver
          [.of (.function 1) .functionLike]).run := by
      rw [hbodies]
      exact Builtin.dispatch_eq hresolve
    exact happly.trans (congrArg some hdispatch).symm

theorem Passes.of_grows {code' : Code} {args : List (Arg Expr)} {ps : List Primitive}
    {most : Nat} (h : code.Passes digest scope t name args function u ps)
    (hgrows : code.Grows most code') : code'.Passes digest scope t name args function u ps :=
  ⟨h.resolves, fun _ _ _ _ _ hframe => h.value _ _ _ _ _ (hframe.of_grows hgrows)⟩

theorem stands_call {receiver : Expr} {args : List (Arg Expr)} {binding r : Ref}
    {ps : List Primitive} (hreceiver : code.Stands digest scope binding receiver t)
    (hany : t ≠ .any) (hpasses : code.Passes digest scope t name args function u ps)
    (hu : u.isLiteral) (hnumber : r ≠ 0)
    (hr : code.chunk? r = some (.call function u binding ps)) :
    code.Stands digest scope r (.call receiver name args) u := by
  have hevaluate (item : Option Data) : (Expr.call receiver name args).evaluate item =
      (do
        let data ← receiver.evaluate item
        let values ← Expr.evaluateArgs args item
        Builtin.dispatch (Expr.evaluateBlock args) name data values) := by
    rw [Expr.evaluate]
  refine ⟨hnumber, hu, fun code' hlead => ?_, fun declares frame item hframe hitem => ?_,
    fun item data hitem hdata => ?_⟩
  · exact chunkType_call (chunk?_of_leading hlead hr)
  · have hchunk : frame.code.chunk? r = some (.call function u binding ps) :=
      chunk?_of_leading hframe.chunks hr
    have hbinding : (Plain.value (.declaring declares)
        (receiver.size + Expr.argsSize args) frame binding).run = some (receiver.evaluate item) :=
      Plain.value_mono (Nat.le_add_right _ _) (hreceiver.value declares frame item hframe hitem)
    have hzero : ¬(Chunk.call function u binding ps).binding = 0 := hreceiver.number
    show (Eval.chunk (repliesBelow declares (receiver.size + Expr.argsSize args) frame) frame
      r).run = _
    rw [Eval.chunk, hchunk]
    show (Eval.call _ (.call function u binding ps)).run = _
    rw [Eval.call, if_neg hzero, hevaluate]
    -- the type of the receiver rules out that the call reads a field of a resource
    cases hdata : receiver.evaluate item with
    | error e =>
      rw [hdata] at hbinding
      exact Plain.run_bind_of_error hbinding
    | ok data =>
      rw [hdata] at hbinding
      obtain ⟨herror, htyp⟩ := hreceiver.fits item data hitem hdata
      have htyp : data.typ = t := htyp.resolve_right hany
      have hfield : Eval.readsField (repliesBelow declares (receiver.size + Expr.argsSize args)
          frame) data.typ (Chunk.call function u binding ps).id = false := by
        rw [Eval.readsField, htyp, Ty.resourceName?_of_isLiteral hreceiver.isLiteral]
        rfl
      refine (Plain.run_bind_of_ok hbinding).trans ?_
      simp only [herror, hfield]
      exact hpasses.value declares frame item _ data hframe hitem (Nat.le_add_left _ _) htyp
  · rw [hevaluate] at hdata
    obtain ⟨found, hfound, hdata⟩ := Except.bind_eq_ok.mp hdata
    obtain ⟨values, hvalues, hdata⟩ := Except.bind_eq_ok.mp hdata
    have htyp : found.typ = t := (hreceiver.fits item found hitem hfound).2.resolve_right hany
    obtain ⟨hgiven, herror⟩ :=
      Builtin.dispatch_gives (htyp ▸ hpasses.resolves item values hitem hvalues) hdata
    exact ⟨herror, .inl hgiven⟩

end Passes

end Code

end AssetQuery
