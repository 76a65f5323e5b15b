import AssetQuery.Expr.Evaluate
import AssetQuery.Proofs.Compile.Standing
import AssetQuery.Proofs.Eval.Depth
import AssetQuery.Proofs.Expr.Depth
import Mathlib.Data.List.Forall2

/-!
# Compilation keeps the meaning of queries

By induction on the size of an expression, the chunk that it compiles to stands for it. So execution
of a query without resources answers each entry point with what its expression evaluates to, or
gives up at the limit to depth, which it does not if the limit is twice the size of the query.
-/

namespace AssetQuery

open Build (yields_bind yields_pure yields_get yields_modify yields_emit yields_ofExcept
  not_yields_throw)

variable {F : Type} {registry : Registry F} {digest : Digest} {scope : Option Ty}
  {code code' : Code} {r : Ref}

/-- What the compilation of an expression has done: the code goes on, and a chunk, either the
element in scope or the last one, stands for the expression. -/
structure Compiled (digest : Digest) (scope : Option Ty) (code : Code) (r : Ref) (e : Expr)
    (code' : Code) : Prop where
  grows : code.Grows e.size code'
  entrypoints : code'.entrypoints = code.entrypoints
  labels : code'.labels = code.labels
  position : scope.isSome ∧ e = .element ∧ r = 1 ∧ code' = code ∨
    r.toInt = code'.chunks.length ∧ code.chunks.length < code'.chunks.length
  stands : ∃ t, code'.Stands digest scope r e t

/-- Whether compilation of an expression, where there is room, comes to a chunk that stands for
it. -/
def Expr.Compiles (registry : Registry F) (digest : Digest) (e : Expr) : Prop :=
  ∀ scope code r code', code.Opens scope → code.Room e.size →
    (Vocabulary.compileExpr ⟨registry, .standard⟩ scope e).Yields code r code' →
    Compiled digest scope code r e code'

theorem ne_zero_of_toInt {r : Ref} {n : Nat} (h : r.toInt = n + 1) : r ≠ 0 := by
  rintro rfl
  have : ((0 : Ref)).toInt = 0 := rfl
  omega

namespace Expr

private theorem compiles_literal (l : Literal) : (literal l).Compiles registry digest := by
  intro scope code r code' hopens hroom h
  rw [Vocabulary.compileExpr_literal] at h
  obtain ⟨p, _, hstep, h⟩ := yields_bind.mp h
  obtain ⟨hp, rfl⟩ := yields_ofExcept.mp hstep
  obtain ⟨rfl, rfl⟩ := yields_emit.mp h
  have hnumber := Code.toInt_lastRef_addChunk hroom (.ofPrimitive p)
  have hchunk := Code.chunk?_addChunk hroom (.ofPrimitive p)
  refine ⟨.addChunk code _, rfl, rfl, .inr ⟨?_, ?_⟩, p.typ,
    Code.stands_literal hp (ne_zero_of_toInt hnumber) hchunk⟩
  · rw [hnumber]
    simp [Code.addChunk]
  · simp [Code.addChunk]

private theorem compiles_element : element.Compiles registry digest := by
  intro scope code r code' hopens hroom h
  rw [Vocabulary.compileExpr_element] at h
  cases scope with
  | none => exact absurd h not_yields_throw
  | some t =>
    obtain ⟨rfl, rfl⟩ := yields_pure.mp h
    exact ⟨.refl code _, rfl, rfl, .inl ⟨rfl, rfl, rfl, rfl⟩, t, Code.stands_element hopens⟩

private theorem compiles_block (body : List Expr) : (block body).Compiles registry digest := by
  intro scope code r code' _ _ h
  rw [Vocabulary.compileExpr_block] at h
  exact absurd h not_yields_throw

structure Labelled (scope : Option Ty) (code : Code) (r : Ref) (label : String) : Prop where
  lookup : code.labels.lookup r = some label
  present : r.toInt ≤ code.chunks.length
  element : scope.isSome → r = 1 → label = "_"

/-- What the compilation of a body has done: the code goes on, and for each expression there is an
entry point more, which stands for it and has its label. -/
structure CompiledBody (digest : Digest) (scope : Option Ty) (code : Code) (body : List Expr)
    (code' : Code) : Prop where
  grows : code.Grows (bodySize body) code'
  labelled : ∀ r label, Labelled scope code r label → Labelled scope code' r label
  entrypoints : ∃ rs, code'.entrypoints = code.entrypoints ++ rs ∧
    List.Forall₂ (fun e r => (∃ t, code'.Stands digest scope r e t) ∧
      Labelled scope code' r e.label) body rs

/-- An entry point for a compiled expression has the label of the expression, and no label that is
there is lost. -/
private theorem Labelled.addEntrypoint {e : Expr} {r : Ref} {mid : Code} (hopens : code.Opens scope)
    (h : Compiled digest scope code r e mid) :
    Labelled scope (mid.addEntrypoint r e.label) r e.label ∧
      ∀ q label, Labelled scope code q label →
        Labelled scope (mid.addEntrypoint r e.label) q label := by
  have hlookup (q : Ref) : (mid.addEntrypoint r e.label).labels.lookup q =
      if q == r then some e.label else code.labels.lookup q := by
    rw [← h.labels]
    exact Table.lookup_put r e.label q mid.labels
  have hlonger : code.chunks.length ≤ mid.chunks.length := h.grows.chunks.length_le
  refine ⟨⟨by rw [hlookup]; simp, ?_, fun hscope hr => ?_⟩, fun q label hq =>
    ⟨?_, ?_, hq.element⟩⟩
  · show r.toInt ≤ mid.chunks.length
    rcases h.position with ⟨hscope, _, rfl, rfl⟩ | ⟨hr, _⟩
    · have := hopens.length_pos hscope
      have hone : (1 : Ref).toInt = 1 := rfl
      omega
    · omega
  · rcases h.position with ⟨_, rfl, _⟩ | ⟨hfresh, hlt⟩
    · rfl
    · subst hr
      have := hopens.length_pos hscope
      have hone : (1 : Ref).toInt = 1 := rfl
      omega
  · rw [hlookup]
    split
    · next hqr =>
      obtain rfl := eq_of_beq hqr
      rcases h.position with ⟨hscope, rfl, hone, _⟩ | ⟨hfresh, hlt⟩
      · rw [hq.element hscope hone]
        rfl
      · have := hq.present
        omega
    · exact hq.lookup
  · show q.toInt ≤ mid.chunks.length
    have := hq.present
    omega

theorem compileBody_compiled {body : List Expr} (h : ∀ e ∈ body, e.Compiles registry digest)
    {code code' : Code} (hopens : code.Opens scope) (hroom : code.Room (bodySize body))
    (hbody : (Vocabulary.compileBody ⟨registry, .standard⟩ scope body).Yields code () code') :
    CompiledBody digest scope code body code' := by
  induction body generalizing code with
  | nil =>
    rw [Vocabulary.compileBody_nil] at hbody
    obtain ⟨_, rfl⟩ := yields_pure.mp hbody
    exact ⟨.refl code _, fun _ _ hlabel => hlabel, [], (List.append_nil _).symm, .nil⟩
  | cons e rest ih =>
    rw [Vocabulary.compileBody_cons] at hbody
    obtain ⟨r, mid, he, hbody⟩ := yields_bind.mp hbody
    obtain ⟨_, _, hentry, hrest⟩ := yields_bind.mp hbody
    obtain rfl := yields_modify.mp hentry
    have hcompiled := h e List.mem_cons_self scope code r mid hopens
      (hroom.mono (Nat.le_add_right _ _)) he
    obtain ⟨hnew, hold⟩ := Labelled.addEntrypoint hopens hcompiled
    have hgrows : code.Grows e.size (mid.addEntrypoint r e.label) :=
      hcompiled.grows.trans (.addEntrypoint mid r e.label)
    have hlater := ih (fun f hf => h f (List.mem_cons_of_mem _ hf)) (hopens.of_grows hgrows)
      (hroom.of_grows hgrows) hrest
    obtain ⟨rs, hrs, hall⟩ := hlater.entrypoints
    refine ⟨hgrows.trans hlater.grows, fun q label hq => hlater.labelled q label (hold q label hq),
      r :: rs, ?_, .cons ⟨?_, hlater.labelled r e.label hnew⟩ hall⟩
    · rw [hrs]
      simp [Code.addEntrypoint, hcompiled.entrypoints]
    · obtain ⟨t, hstands⟩ := hcompiled.stands
      exact ⟨t, (hstands.of_grows (.addEntrypoint mid r e.label)).of_grows hlater.grows⟩

private theorem CompiledBody.runs {bound : Ty} {body : List Expr} {function : Code}
    (h : CompiledBody digest (some bound) (Build.blockStart bound) body function) :
    function.Runs digest bound body := by
  intro declares frame item depth hframe hitem hdepth
  obtain ⟨rs, hrs, hall⟩ := h.entrypoints
  have hnone : (Build.blockStart bound).entrypoints = [] := rfl
  have hfits : ItemFits (some bound) (some item) := by
    rintro t ⟨⟩
    exact ⟨item, rfl, hitem⟩
  rw [hrs, hnone, List.nil_append]
  clear hrs h
  induction hall with
  | nil =>
    rw [evaluateBody]
    rfl
  | @cons e r rest rs hhead _ ih =>
    obtain ⟨⟨t, hstands⟩, hlabel⟩ := hhead
    have hvalue : (Plain.value (.declaring declares) depth frame r).run =
        some (e.evaluate (some item)) := by
      refine Plain.value_mono ?_ (hstands.value declares frame _ hframe hfits)
      rw [bodySize] at hdepth
      omega
    have hrest := ih (by rw [bodySize] at hdepth; omega)
    rw [List.mapM_cons, evaluateBody, hlabel.lookup]
    cases hdata : e.evaluate (some item) with
    | error error =>
      rw [hdata] at hvalue
      exact Plain.run_bind_of_error (Plain.run_bind_of_error hvalue)
    | ok data =>
      rw [hdata] at hvalue
      rw [bind_assoc, Plain.run_bind_of_ok hvalue, pure_bind]
      cases hrow : evaluateBody rest item with
      | error error =>
        rw [hrow] at hrest
        exact Plain.run_bind_of_error hrest
      | ok row =>
        rw [hrow] at hrest
        exact Plain.run_bind_of_ok hrest

structure CompiledArg (code : Code) (value : Expr) (code' : Code) : Prop where
  grows : code.Grows value.size code'
  entrypoints : code'.entrypoints = code.entrypoints
  labels : code'.labels = code.labels

private theorem compileOperand_denotes {value : Expr} (h : value.Compiles registry digest)
    (hopens : code.Opens scope) (hroom : code.Room value.size) {p : Primitive}
    (hp : (Build.operand value
      (Vocabulary.compileExpr ⟨registry, .standard⟩ scope value)).Yields code p code') :
    CompiledArg code value code' ∧ ∃ t, code'.Denotes digest scope p value t := by
  have hreference (hp : (do return .ref (← Vocabulary.compileExpr ⟨registry, .standard⟩ scope
      value) : Build Primitive).Yields code p code') :
      CompiledArg code value code' ∧ ∃ t, code'.Denotes digest scope p value t := by
    obtain ⟨r, _, hr, hp⟩ := yields_bind.mp hp
    obtain ⟨rfl, rfl⟩ := yields_pure.mp hp
    have hcompiled := h scope code r _ hopens hroom hr
    obtain ⟨t, hstands⟩ := hcompiled.stands
    exact ⟨⟨hcompiled.grows, hcompiled.entrypoints, hcompiled.labels⟩, t, hstands.denotes⟩
  cases value with
  | literal l =>
    obtain ⟨hl, rfl⟩ := yields_ofExcept.mp hp
    exact ⟨⟨.refl code _, rfl, rfl⟩, p.typ, Code.denotes_literal hl⟩
  | block body => exact absurd hp not_yields_throw
  | root name args => exact hreference hp
  | call receiver name args => exact hreference hp
  | element => exact hreference hp

private theorem compileBlock_runs {body : List Expr} (h : ∀ e ∈ body, e.Compiles registry digest)
    {bound : Ty} (hbound : bound.isLiteral) (hroom : code.Room (block body).size) {p : Primitive}
    (hp : (Build.block bound
      (Vocabulary.compileBody ⟨registry, .standard⟩ (some bound) body)).Yields code p code') :
    CompiledArg code (block body) code' ∧ ∃ k function, p = .function k ∧
      code'.function? k = some function ∧ function.Runs digest bound body := by
  obtain ⟨function, hbody, rfl, rfl⟩ := Build.yields_block.mp hp
  have hopens : (Build.blockStart bound).Opens (some bound) := by
    rintro t ⟨⟩
    exact ⟨hbound, rfl⟩
  have hinner : (Build.blockStart bound).Room (bodySize body) := by
    have := hroom.1
    rw [size] at this
    have hchunks : (Build.blockStart bound).chunks.length = 1 := rfl
    have hfunctions : (Build.blockStart bound).functions.length = 0 := rfl
    exact ⟨by omega, by omega⟩
  have hone : code.Room 1 := hroom.mono (by rw [size]; omega)
  have hgrows := (Code.Grows.addFunction code function).mono (n := (block body).size)
    (by rw [size]; omega)
  exact ⟨⟨hgrows, rfl, rfl⟩, _, function, rfl, Code.function?_addFunction hone function,
    (compileBody_compiled h hopens hinner hbody).runs⟩

private theorem compileArg_passes {value : Expr} (hvalue : value.Compiles registry digest)
    (hbody : ∀ body, value = .block body → ∀ e ∈ body, e.Compiles registry digest)
    (hopens : code.Opens scope) (hroom : code.Room value.size) {t expected u : Ty}
    (ht : t.isLiteral) {name function : String} {p : Primitive}
    (htakes : .functionLike = expected ↔ Builtin.RunsBlock t function)
    (hp : (Vocabulary.compileArg ⟨registry, .standard⟩ scope t value expected).Yields code p code')
    (hfits : (code'.dereference p).compatible expected = true)
    (hresolve : ∀ types, (code'.dereference p ≠ .any →
      types.head? = some (code'.dereference p)) →
      Builtin.resolve? t name types = some (function, u)) :
    CompiledArg code value code' ∧
      code'.Passes digest scope t name [⟨none, value⟩] function u [p] := by
  by_cases hblock : Builtin.RunsBlock t function
  · obtain rfl := htakes.mpr hblock
    obtain ⟨elem, rfl⟩ := Ty.eq_array_of_isLiteral ht hblock.1
    have hoperand (hp : (Build.operand value
        (Vocabulary.compileExpr ⟨registry, .standard⟩ scope value)).Yields code p code') :
        CompiledArg code value code' ∧
          code'.Passes digest scope (.array elem) name [⟨none, value⟩] function u [p] := by
      obtain ⟨_, found, hdenotes⟩ := compileOperand_denotes hvalue hopens hroom hp
      rw [hdenotes.typ, Ty.not_compatible_of_isLiteral hdenotes.isLiteral] at hfits
      cases hfits
    cases value with
    | block body =>
      obtain ⟨hcompiled, k, block, rfl, hk, hruns⟩ :=
        compileBlock_runs (hbody body rfl) (Ty.isLiteral_array ▸ ht) hroom hp
      refine ⟨hcompiled, hruns.passes hk hblock (hresolve _ fun _ => ?_)⟩
      have hne : (Primitive.function k).typ ≠ .ref := nofun
      rw [Code.dereference_of_ne_ref code' hne]
      rfl
    | literal l => exact hoperand hp
    | root name args => exact hoperand hp
    | call receiver name args => exact hoperand hp
    | element => exact hoperand hp
  · have hoperand : Vocabulary.compileArg ⟨registry, .standard⟩ scope t value expected =
        Build.operand value (Vocabulary.compileExpr ⟨registry, .standard⟩ scope value) := by
      have hne : expected ≠ .functionLike := fun h => hblock (htakes.mp h.symm)
      rw [Vocabulary.compileArg]
      exact fun _ _ h => hne h
    rw [hoperand] at hp
    obtain ⟨hcompiled, found, hdenotes⟩ := compileOperand_denotes hvalue hopens hroom hp
    refine ⟨hcompiled, hdenotes.passes hblock ?_⟩
    rw [← hdenotes.typ]
    exact hresolve

private theorem compiles_call {receiver : Expr} {name : String} {args : List (Arg Expr)}
    (hreceiver : receiver.Compiles registry digest)
    (hargs : ∀ arg ∈ args, arg.value.Compiles registry digest)
    (hbodies : ∀ arg ∈ args, ∀ body, arg.value = .block body →
      ∀ e ∈ body, e.Compiles registry digest) :
    (call receiver name args).Compiles registry digest := by
  intro scope code r code' hopens hroom h
  have hroom : code.Room (receiver.size + (argsSize args + 1)) := by
    rw [size, Nat.add_assoc] at hroom
    exact hroom
  rw [Vocabulary.compileExpr_call] at h
  obtain ⟨binding, mid, hbinding, h⟩ := yields_bind.mp h
  obtain ⟨_, _, hget, h⟩ := yields_bind.mp h
  obtain ⟨rfl, rfl⟩ := Build.yields_get.mp hget
  have hfirst := hreceiver scope code binding mid hopens (hroom.mono (by omega)) hbinding
  obtain ⟨t, hstands⟩ := hfirst.stands
  have ht : mid.chunkType binding = t := hstands.typ mid List.prefix_rfl
  rw [ht] at h
  obtain ⟨signature, ps, built, function, u, hps, rfl, rfl, hany, htakes, hu, hresolve⟩ :=
    Vocabulary.yields_method hstands.isLiteral h
  obtain ⟨_, _, hcheck, hps⟩ := yields_bind.mp hps
  obtain ⟨hcount, rfl⟩ := Vocabulary.yields_checkCount.mp hcheck
  have hmid : mid.Room (argsSize args + 1) := hroom.of_grows hfirst.grows
  have hpassed : mid.Grows (argsSize args) built ∧ built.entrypoints = mid.entrypoints ∧
      built.labels = mid.labels ∧
      built.Passes digest scope t name args function u ps := by
    obtain ⟨hrequired, hone, hblock⟩ := htakes
    rcases Vocabulary.yields_compileArgs hrequired hone hcount hps with
      ⟨rfl, rfl, hnone, rfl⟩ | ⟨value, expected, p, rfl, hsome, rfl, hp, hfits⟩
    · rw [hnone] at hblock
      have hplain : ¬Builtin.RunsBlock t function := fun h => List.not_mem_nil (hblock.mpr h)
      refine ⟨.refl mid _, rfl, rfl, Code.passes_nil hplain (hresolve [] ?_)⟩
      intro found hfound
      cases hfound
    · rw [hsome, List.mem_singleton] at hblock
      have hsize : argsSize [⟨none, value⟩] = value.size := by
        rw [argsSize, argsSize]
        rfl
      have hvalue : value.Compiles registry digest := hargs ⟨none, value⟩ List.mem_cons_self
      obtain ⟨hcompiled, hpasses⟩ := compileArg_passes hvalue
        (hbodies ⟨none, value⟩ List.mem_cons_self) (hopens.of_grows hfirst.grows)
        (hmid.mono (by omega)) hstands.isLiteral hblock hp hfits fun types htypes =>
          hresolve types fun found hfound => Option.some.inj hfound ▸ htypes
      exact ⟨hsize ▸ hcompiled.grows, hcompiled.entrypoints, hcompiled.labels, hpasses⟩
  obtain ⟨hgrows, hentrypoints, hlabels, hpasses⟩ := hpassed
  have hlast : built.Room 1 := hmid.of_grows hgrows
  have hchunk := Code.Grows.addChunk built (.call function u binding ps)
  have hnumber := Code.toInt_lastRef_addChunk hlast (.call function u binding ps)
  have hbefore : code.chunks.length ≤ built.chunks.length :=
    Nat.le_trans hfirst.grows.chunks.length_le hgrows.chunks.length_le
  refine ⟨?_, ?_, ?_, .inr ⟨?_, ?_⟩, u, ?_⟩
  · exact (hfirst.grows.trans (hgrows.trans hchunk)).mono (by rw [size]; omega)
  · exact hentrypoints.trans hfirst.entrypoints
  · exact hlabels.trans hfirst.labels
  · rw [hnumber]
    simp [Code.addChunk]
  · simp only [Code.addChunk, List.length_append, List.length_singleton]
    omega
  · exact Code.stands_call ((hstands.of_grows hgrows).of_grows hchunk) hany
      (hpasses.of_grows hchunk) hu (ne_zero_of_toInt hnumber) (Code.chunk?_addChunk hlast _)

private theorem compiles_of_rootless (registry : Registry F) (digest : Digest) {e : Expr}
    (h : e.rootless) : e.Compiles registry digest := by
  -- by size, since the expressions in the blocks of a call are two levels below it
  induction hsize : e.size using Nat.strongRecOn generalizing e with
  | _ n ih =>
    subst hsize
    cases e with
    | literal l => exact compiles_literal l
    | element => exact compiles_element
    | block body => exact compiles_block body
    | root name args =>
      rw [rootless] at h
      cases h
    | call receiver name args =>
      rw [rootless, Bool.and_eq_true_iff] at h
      have hargs := rootlessArgs_iff.mp h.2
      refine compiles_call (ih _ ?_ h.1 rfl) (fun arg harg => ih _ ?_ (hargs arg harg) rfl)
        fun arg harg body hbody e he => ih _ ?_ ?_ rfl
      · rw [size]
        omega
      · have := size_le_argsSize harg
        rw [size]
        omega
      · have harg := size_le_argsSize harg
        have he := size_le_bodySize he
        rw [hbody, size] at harg
        rw [size]
        omega
      · have harg := hargs arg harg
        rw [hbody, rootless] at harg
        exact rootlessBody_iff.mp harg e he

end Expr

/-- The entry points of a compiled query evaluate to what its expressions evaluate to. -/
theorem compile_evaluates {query : List Expr} (hrootless : ∀ e ∈ query, e.rootless)
    (hsize : Expr.bodySize query < 2 ^ 31)
    (hcompile : Vocabulary.compile ⟨registry, .standard⟩ digest query = .ok code)
    (declares : (resource field : String) → Bool) :
    List.Forall₂ (fun e r => (Plain.value (.declaring declares) (Expr.bodySize query)
      ⟨code, .empty⟩ r).run = some (e.evaluate none)) query code.entrypoints := by
  rw [Vocabulary.compile] at hcompile
  split at hcompile
  · next built hbuilt =>
    obtain rfl := Except.ok.inj hcompile
    have hopens : Code.empty.Opens none := nofun
    have hroom : Code.empty.Room (Expr.bodySize query) :=
      ⟨by simpa [Code.empty] using hsize, by simpa [Code.empty] using hsize⟩
    have hcompiled := Expr.compileBody_compiled
      (fun e he => Expr.compiles_of_rootless registry digest (hrootless e he)) hopens hroom hbuilt
    obtain ⟨rs, hrs, hall⟩ := hcompiled.entrypoints
    obtain ⟨hchunks, hentrypoints, _, hfunctions⟩ := Code.stamp_eq digest built
    have hframe : Frame.Continues ⟨built.stamp digest, .empty⟩ digest built none :=
      ⟨hchunks ▸ List.prefix_rfl, hfunctions ▸ List.prefix_rfl, rfl⟩
    rw [hentrypoints, hrs]
    refine (List.forall₂_iff_zip.mpr ⟨hall.length_eq, fun {e r} hmem => ?_⟩)
    obtain ⟨⟨t, hstands⟩, _⟩ := List.forall₂_zip hall hmem
    have he := Expr.size_le_bodySize (List.of_mem_zip hmem).1
    exact Plain.value_mono he (hstands.value declares _ none hframe nofun)
  · cases hcompile

namespace Setting

variable {σ : Type}

/-- The entry points of a compiled query are answered by what its expressions evaluate to, or given
up at the limit to depth. -/
theorem execute_answers {query : List Expr} (hrootless : ∀ e ∈ query, e.rootless)
    (hsize : Expr.bodySize query < 2 ^ 31)
    (hcompile : Vocabulary.compile ⟨registry, .standard⟩ digest query = .ok code)
    (s : Setting σ) (session : Session σ) :
    ∃ answers, s.execute code .empty session = some (answers, session) ∧
      List.Forall₂ (fun e r =>
        answers.lookup r = some (answerOf code r (e.evaluate none)) ∨
          s.config.maxDepth < 2 * Expr.bodySize query ∧ answers.lookup r =
            some (answerOf code r (.error (.depthExceeded s.config.maxDepth))))
        query code.entrypoints := by
  have hvalues := compile_evaluates hrootless hsize hcompile fun resource field =>
    (s.registry.field? resource field).isSome
  have hall : ∀ r ∈ code.entrypoints, ∃ o,
      (Plain.value s.outside (Expr.bodySize query) ⟨code, .empty⟩ r).run = some o := by
    intro r hr
    obtain ⟨i, hi, rfl⟩ := List.mem_iff_getElem.mp hr
    exact ⟨_, hvalues.get (hvalues.length_eq ▸ hi) hi⟩
  obtain ⟨answers, hrun, hanswers⟩ := s.execute_follows hall session
  refine ⟨answers, hrun, List.forall₂_iff_zip.mpr ⟨hvalues.length_eq, fun {e r} hmem => ?_⟩⟩
  have hvalue := List.forall₂_zip hvalues hmem
  rcases hanswers r (List.of_mem_zip hmem).2 _ hvalue with h | ⟨hshort, h⟩
  · exact .inl h
  · exact .inr ⟨by omega, h⟩

/-- The code of a query against no resources, without checksums. -/
def bareCode (query : List Expr) : Except CompileError Code :=
  Vocabulary.compile ⟨(.empty : Registry Unit), .standard⟩ (fun _ => "") query

end Setting

end AssetQuery
