import AssetQuery.Proofs.Compile.Meaning
import AssetQuery.Proofs.Eval.Steps

/-!
# Queries without resources

A query that creates no resources is executed to the end, and all that it evaluates on the way is of
the type that compilation tells of it.
-/

namespace AssetQuery

variable {F σ : Type} {registry : Registry F} {digest : Digest} {code : Code}

namespace Setting

/-- The execution of a query without calls at the root, compiled with the standard functions, ends
and leaves the session as it was. Every chunk that it evaluates, also in blocks, has a value of the
type of the chunk and no error, or fails at the limit to depth or for an argument that is nil.
Nothing is missing that a chunk refers to. (The chunks of a query of 2 ^ 30 expressions could not
all be numbered.) -/
theorem trace_sound {query : List Expr} (hrootless : ∀ e ∈ query, e.rootless)
    (hsize : 2 * Expr.bodySize query < 2 ^ 31)
    (hcompile : Vocabulary.compile ⟨registry, .standard⟩ digest query = .ok code)
    (s : Setting σ) (session : Session σ) :
    ∃ answers visits, s.execute code .empty session = some (answers, session) ∧
      s.trace code .empty session = some ((answers, session), visits) ∧
      ∀ v ∈ visits,
        (∀ data, v.outcome = .ok data → data.error = none ∧
          data.value.Conforms (v.frame.code.chunkType v.r)) ∧
        ∀ e, v.outcome = .error e →
          (e = .depthExceeded s.config.maxDepth ∨ FailsByNil visits v.frame v.r e) ∧
          e.isDangling = false := by
  obtain ⟨answers, hrun, _⟩ := execute_answers hrootless (by omega) hcompile s session
  have htrace := hrun
  rw [← trace_erased] at htrace
  obtain ⟨⟨_, visits⟩, htrace, rfl⟩ := Option.map_eq_some_iff.mp htrace
  have hquery : ∀ e ∈ query, False ∨ e.rootless := fun e he => .inr (hrootless e he)
  have hserves : False → s.Serves registry fun _ => True := False.elim
  obtain ⟨_, hsound⟩ := visits_sound hquery hsize hcompile False.elim hserves trivial htrace
  refine ⟨answers, visits, hrun, htrace, fun v hv => ⟨fun data hdata => ?_, fun e he => ?_⟩⟩
  · have hv := hsound v hv
    rw [Visit.Sound, hdata] at hv
    exact ⟨hv.error id, hv.within.conforms⟩
  · have hv := hsound v hv
    rw [Visit.Sound, he] at hv
    exact ⟨hv.cause id, hv.present⟩

/-- Whether a text contains the item of a list that has only one, at a greater index. -/
def missingPartQuery : List Expr :=
  [.call (.literal (.string "abc")) "contains"
    [⟨none, .call (.literal (.array [.string "b"])) "[]" [⟨none, .literal (.int 5)⟩]⟩]]

/-- The item is nil, which the text is not asked for. -/
theorem trace_missingPartQuery :
    (∀ e ∈ missingPartQuery, e.rootless) ∧ 2 * Expr.bodySize missingPartQuery < 2 ^ 31 ∧
      ∃ code, bareCode missingPartQuery = .ok code ∧ ∃ answers visits,
        bareSetting.trace code .empty (.new ()) = some ((answers, .new ()), visits) ∧
        (∀ v ∈ visits, (∀ data, v.outcome = .ok data → data.error = none ∧
          data.value.Conforms (v.frame.code.chunkType v.r)) ∧ ∀ e, v.outcome = .error e →
          e = .depthExceeded 1024 ∨ FailsByNil visits v.frame v.r e) ∧
        visits.head?.map (·.outcome) =
          some (.error (.invalidArgument "containsString" .notString)) := by
  have hrootless : ∀ e ∈ missingPartQuery, e.rootless := by decide
  have hsize : Expr.bodySize missingPartQuery = 5 := rfl
  have hlast : (bareCode missingPartQuery).toOption.map (fun code =>
      (bareSetting.trace code .empty (.new ())).bind fun o => o.2.head?.map (·.outcome)) =
        some (some (.error (.invalidArgument "containsString" .notString))) := rfl
  obtain ⟨code, hcode, hlast⟩ := Except.exists_of_toOption_map hlast
  obtain ⟨answers, visits, _, htrace, hsound⟩ :=
    trace_sound hrootless (by omega) hcode bareSetting (.new ())
  rw [htrace] at hlast
  refine ⟨hrootless, by omega, code, hcode, answers, visits, htrace, fun v hv => ?_, hlast⟩
  exact ⟨(hsound v hv).1, fun e he => ((hsound v hv).2 e he).1⟩

end Setting

end AssetQuery
