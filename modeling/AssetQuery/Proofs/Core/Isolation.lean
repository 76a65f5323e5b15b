import AssetQuery.Proofs.Compile.Bare
import AssetQuery.Proofs.Core.Steady
import AssetQuery.Proofs.Eval.Agreement
import AssetQuery.Proofs.Eval.Repeat

/-!
# Queries on one session

What a query about the core resources answers does not depend on which queries were executed before
it, unless one of them made a resource of the same name and id of other arguments.
-/

namespace AssetQuery

namespace Core

open Setting (unameSetting unameQuery)

variable {τ : Type} {s : Setting (Memory τ)} {digest : Digest} {first second : List Expr}
  {code code' : Code}

private theorem repeatable (hregistry : s.registry = registry) :
    s.Repeatable fun session => ∃ slotOf, Steady s slotOf session where
  create _ _ _ h hargs := h.elim fun _ h => create_repeats hregistry h hargs
  read _ _ _ h hkey := h.elim fun _ h => read_repeats hregistry h hkey

/-- Of two queries about the core resources each is answered on a session of its own, and the second
is answered the same where the first was executed before, unless the two made a resource of the same
name and id of different arguments. -/
theorem execute_after (hregistry : s.registry = registry)
    (hsize : 2 * Expr.bodySize first < 2 ^ 31) (hsize' : 2 * Expr.bodySize second < 2 ^ 31)
    (hfirst : Vocabulary.compile ⟨s.registry, .standard⟩ digest first = .ok code)
    (hsecond : Vocabulary.compile ⟨s.registry, .standard⟩ digest second = .ok code') (rest : τ) :
    ∃ answers earlier answers' alone,
      s.execute code .empty (.new ⟨.empty, rest⟩) = some (answers, earlier) ∧
      s.execute code' .empty (.new ⟨.empty, rest⟩) = some (answers', alone) ∧
      (earlier.Agrees alone → ∃ last, s.execute code' .empty earlier = some (answers', last)) := by
  have hbare := Vocabulary.bare_compiled ⟨s.registry, .standard⟩ digest
  have hnew : ∃ slotOf, Steady s slotOf (.new ⟨.empty, rest⟩) := ⟨fun _ => 0, steady_new rest⟩
  obtain ⟨answers, earlier, hrun, hearlier, _⟩ :=
    Setting.execute_repeats (repeatable hregistry) hbare (.query hsize hfirst) hnew
  obtain ⟨answers', alone, hrun', _, _, _, hshared⟩ :=
    Setting.execute_repeats (repeatable hregistry) hbare (.query hsize' hsecond) hnew
  refine ⟨answers, earlier, answers', alone, hrun, hrun', fun hagrees => ?_⟩
  obtain ⟨last, hlast, _⟩ := hshared earlier earlier hearlier (Session.joins_new _) hagrees
  exact ⟨last, hlast⟩

/-- The name of a system, as a command of it prints it. -/
def nameQuery : List Expr :=
  [.call (.root "command" [⟨some "command", .literal (.string "uname")⟩]) "stdout" []]

/-- A command that was run before is not run again. -/
theorem execute_nameQuery :
    2 * Expr.bodySize unameQuery < 2 ^ 31 ∧ 2 * Expr.bodySize nameQuery < 2 ^ 31 ∧
      ∃ code code' answers earlier answers' alone last,
        Vocabulary.compile ⟨unameSetting.registry, .standard⟩ sha256Digest unameQuery = .ok code ∧
        Vocabulary.compile ⟨unameSetting.registry, .standard⟩ sha256Digest nameQuery = .ok code' ∧
        unameSetting.execute code .empty (.new ⟨.empty, ()⟩) = some (answers, earlier) ∧
        unameSetting.execute code' .empty (.new ⟨.empty, ()⟩) = some (answers', alone) ∧
        earlier.Agrees alone ∧ unameSetting.execute code' .empty earlier = some (answers', last) ∧
        last.commands = ["uname"] := by
  have hsize : 2 * Expr.bodySize unameQuery < 2 ^ 31 := by decide
  have hsize' : 2 * Expr.bodySize nameQuery < 2 ^ 31 := by decide
  have hseen : (Vocabulary.compile ⟨unameSetting.registry, .standard⟩ sha256Digest
      unameQuery).toOption.bind (fun code =>
        (Vocabulary.compile ⟨unameSetting.registry, .standard⟩ sha256Digest
          nameQuery).toOption.map fun code' =>
            ((unameSetting.execute code .empty (.new ⟨.empty, ()⟩)).map fun o =>
              (o.2.made, (unameSetting.execute code' .empty o.2).map fun o => o.2.commands),
            (unameSetting.execute code' .empty (.new ⟨.empty, ()⟩)).map fun o => o.2.made)) =
      some (some ([(⟨"command", "uname"⟩, Dict.empty.insert "command" (.string "uname"))],
        some ["uname"]),
        some [(⟨"command", "uname"⟩, Dict.empty.insert "command" (.string "uname"))]) := rfl
  obtain ⟨code, hcode, hseen⟩ := Option.bind_eq_some_iff.mp hseen
  obtain ⟨code', hcode', hseen⟩ := Except.exists_of_toOption_map hseen
  obtain ⟨hfirst, halone⟩ := Prod.mk.inj hseen
  have hcode := Except.eq_ok_of_toOption hcode
  obtain ⟨answers, earlier, answers', alone, hrun, hrun', hsame⟩ :=
    execute_after rfl hsize hsize' hcode hcode' ()
  rw [hrun] at hfirst
  rw [hrun'] at halone
  obtain ⟨hmade, hlast⟩ := Prod.mk.inj (Option.some.inj hfirst)
  have hagrees : earlier.Agrees alone :=
    .of_made_eq (hmade.trans (Option.some.inj halone).symm)
  obtain ⟨last, hlater⟩ := hsame hagrees
  rw [hlater] at hlast
  exact ⟨hsize, hsize', code, code', answers, earlier, answers', alone, last, hcode, hcode', hrun,
    hrun', hagrees, hlater, Option.some.inj hlast⟩

/-- A command that is said to print something of its own. -/
def fakeQuery : List Expr :=
  [.call (.root "command" [⟨some "command", .literal (.string "uname")⟩,
    ⟨some "stdout", .literal (.string "fake")⟩]) "stdout" []]

/-- The id of a command tells only which command it is. One that was said to print something else is
taken for one that is run. -/
theorem execute_fakeQuery :
    ∃ code code' answers earlier answers' alone answers'' last,
      Vocabulary.compile ⟨unameSetting.registry, .standard⟩ sha256Digest fakeQuery = .ok code ∧
      Vocabulary.compile ⟨unameSetting.registry, .standard⟩ sha256Digest nameQuery = .ok code' ∧
      unameSetting.execute code .empty (.new ⟨.empty, ()⟩) = some (answers, earlier) ∧
      unameSetting.execute code' .empty (.new ⟨.empty, ()⟩) = some (answers', alone) ∧
      unameSetting.execute code' .empty earlier = some (answers'', last) ∧
      answers'.map (·.2.data.bytes) = [Utf8.encode "Linux"] ∧
      answers''.map (·.2.data.bytes) = [Utf8.encode "fake"] ∧ answers' ≠ answers'' := by
  have hseen : (Vocabulary.compile ⟨unameSetting.registry, .standard⟩ sha256Digest
      fakeQuery).toOption.bind (fun code =>
        (Vocabulary.compile ⟨unameSetting.registry, .standard⟩ sha256Digest
          nameQuery).toOption.map fun code' =>
            ((unameSetting.execute code .empty (.new ⟨.empty, ()⟩)).bind fun o =>
              (unameSetting.execute code' .empty o.2).map fun o => o.1.map (·.2.data.bytes),
            (unameSetting.execute code' .empty (.new ⟨.empty, ()⟩)).map fun o =>
              o.1.map (·.2.data.bytes))) =
      some (some [Utf8.encode "fake"], some [Utf8.encode "Linux"]) := rfl
  obtain ⟨code, hcode, hseen⟩ := Option.bind_eq_some_iff.mp hseen
  obtain ⟨code', hcode', hseen⟩ := Except.exists_of_toOption_map hseen
  obtain ⟨hafter, halone⟩ := Prod.mk.inj hseen
  obtain ⟨⟨answers, earlier⟩, hrun, hafter⟩ := Option.bind_eq_some_iff.mp hafter
  obtain ⟨⟨answers'', last⟩, hlast, hfake⟩ := Option.map_eq_some_iff.mp hafter
  obtain ⟨⟨answers', alone⟩, hrun', hname⟩ := Option.map_eq_some_iff.mp halone
  refine ⟨code, code', answers, earlier, answers', alone, answers'', last,
    Except.eq_ok_of_toOption hcode, hcode', hrun, hrun', hlast, hname, hfake, ?_⟩
  rintro rfl
  have hsame : [Utf8.encode "fake"] = [Utf8.encode "Linux"] := hfake.symm.trans hname
  revert hsame
  decide

end Core

end AssetQuery
