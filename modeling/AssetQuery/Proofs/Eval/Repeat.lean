import AssetQuery.Proofs.Eval.Accord

/-!
# Executions that repeat

Where requests are answered alike on a session to which an earlier one contributed, as long as both
made the resources that they share of the same, evaluation comes to the same there.
-/

namespace AssetQuery

variable {σ : Type}

structure Setting.Repeatable (s : Setting σ) (steady : Session σ → Prop) : Prop where
  create : ∀ name args session, steady session → args.Refers session.Has →
    Work.Repeats steady (s.create name args) session fun after reply =>
      ∀ key, reply = .ok key → after.Has key
  read : ∀ key field session, steady session → session.Has key →
    Work.Repeats steady (s.read key field) session fun after reply =>
      ∀ data, reply = .ok data → after.Knows data

/-- All work has an outcome, and may be done on steady sessions to which an earlier one contributed
that agrees with where it ends. -/
def sharing (steady : Session σ → Prop) (earlier : Session σ) : Accord σ where
  Kept := steady
  Leads := Session.Extends
  Total := True
  May before after shared := steady shared ∧ shared.Joins earlier before ∧ earlier.Agrees after
  Ends _ after _ last := steady last ∧ last.Joins earlier after
  refl := .refl
  trans := .trans
  has h hkey := h.has hkey
  there _ hmay hkey := hmay.2.1.has hkey
  stay hmay := ⟨hmay.1, hmay.2.1⟩
  first _ hlead hmay := ⟨hmay.1, hmay.2.1, hmay.2.2.of_extends hlead⟩
  rest _ _ hmay hends := ⟨hends.1, hends.2, hmay.2.2⟩
  both _ hends := hends

section Repeats

variable {α : Type} {steady : Session σ → Prop} {w : Work σ α} {session : Session σ}
  {post : Session σ → α → Prop}

private theorem Work.Repeats.works (h : Work.Repeats steady w session post) (earlier : Session σ) :
    (sharing steady earlier).Works w session post := by
  obtain ⟨reply, after, hrun, hsteady, hextends, hpost, hshared⟩ := h
  refine ⟨fun _ => ⟨_, hrun⟩, fun reply' after' hrun' => ?_⟩
  cases hrun.symm.trans hrun'
  exact ⟨hsteady, hextends, hpost, fun shared hmay =>
    hshared earlier shared hmay.1 hmay.2.1 hmay.2.2⟩

private theorem Work.repeats_of_works
    (h : ∀ earlier, (sharing steady earlier).Works w session post) :
    Work.Repeats steady w session post := by
  obtain ⟨⟨reply, after⟩, hrun⟩ := (h session).1 trivial
  obtain ⟨hsteady, hextends, hpost, _⟩ := (h session).2 reply after hrun
  refine ⟨reply, after, hrun, hsteady, hextends, hpost, fun earlier shared hshared hjoins hagrees =>
    ?_⟩
  obtain ⟨_, _, _, hothers⟩ := (h earlier).2 reply after hrun
  exact hothers shared ⟨hshared, hjoins, hagrees⟩

end Repeats

namespace Setting

variable {s : Setting σ} {steady : Session σ → Prop} {may : Code → Prop} {code : Code}

private theorem Repeatable.serves (hs : s.Repeatable steady) (earlier : Session σ) :
    (sharing steady earlier).Serves s where
  create name args session hsession hargs := (hs.create name args session hsession hargs).works _
  read key field session hsession hkey := (hs.read key field session hsession hkey).works _

/-- The execution of a code that holds no resources repeats. -/
theorem execute_repeats (hs : s.Repeatable steady) (hbare : Code.Bare may) (hcode : may code)
    {session : Session σ} (hsession : steady session) :
    Work.Repeats steady (s.execute code .empty) session fun _ _ => True :=
  Work.repeats_of_works fun earlier =>
    (hs.serves earlier).execute hbare hcode hsession Dict.refers_empty

end Setting

end AssetQuery
