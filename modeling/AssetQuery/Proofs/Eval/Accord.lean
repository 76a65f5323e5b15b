import AssetQuery.Proofs.Eval.Contract
import AssetQuery.Proofs.Session.Sharing

/-!
# Executions in accord

Evaluation asks only for resources that it was given. So where requests about resources that are
there come to the same on another session, evaluation comes to the same there, with the same values
remembered. Which sessions these are, and how such a session changes, is left open: it may be one to
which others contributed, or the one in which the evaluation ended.
-/

namespace AssetQuery

variable {σ α β : Type}

/-- Whether all resources in some data are there. -/
def Session.Knows (session : Session σ) (data : Data) : Prop := data.value.Refers session.Has

private theorem Execution.read_of_has {s : Setting σ} {name id field : String}
    {progress : Progress σ} (h : progress.session.Has ⟨name, id⟩) :
    read s name id field progress = work (s.read ⟨name, id⟩ field) progress := by
  rw [read, run_get_bind, if_pos (Session.has_iff_instance?.mp h)]

/-- How work on one session goes with the same work on another. -/
structure Accord (σ : Type) where
  /-- Whether a session is one that is worked on. -/
  Kept : Session σ → Prop
  /-- Whether work may lead from one session to another. -/
  Leads : Session σ → Session σ → Prop
  /-- Whether all work is to have an outcome. -/
  Total : Prop
  /-- Whether what led from one session to another may be done on a third. -/
  May : Session σ → Session σ → Session σ → Prop
  /-- What becomes of the third. -/
  Ends : Session σ → Session σ → Session σ → Session σ → Prop
  refl : ∀ session, Leads session session
  trans : ∀ {before mid after}, Leads before mid → Leads mid after → Leads before after
  has : ∀ {before after key}, Leads before after → before.Has key → after.Has key
  there : ∀ {before after other key}, Leads before after → May before after other →
    before.Has key → other.Has key
  -- Where two steps may be done on a third session, the first may, and then the second on what the
  -- first left there.
  stay : ∀ {session other}, May session session other → Ends session session other other
  first : ∀ {before mid after other}, Leads before mid → Leads mid after →
    May before after other → May before mid other
  rest : ∀ {before mid after other more}, Leads before mid → Leads mid after →
    May before after other → Ends before mid other more → May mid after more
  both : ∀ {before mid after other more last}, Ends before mid other more →
    Ends mid after more last → Ends before after other last

namespace Accord

variable {A : Accord σ} {low : Session σ} {s : Setting σ}

theorem knows {before after : Session σ} (h : A.Leads before after) {data : Data}
    (hdata : before.Knows data) : after.Knows data := Value.Refers.imp hdata fun _ => A.has h

/-- Whether work comes to the same on other sessions as on the one that is worked on. -/
def Works (A : Accord σ) (w : Work σ α) (session : Session σ) (post : Session σ → α → Prop) :
    Prop :=
  (A.Total → ∃ outcome, w session = some outcome) ∧
    ∀ reply after, w session = some (reply, after) →
      A.Kept after ∧ A.Leads session after ∧ post after reply ∧
        ∀ other, A.May session after other →
          ∃ last, w other = some (reply, last) ∧ A.Ends session after other last

structure Serves (A : Accord σ) (s : Setting σ) : Prop where
  create : ∀ name args session, A.Kept session → args.Refers session.Has →
    A.Works (s.create name args) session fun after reply => ∀ key, reply = .ok key → after.Has key
  read : ∀ key field session, A.Kept session → session.Has key →
    A.Works (s.read key field) session fun after reply => ∀ data, reply = .ok data →
      after.Knows data

/-- Whether the session of an execution is one that is worked on, and the resources in what is
remembered are there. -/
structure Fit (A : Accord σ) (progress : Progress σ) : Prop where
  session : A.Kept progress.session
  values : ∀ e ∈ progress.values, progress.session.Knows e.2

/-- What it is that a run of an execution comes to the same on other sessions. -/
structure Followed (A : Accord σ) (x : Execution σ α) (before : Progress σ)
    (reply : Except EvalError α) (after : Progress σ) : Prop where
  fit : A.Fit after
  lead : A.Leads before.session after.session
  others : ∀ other, A.May before.session after.session other →
    ∃ last, x ⟨before.values, other⟩ = some (reply, ⟨after.values, last⟩) ∧
      A.Ends before.session after.session other last

/-- Whether an execution comes to the same on other sessions wherever the resources of a session are
there, and what it gives is as stated. -/
def Follows (A : Accord σ) (low : Session σ) (x : Execution σ α) (post : Session σ → α → Prop) :
    Prop :=
  ∀ before, A.Fit before → A.Leads low before.session →
    (A.Total → ∃ outcome, x before = some outcome) ∧
      ∀ reply after, x before = some (reply, after) →
        A.Followed x before reply after ∧ ∀ a, reply = .ok a → post after.session a

open Execution (work isolated remember remember_of_some remember_of_none bind_ok bind_error
  eq_some_of_bind read_of_has)

section Steps

variable {x : Execution σ α} {post : Session σ → α → Prop} {post' : Session σ → β → Prop}

theorem Followed.of_still {before after : Progress σ} {reply : Except EvalError α}
    (hfit : A.Fit after) (hsession : after.session = before.session)
    (hrun : ∀ session, x ⟨before.values, session⟩ = some (reply, ⟨after.values, session⟩)) :
    A.Followed x before reply after := by
  refine ⟨hfit, hsession ▸ A.refl _, fun other hmay => ⟨other, hrun other, ?_⟩⟩
  rw [hsession] at hmay ⊢
  exact A.stay hmay

theorem follows_pure {a : α} (h : ∀ session, A.Leads low session → post session a) :
    A.Follows low (pure a) post := by
  intro before hfit hlow
  refine ⟨fun _ => ⟨_, rfl⟩, ?_⟩
  rintro _ _ ⟨⟩
  refine ⟨.of_still hfit rfl fun _ => rfl, ?_⟩
  rintro _ ⟨⟩
  exact h _ hlow

private theorem follows_throw {e : EvalError} : A.Follows low (throw e) post := by
  intro before hfit _
  refine ⟨fun _ => ⟨_, rfl⟩, ?_⟩
  rintro _ _ ⟨⟩
  exact ⟨.of_still hfit rfl fun _ => rfl, Except.of_error_eq_ok⟩

theorem Follows.bind {f : α → Execution σ β} (hx : A.Follows low x post)
    (hf : ∀ a mid, A.Leads low mid → post mid a → A.Follows mid (f a) post') :
    A.Follows low (x >>= f) post' := by
  intro before hfit hlow
  obtain ⟨htotal, hruns⟩ := hx before hfit hlow
  -- What is asked for from here on is there in the session that the first step left.
  have hrest {a : α} {mid : Progress σ} (hfirst : x before = some (.ok a, mid)) := by
    obtain ⟨hmid, ha⟩ := hruns _ _ hfirst
    exact hf a mid.session (A.trans hlow hmid.lead) (ha a rfl) mid hmid.fit (A.refl _)
  constructor
  · intro h
    obtain ⟨⟨reply, mid⟩, hfirst⟩ := htotal h
    cases reply with
    | error e => exact ⟨_, bind_error hfirst⟩
    | ok a =>
      obtain ⟨outcome, hlast⟩ := (hrest hfirst).1 h
      exact ⟨outcome, (bind_ok hfirst).trans hlast⟩
  · intro reply after hrun
    rcases eq_some_of_bind hrun with ⟨e, rfl, hfirst⟩ | ⟨a, mid, hfirst, hrun⟩
    · obtain ⟨hfollowed, _⟩ := hruns _ _ hfirst
      refine ⟨⟨hfollowed.fit, hfollowed.lead, fun other hmay => ?_⟩, Except.of_error_eq_ok⟩
      obtain ⟨last, hlast, hends⟩ := hfollowed.others other hmay
      exact ⟨last, bind_error hlast, hends⟩
    · obtain ⟨hmid, _⟩ := hruns _ _ hfirst
      obtain ⟨hafter, hb⟩ := (hrest hfirst).2 _ _ hrun
      refine ⟨⟨hafter.fit, A.trans hmid.lead hafter.lead, fun other hmay => ?_⟩, hb⟩
      obtain ⟨more, hmore, hends⟩ := hmid.others other (A.first hmid.lead hafter.lead hmay)
      obtain ⟨last, hlast, hends'⟩ :=
        hafter.others more (A.rest hmid.lead hafter.lead hmay hends)
      exact ⟨last, (bind_ok hmore).trans hlast, A.both hends hends'⟩

theorem follows_work {w : Work σ (Except ResourceError α)}
    (h : ∀ session, A.Kept session → A.Leads low session →
      A.Works w session fun after reply => ∀ a, reply = .ok a → post after a) :
    A.Follows low (work w) post := by
  intro before hfit hlow
  obtain ⟨htotal, hruns⟩ := h _ hfit.session hlow
  constructor
  · intro h
    obtain ⟨outcome, hw⟩ := htotal h
    exact ⟨_, Option.bind_eq_some_iff.mpr ⟨outcome, hw, rfl⟩⟩
  · intro reply after hrun
    obtain ⟨⟨outcome, session⟩, hw, hrun⟩ := Option.bind_eq_some_iff.mp hrun
    cases hrun
    obtain ⟨hkept, hlead, hpost, hothers⟩ := hruns _ _ hw
    refine ⟨⟨⟨hkept, fun e he => A.knows hlead (hfit.values e he)⟩, hlead, fun other hmay => ?_⟩,
      fun a ha => hpost a ?_⟩
    · obtain ⟨last, hlast, hends⟩ := hothers other hmay
      exact ⟨last, Option.bind_eq_some_iff.mpr ⟨(outcome, last), hlast, rfl⟩, hends⟩
    · cases outcome with
      | ok b => exact congrArg Except.ok (Except.ok.inj ha)
      | error e => cases ha

private theorem Follows.isolated (hx : A.Follows low x post) : A.Follows low (isolated x) post := by
  intro before hfit hlow
  obtain ⟨htotal, hruns⟩ := hx { before with values := [] }
    ⟨hfit.session, List.forall_mem_nil _⟩ hlow
  constructor
  · intro h
    obtain ⟨outcome, hinner⟩ := htotal h
    exact ⟨_, Option.bind_eq_some_iff.mpr ⟨outcome, hinner, rfl⟩⟩
  · intro reply after hrun
    obtain ⟨⟨outcome, last⟩, hinner, hrun⟩ := Option.bind_eq_some_iff.mp hrun
    cases hrun
    obtain ⟨hfollowed, hpost⟩ := hruns _ _ hinner
    refine ⟨⟨⟨hfollowed.fit.session, fun e he => A.knows hfollowed.lead (hfit.values e he)⟩,
      hfollowed.lead, fun other hmay => ?_⟩, hpost⟩
    obtain ⟨more, hmore, hends⟩ := hfollowed.others other hmay
    exact ⟨more, Option.bind_eq_some_iff.mpr ⟨_, hmore, rfl⟩, hends⟩

private theorem follows_put {r : Ref} {data : Data} (h : low.Knows data) :
    A.Follows low (do
      modify fun progress => { progress with values := (r, data) :: progress.values }
      return data) Session.Knows := by
  intro before hfit hlow
  have hdata := A.knows hlow h
  refine ⟨fun _ => ⟨_, rfl⟩, ?_⟩
  rintro _ _ ⟨⟩
  refine ⟨.of_still ⟨hfit.session, List.forall_mem_cons.mpr ⟨hdata, hfit.values⟩⟩ rfl
    fun _ => rfl, ?_⟩
  rintro _ ⟨⟩
  exact hdata

private theorem Follows.remember {r : Ref} {x : Execution σ Data}
    (hx : A.Follows low x Session.Knows) : A.Follows low (remember r x) Session.Knows := by
  intro before hfit hlow
  cases hlookup : before.values.lookup r with
  | some data =>
    refine ⟨fun _ => ⟨_, remember_of_some hlookup⟩, fun reply after hrun => ?_⟩
    cases (remember_of_some hlookup).symm.trans hrun
    refine ⟨.of_still hfit rfl fun _ => remember_of_some hlookup, ?_⟩
    rintro _ ⟨⟩
    exact hfit.values _ (Table.mem_of_lookup hlookup)
  | none =>
    have hsame (other : Session σ) := remember_of_none (x := x)
      (show (⟨before.values, other⟩ : Progress σ).values.lookup r = none from hlookup)
    obtain ⟨htotal, hruns⟩ :=
      (hx.bind fun data mid _ hdata => follows_put (r := r) hdata) before hfit hlow
    refine ⟨fun h => ?_, fun reply after hrun => ?_⟩
    · obtain ⟨outcome, hput⟩ := htotal h
      exact ⟨outcome, (hsame before.session).trans hput⟩
    · obtain ⟨hfollowed, hpost⟩ := hruns reply after ((hsame before.session).symm.trans hrun)
      refine ⟨⟨hfollowed.fit, hfollowed.lead, fun other hmay => ?_⟩, hpost⟩
      obtain ⟨last, hlast, hends⟩ := hfollowed.others other hmay
      exact ⟨last, (hsame other).trans hlast, hends⟩

end Steps

/-- That an execution comes to the same on other sessions is a contract. -/
def contract (A : Accord σ) : Eval.Contract (StateT (Progress σ) Option) (Session σ) where
  Leads := A.Leads
  refl := A.refl
  trans := A.trans
  Has := Session.Has
  has h hkey := A.has h hkey
  Ensures low x post := A.Follows low x post
  pure h := follows_pure h
  throw := follows_throw
  bind hx hf := hx.bind hf

namespace Serves

variable (hs : A.Serves s)

include hs

private theorem create_follows (name : String) {args : Dict Data} (hargs : args.Refers low.Has) :
    A.Follows low (Execution.create s name args) Session.Knows := by
  have hwork : A.Follows low (work (s.create name args)) Session.Has :=
    follows_work fun session hsession hlow =>
      hs.create name args session hsession (hargs.imp fun _ => A.has hlow)
  exact hwork.bind fun key mid _ hkey => follows_pure fun _ hsession =>
    Value.refers_resource_iff.mpr (A.has hsession hkey)

private theorem read_follows {name id : String} (field : String) (hkey : low.Has ⟨name, id⟩) :
    A.Follows low (Execution.read s name id field) Session.Knows := by
  have hwork : A.Follows low (work (s.read ⟨name, id⟩ field)) Session.Knows :=
    follows_work fun session hsession hlow => hs.read _ field session hsession (A.has hlow hkey)
  intro before hfit hlow
  have hthere := A.has hlow hkey
  obtain ⟨htotal, hruns⟩ := hwork before hfit hlow
  refine ⟨fun h => ?_, fun reply after hrun => ?_⟩
  · obtain ⟨outcome, hw⟩ := htotal h
    exact ⟨outcome, (read_of_has hthere).trans hw⟩
  · obtain ⟨hfollowed, hpost⟩ := hruns reply after ((read_of_has hthere).symm.trans hrun)
    refine ⟨⟨hfollowed.fit, hfollowed.lead, fun other hmay => ?_⟩, hpost⟩
    obtain ⟨last, hlast, hends⟩ := hfollowed.others other hmay
    have hother : (⟨before.values, other⟩ : Progress σ).session.Has ⟨name, id⟩ :=
      A.there hfollowed.lead hmay hthere
    exact ⟨last, (read_of_has hother).trans hlast, hends⟩

private theorem upholds : Execution.Upholds s A.contract where
  isolated hx := Follows.isolated hx
  remember hx := Follows.remember hx
  create name _ hargs := hs.create_follows name hargs
  read field hkey := hs.read_follows field hkey

variable {may : Code → Prop} {code : Code} {props : Dict Data} (hbare : Code.Bare may)
  (hcode : may code)

include hbare hcode

private theorem answers (rs : List Ref) {before : Progress σ} (hfit : A.Fit before)
    (hprops : props.Refers before.session.Has) :
    (A.Total → ∃ outcome, s.answers ⟨code, props⟩ rs before = some outcome) ∧
      ∀ given after, s.answers ⟨code, props⟩ rs before = some (given, after) →
        A.Fit after ∧ A.Leads before.session after.session ∧
          ∀ other, A.May before.session after.session other →
            ∃ last, s.answers ⟨code, props⟩ rs ⟨before.values, other⟩ =
                some (given, ⟨after.values, last⟩) ∧
              A.Ends before.session after.session other last := by
  induction rs generalizing before with
  | nil =>
    refine ⟨fun _ => ⟨_, rfl⟩, ?_⟩
    rintro _ _ ⟨⟩
    exact ⟨hfit, A.refl _, fun other hmay => ⟨other, rfl, A.stay hmay⟩⟩
  | cons r rest ih =>
    obtain ⟨htotal, hruns⟩ := hs.upholds.value hbare (s.config.maxDepth + 1) ⟨code, props⟩ r
      before.session hcode hprops before hfit (A.refl _)
    have hrest {mid : Progress σ} {reply : Except EvalError Data}
        (hfirst : Execution.value s (s.config.maxDepth + 1) ⟨code, props⟩ r before =
          some (reply, mid)) := by
      obtain ⟨hmid, _⟩ := hruns _ _ hfirst
      exact ih hmid.fit (hprops.imp fun _ => A.has hmid.lead)
    constructor
    · intro h
      obtain ⟨⟨reply, mid⟩, hfirst⟩ := htotal h
      obtain ⟨⟨others, after⟩, hlast⟩ := (hrest hfirst).1 h
      exact ⟨_, Setting.answers_cons_eq_some.mpr ⟨reply, mid, others, hfirst, hlast, rfl⟩⟩
    · intro given after hrun
      obtain ⟨reply, mid, others, hfirst, hlater, rfl⟩ := Setting.answers_cons_eq_some.mp hrun
      obtain ⟨hmid, _⟩ := hruns _ _ hfirst
      obtain ⟨hafter, hlead, hothers⟩ := (hrest hfirst).2 _ _ hlater
      refine ⟨hafter, A.trans hmid.lead hlead, fun other hmay => ?_⟩
      obtain ⟨more, hmore, hends⟩ := hmid.others other (A.first hmid.lead hlead hmay)
      obtain ⟨last, hlast, hends'⟩ := hothers more (A.rest hmid.lead hlead hmay hends)
      exact ⟨last, Setting.answers_cons_eq_some.mpr ⟨reply, _, others, hmore, hlast, rfl⟩,
        A.both hends hends'⟩

/-- The execution of a code that holds no resources comes to the same on other sessions. -/
theorem execute {session : Session σ} (hsession : A.Kept session)
    (hprops : props.Refers session.Has) :
    A.Works (s.execute code props) session fun _ _ => True := by
  have hfit : A.Fit (⟨[], session⟩ : Progress σ) := ⟨hsession, List.forall_mem_nil _⟩
  obtain ⟨htotal, hruns⟩ := hs.answers hbare hcode code.entrypoints hfit hprops
  constructor
  · intro h
    obtain ⟨⟨given, after⟩, hgiven⟩ := htotal h
    exact ⟨_, Setting.execute_eq_some.mpr ⟨given, after, hgiven, rfl, rfl⟩⟩
  · intro reply after hrun
    obtain ⟨given, last, hgiven, rfl, rfl⟩ := Setting.execute_eq_some.mp hrun
    obtain ⟨hlast, hlead, hothers⟩ := hruns _ _ hgiven
    refine ⟨hlast.session, hlead, trivial, fun other hmay => ?_⟩
    obtain ⟨more, hmore, hends⟩ := hothers other hmay
    exact ⟨more, Setting.execute_eq_some.mpr ⟨given, _, hmore, rfl, rfl⟩, hends⟩

end Serves

end Accord

end AssetQuery
