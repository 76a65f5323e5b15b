import AssetQuery.Proofs.Except
import AssetQuery.Proofs.Session.Computations
import AssetQuery.Proofs.Session.Sharing
import AssetQuery.Proofs.Session.Step
import AssetQuery.Proofs.Value.Resources

/-!
# Attached resources

Where factories do nothing but make arguments and providers of what is passed, and computations hand
out only resources that are there and do not invalidate anything, requests only ever add to what is
known, and all that is known refers to resources that are there.
-/

namespace AssetQuery

variable {σ α β : Type}

/-- Whether factories do nothing but make arguments and providers of what is passed. -/
def Setting.PureFactories (s : Setting σ) : Prop :=
  ∀ name entry factory, s.registry.resource? name = some entry → entry.factory = some factory →
    ∀ args, ∃ outcome,
      (∀ calls session, (factory args).perform s calls session = some (outcome, session)) ∧
      ∀ made provider, outcome = .ok (made, provider) →
        ∀ known : Key → Prop, args.Refers known → made.Refers known

/-- Whether a factory makes a provider of some arguments. -/
def Setting.Makes (s : Setting σ) (provider : Provider σ) : Prop :=
  ∃ name entry factory args made, s.registry.resource? name = some entry ∧
    entry.factory = some factory ∧ ∀ calls session,
      (factory args).perform s calls session = some (.ok (made, some provider), session)

section Stands

variable (s : Setting σ) (memory : σ)

/-- Whether requests from outside can lead to a session, where the memory was as given at first.
They only pass resources that are there. -/
inductive Setting.Reaches : Session σ → Prop
  | start : Reaches (.new memory)
  | create {session after : Session σ} {name : String} {args : Dict Data}
      {reply : Except ResourceError Key} : Reaches session → args.Refers session.Has →
      s.create name args session = some (reply, after) → Reaches after
  | read {session after : Session σ} {key : Key} {field : String}
      {reply : Except ResourceError Data} : Reaches session →
      s.read key field session = some (reply, after) → Reaches after
  | invalidate {session after : Session σ} {key : Key} {field : String} : Reaches session →
      s.invalidate key field session = some ((), after) → Reaches after

/-- Whether a read of a field has its provider compute it by a script. -/
def Setting.Begins (key : Key) (name : String) (script : Script σ Data) (session : Session σ) :
    Prop :=
  ∃ inst declared provider, session.instance? key = some inst ∧ inst.known? name = none ∧
    name ∉ inst.computing ∧ s.registry.field? key.name name = some declared ∧
    inst.args.find? name = none ∧ declared.isImplicit = false ∧ inst.provider = some provider ∧
    s.Makes provider ∧ script = provider.compute key inst.args name

/-- Whether the computation of a field can come to stand before a script in a session. -/
inductive Setting.Stands : Script σ Data → Session σ → Prop
  | outside {key : Key} {name : String} {script : Script σ Data} {session : Session σ} :
      s.Reaches memory session → s.Begins key name script session →
      Stands script (session.update key (·.begin name))
  | inside {key : Key} {name : String} {script : Script σ Data} {session : Session σ}
      {next : Except ResourceError Data → Script σ Data} : Stands (.read key name next) session →
      s.Begins key name script session → Stands script (session.update key (·.begin name))
  | load {next : σ → Script σ Data} {session : Session σ} : Stands (.load next) session →
      Stands (next session.memory) session
  | save {memory : σ} {next : Script σ Data} {session : Session σ} :
      Stands (.save memory next) session → Stands next { session with memory }
  | look {next : Asset → Script σ Data} {session : Session σ} : Stands (.look next) session →
      Stands (next s.asset) session
  | run {command : String} {next : Except ResourceError CommandOutput → Script σ Data}
      {session after : Session σ} {reply : Except ResourceError CommandOutput} :
      Stands (.run command next) session → s.runCommand command session = some (reply, after) →
      Stands (next reply) after
  | read {key : Key} {field : String} {next : Except ResourceError Data → Script σ Data}
      {session after : Session σ} {depth : Nat} {reply : Except ResourceError Data} :
      Stands (.read key field next) session →
      (s.calls depth).read key field session = some (reply, after) → Stands (next reply) after
  | create {name : String} {args : Dict Data} {next : Except ResourceError Key → Script σ Data}
      {session after : Session σ} {depth : Nat} {reply : Except ResourceError Key} :
      Stands (.create name args next) session →
      (s.calls depth).create name args session = some (reply, after) → Stands (next reply) after

/-- Whether computations hand out only resources that are there, as their data and to resources that
they create, and invalidate nothing. -/
structure Setting.HandsOutAttached : Prop where
  done : ∀ data session, s.Stands memory (.done data) session → data.value.Refers session.Has
  create : ∀ name args next session, s.Stands memory (.create name args next) session →
    args.Refers session.Has
  keeps : ∀ key field next session, ¬s.Stands memory (.invalidate key field next) session

end Stands

namespace Session

variable {session after : Session σ} {key : Key}

/-- The provider of a resource that is there. -/
def provider? (session : Session σ) (key : Key) : Option (Provider σ) :=
  (session.instance? key).bind (·.provider)

theorem provider?_update {f : Instance σ → Instance σ}
    (hf : ∀ inst, (f inst).provider = inst.provider) :
    (session.update key f).provider? = session.provider? := by
  funext k
  rw [provider?, provider?, instance?_update]
  split
  · cases session.instance? k <;> simp [hf]
  · rfl

/-- Whether all that is known refers to resources that are there. Fields that are known are
declared, and the providers are made by factories. -/
structure Attached (s : Setting σ) (session : Session σ) : Prop where
  args : ∀ key args, session.args? key = some args → args.Refers session.Has
  known : ∀ key field data, session.known? key field = some data →
    data.value.Refers session.Has ∧ (s.registry.field? key.name field).isSome
  provider : ∀ key provider, session.provider? key = some provider → s.Makes provider

/-- Whether a later session knows all that an earlier one did, where the same fields are being
computed. -/
structure Grows (session after : Session σ) : Prop where
  has : ∀ {key}, session.Has key → after.Has key
  known : ∀ {key field data}, session.known? key field = some data →
    after.known? key field = some data
  computing : after.computing = session.computing
  journal : session.journal <:+ after.journal

namespace Grows

theorem refl (session : Session σ) : session.Grows session := ⟨id, id, rfl, List.suffix_rfl⟩

theorem trans {mid : Session σ} (h : session.Grows mid) (h' : mid.Grows after) :
    session.Grows after :=
  ⟨h'.has ∘ h.has, h'.known ∘ h.known, h'.computing.trans h.computing,
    h.journal.trans h'.journal⟩

theorem record (session : Session σ) (event : Event) : session.Grows (session.record event) :=
  ⟨id, id, rfl, List.suffix_cons _ _⟩

theorem adopt (args : Dict Data) (provider : Option (Provider σ)) :
    session.Grows (session.adopt key (.fresh args provider)) where
  has hkey := extends_adopt.has hkey
  known hknown := by rwa [known?_adopt]
  computing := computing_adopt args provider
  journal := (journal_adopt (.fresh args provider)).symm ▸ List.suffix_rfl

private theorem finish {inst : Instance σ} {name : String}
    (h : (session.update key (·.begin name)).Grows after)
    (hinst : session.instance? key = some inst) (hnew : name ∉ inst.computing) :
    session.Grows (after.update key (·.finish name)) where
  has hkey := by
    rw [Has, args?_finish]
    refine h.has ?_
    rwa [Has, args?_begin]
  known hknown := by
    rw [known?_update (f := (·.finish name)) fun _ => rfl]
    refine h.known ?_
    rwa [known?_update (f := (·.begin name)) fun _ => rfl]
  computing := by
    refine computing_finish ?_ (h.computing.trans (computing_begin hinst))
    rwa [Session.computing, hinst]
  journal := h.journal

private theorem keep {name : String} (h : session.Grows after) (hkey : session.Has key)
    (hunknown : session.known? key name = none) (data : Data) :
    session.Grows (after.update key (·.keep name data)) where
  has hk := by
    rw [Has, args?_keep]
    exact h.has hk
  known {k f found} hknown := by
    have hne : ¬(k = key ∧ f = name) := by
      rintro ⟨rfl, rfl⟩
      cases hknown.symm.trans hunknown
    obtain ⟨inst, hinst⟩ := Option.isSome_iff_exists.mp (has_iff_instance?.mp (h.has hkey))
    rw [known?_keep hinst, if_neg hne]
    exact h.known hknown
  computing := (computing_update (f := (·.keep name data)) fun _ => rfl).trans h.computing
  journal := h.journal

end Grows

namespace Attached

variable {s : Setting σ}

theorem new (memory : σ) : (Session.new memory).Attached s := ⟨nofun, nofun, nofun⟩

theorem congr (h : session.Attached s) (hargs : after.args? = session.args?)
    (hknown : after.known? = session.known?) (hprovider : after.provider? = session.provider?) :
    after.Attached s := by
  have hhas : after.Has = session.Has := by
    funext key
    rw [Has, Has, hargs]
  refine ⟨?_, ?_, ?_⟩
  · rw [hhas, hargs]
    exact h.args
  · rw [hhas, hknown]
    exact h.known
  · rw [hprovider]
    exact h.provider

theorem record (h : session.Attached s) (event : Event) : (session.record event).Attached s :=
  h.congr rfl rfl rfl

theorem update (h : session.Attached s) {f : Instance σ → Instance σ}
    (hargs : ∀ inst, (f inst).args = inst.args) (hcache : ∀ inst, (f inst).cache = inst.cache)
    (hprovider : ∀ inst, (f inst).provider = inst.provider) : (session.update key f).Attached s :=
  h.congr (args?_update hargs) (known?_update hcache) (provider?_update hprovider)

private theorem keep (h : session.Attached s) {name : String} {data : Data}
    (hdata : data.value.Refers session.Has)
    (hdeclared : (s.registry.field? key.name name).isSome) :
    (session.update key (·.keep name data)).Attached s := by
  have hhas : (session.update key (·.keep name data)).Has = session.Has := by
    funext k
    rw [Has, Has, args?_keep]
  refine ⟨?_, fun k field found hfound => ?_, ?_⟩
  · rw [hhas, args?_keep]
    exact h.args
  · rw [hhas]
    cases hinst : session.instance? key with
    | none =>
      refine h.known k field found ?_
      rw [known?, instance?_update] at hfound
      split at hfound
      · next hk =>
        rw [hk, hinst] at hfound
        cases hfound
      · exact hfound
    | some inst =>
      rw [known?_keep hinst] at hfound
      split at hfound
      · next hsame =>
        cases hfound
        obtain ⟨rfl, rfl⟩ := hsame
        exact ⟨hdata, hdeclared⟩
      · exact h.known k field found hfound
  · rw [provider?_update (f := (·.keep name data)) fun _ => rfl]
    exact h.provider

theorem invalidate (h : session.Attached s) {field : String} :
    (session.update key (·.invalidate field)).Attached s := by
  have hargs : (session.update key (·.invalidate field)).args? = session.args? :=
    args?_update fun inst => by
      rw [Instance.invalidate]
      split <;> rfl
  have hhas : (session.update key (·.invalidate field)).Has = session.Has := by
    funext k
    rw [Has, Has, hargs]
  refine ⟨?_, fun k f data hdata => ?_, ?_⟩
  · rw [hhas, hargs]
    exact h.args
  · rw [known?_invalidate] at hdata
    split at hdata
    · cases hdata
    · rw [hhas]
      exact h.known k f data hdata
  · rw [provider?_update fun inst => by
      rw [Instance.invalidate]
      split <;> rfl]
    exact h.provider

private theorem adopt (h : session.Attached s) {args : Dict Data} {provider : Option (Provider σ)}
    (hargs : args.Refers session.Has) (hprovider : ∀ p ∈ provider, s.Makes p) :
    (session.adopt key (.fresh args provider)).Attached s := by
  have hgrows : session.Grows (session.adopt key (.fresh args provider)) := .adopt args provider
  refine ⟨fun k found hfound => ?_, fun k field data hdata => ?_, fun k p hp => ?_⟩
  · rw [args?_adopt] at hfound
    cases hold : session.args? k with
    | some old =>
      rw [hold] at hfound
      cases hfound
      exact (h.args k _ hold).imp fun _ => hgrows.has
    | none =>
      rw [hold, Option.none_or] at hfound
      split at hfound
      · cases hfound
        exact hargs.imp fun _ => hgrows.has
      · cases hfound
  · rw [known?_adopt] at hdata
    obtain ⟨hrefers, hdeclared⟩ := h.known k field data hdata
    exact ⟨hrefers.imp fun _ => hgrows.has, hdeclared⟩
  · rw [provider?, instance?_adopt] at hp
    cases hold : session.instance? k with
    | some inst =>
      rw [hold, Option.some_or] at hp
      refine h.provider k p ?_
      rw [provider?, hold]
      exact hp
    | none =>
      rw [hold, Option.none_or] at hp
      split at hp
      · exact hprovider p hp
      · cases hp

end Attached

end Session

/-- Whether work on a session, where it has an outcome, only adds to what is known, all of which
still refers to resources that are there. -/
def Work.Advances (s : Setting σ) (w : Work σ α) (session : Session σ)
    (post : Session σ → α → Prop) : Prop :=
  ∀ reply after, w session = some (reply, after) →
    after.Attached s ∧ session.Grows after ∧ post after reply

namespace Work

variable {s : Setting σ} {w : Work σ α} {session : Session σ} {post : Session σ → α → Prop}
  {post' : Session σ → β → Prop}

theorem advances_pure {a : α} (hsession : session.Attached s) (h : post session a) :
    Advances s (pure a) session post := by
  rintro _ _ ⟨⟩
  exact ⟨hsession, .refl _, h⟩

theorem Advances.bind {f : α → Work σ β} (hw : Advances s w session post)
    (hf : ∀ a mid, w session = some (a, mid) → mid.Attached s → session.Grows mid → post mid a →
      Advances s (f a) mid post') :
    Advances s (w >>= f) session post' := by
  intro reply after hrun
  obtain ⟨a, mid, hfirst, hrest⟩ := bind_eq_some.mp hrun
  obtain ⟨hmid, hgrows, ha⟩ := hw a mid hfirst
  obtain ⟨hafter, hgrows', hb⟩ := hf a mid hfirst hmid hgrows ha reply after hrest
  exact ⟨hafter, hgrows.trans hgrows', hb⟩

end Work

open Work (Advances advances_pure bind_eq_some)

variable {s : Setting σ} {memory : σ} {session : Session σ}

/-- Whether a field may be read in a session, from outside or by a computation. -/
def Setting.Asks (s : Setting σ) (memory : σ) (key : Key) (name : String) (session : Session σ) :
    Prop :=
  s.Reaches memory session ∨ ∃ next, s.Stands memory (.read key name next) session

private theorem Setting.Asks.stands {key : Key} {name : String} {script : Script σ Data}
    (h : s.Asks memory key name session) (hbegins : s.Begins key name script session) :
    s.Stands memory script (session.update key (·.begin name)) := by
  rcases h with h | ⟨next, h⟩
  · exact .outside h hbegins
  · exact .inside h hbegins

structure Setting.Attach (s : Setting σ) (memory : σ) (calls : Calls σ) : Prop where
  read : ∀ key name session, s.Asks memory key name session → session.Attached s →
    Advances s (calls.read key name) session
      fun after reply => ∀ data, reply = .ok data → data.value.Refers after.Has
  create : ∀ name args session, args.Refers session.Has → session.Attached s →
    Advances s (calls.create name args) session fun after reply => ∀ key, reply = .ok key →
      after.Has key

private theorem Setting.runCommand_advances (command : String) (h : session.Attached s) :
    Advances s (s.runCommand command) session fun _ _ => True := by
  intro reply after hrun
  rw [runCommand] at hrun
  cases hrequire : s.asset.require .runCommand with
  | error e =>
    rw [hrequire] at hrun
    cases hrun
    exact ⟨h, .refl _, trivial⟩
  | ok _ =>
    rw [hrequire] at hrun
    cases hrun
    exact ⟨h.record _, .record _ _, trivial⟩

private theorem Setting.Stands.perform (hhands : s.HandsOutAttached memory) {depth : Nat}
    (hcalls : s.Attach memory (s.calls depth)) {script : Script σ Data}
    (h : s.Stands memory script session) (hsession : session.Attached s) :
    Advances s (script.perform s (s.calls depth)) session fun after outcome =>
      ∀ data, outcome = .ok data → data.value.Refers after.Has := by
  -- The script that is left after a command stands again in the session that the command led to.
  induction script generalizing session with
  | done data =>
    refine advances_pure hsession ?_
    rintro _ ⟨⟩
    exact hhands.done data session h
  | fail cause => exact advances_pure hsession Except.of_error_eq_ok
  | load next ih => exact ih _ h.load hsession
  | save memory next ih =>
    intro outcome after hrun
    obtain ⟨hafter, hgrows, houtcome⟩ := ih h.save (hsession.congr rfl rfl rfl) outcome after hrun
    exact ⟨hafter, ⟨hgrows.has, hgrows.known, hgrows.computing, hgrows.journal⟩, houtcome⟩
  | look next ih => exact ih s.asset h.look hsession
  | run command next ih =>
    exact (runCommand_advances command hsession).bind fun reply mid hrun hmid _ _ =>
      ih reply (h.run hrun) hmid
  | read key field next ih =>
    exact (hcalls.read key field session (.inr ⟨next, h⟩) hsession).bind
      fun reply mid hrun hmid _ _ => ih reply (h.read hrun) hmid
  | create name args next ih =>
    exact (hcalls.create name args session (hhands.create name args next session h) hsession).bind
      fun reply mid hrun hmid _ _ => ih reply (h.create hrun) hmid
  | invalidate key field next => exact absurd h (hhands.keeps key field next session)

namespace Setting

variable {key : Key} {name : String} {inst : Instance σ} {depth : Nat} {declared : Field}

theorem compute_advances (hhands : s.HandsOutAttached memory)
    (hcalls : s.Attach memory (s.calls depth)) (hasks : s.Asks memory key name session)
    (hsession : session.Attached s) (hinst : session.instance? key = some inst)
    (hunknown : inst.known? name = none) (hnew : name ∉ inst.computing)
    (hdeclared : s.registry.field? key.name name = some declared) :
    Advances s (s.compute (s.calls depth) key inst name declared)
      (session.update key (·.begin name))
      fun after outcome => ∀ data, outcome = .ok data → data.value.Refers after.Has := by
  -- The field stands among the arguments, leads to an implicit resource or is left to the provider.
  have hbegun : (session.update key (·.begin name)).Attached s :=
    hsession.update (fun _ => rfl) (fun _ => rfl) fun _ => rfl
  rw [compute]
  split
  · next data hdata =>
    refine advances_pure hbegun ?_
    rintro _ ⟨⟩
    have hargs : (session.update key (·.begin name)).args? key = some inst.args := by
      rw [Session.args?_begin]
      exact Session.args?_eq_some.mpr ⟨inst, hinst, rfl⟩
    have hrefers := (hbegun.args key _ hargs).find? hdata
    split <;> exact hrefers
  · next hnone =>
    split
    · refine (hcalls.create _ _ _ Dict.refers_empty hbegun).bind fun reply mid _ hmid _ hreply => ?_
      cases reply with
      | ok k =>
        refine advances_pure hmid ?_
        rintro _ ⟨⟩
        exact Value.refers_resource_iff.mpr (hreply k rfl)
      | error e => exact advances_pure hmid Except.of_error_eq_ok
    · next himplicit =>
      split
      · exact advances_pure hbegun Except.of_error_eq_ok
      · next provider hprovider =>
        have hmakes : s.Makes provider := by
          refine hsession.provider key provider ?_
          rw [Session.provider?, hinst]
          exact hprovider
        have hstands := hasks.stands ⟨inst, declared, provider, hinst, hunknown, hnew, hdeclared,
          hnone, eq_false_of_ne_true himplicit, hprovider, hmakes, rfl⟩
        refine (hstands.perform hhands hcalls hbegun).bind fun outcome mid _ hmid _ houtcome => ?_
        cases outcome with
        | error cause => exact advances_pure hmid Except.of_error_eq_ok
        | ok data =>
          refine advances_pure hmid ?_
          rintro _ ⟨⟩
          have hrefers := houtcome data rfl
          split <;> exact hrefers

private theorem settled_refers {t : Ty} {outcome : Except Failure Data} {data : Data}
    {known : Key → Prop} (h : ∀ data, outcome = .ok data → data.value.Refers known)
    (hdata : settled t outcome = .ok data) : data.value.Refers known := by
  cases outcome with
  | ok found =>
    have hfound := h found rfl
    simp only [settled] at hdata
    cases hdata
    split <;> exact hfound
  | error cause =>
    simp only [settled] at hdata
    split at hdata <;> cases hdata
    exact Value.refers_nil

private theorem concluded_advances {before mid : Session σ} (hmid : mid.Attached s)
    (hgrows : (before.update key (·.begin name)).Grows mid)
    (hinst : before.instance? key = some inst) (hunknown : inst.known? name = none)
    (hnew : name ∉ inst.computing) (hdeclared : (s.registry.field? key.name name).isSome)
    {result : Except ResourceError Data}
    (hresult : ∀ data, result = .ok data → data.value.Refers mid.Has) :
    (s.concluded key name mid result).Attached s ∧
      before.Grows (s.concluded key name mid result) ∧
      (s.concluded key name mid result).Has = mid.Has := by
  have hfinished : (mid.update key (·.finish name)).Attached s :=
    hmid.update (fun _ => rfl) (fun _ => rfl) fun _ => rfl
  have hhas : (mid.update key (·.finish name)).Has = mid.Has := by
    funext k
    rw [Session.Has, Session.Has, Session.args?_finish]
  have hbefore : before.Grows (mid.update key (·.finish name)) := hgrows.finish hinst hnew
  cases result with
  | error e => exact ⟨hfinished.record _, hbefore.trans (.record _ _), hhas⟩
  | ok data =>
    have hrecorded := hfinished.record (.computed key name (some data))
    have hgrown := hbefore.trans (.record _ (.computed key name (some data)))
    simp only [concluded]
    split
    · have hkey : before.Has key := by
        rw [Session.has_iff_instance?, hinst]
        rfl
      have hnone : before.known? key name = none := by
        rw [Session.known?, hinst]
        exact hunknown
      refine ⟨hrecorded.keep (hhas ▸ hresult data rfl) hdeclared, hgrown.keep hkey hnone data, ?_⟩
      funext k
      rw [Session.Has, Session.args?_keep]
      exact congrFun hhas k
    · -- A failure is not kept unless the configuration says so.
      exact ⟨hrecorded, hgrown, hhas⟩

private theorem fieldResult_refers {data found : Data} {known : Key → Prop}
    (h : data.value.Refers known) (hfound : fieldResult key name data = .ok found) :
    found.value.Refers known := by
  rw [fieldResult] at hfound
  split at hfound <;> cases hfound
  exact h

theorem readStep_advances (hhands : s.HandsOutAttached memory)
    (hcalls : s.Attach memory (s.calls depth)) (hasks : s.Asks memory key name session)
    (hsession : session.Attached s) :
    Advances s (s.readStep (s.calls depth) key name) session
      fun after reply => ∀ data, reply = .ok data → data.value.Refers after.Has := by
  intro reply after hrun
  cases readStep_eq_some.mp hrun with
  | missing => exact ⟨hsession, .refl _, Except.of_error_eq_ok⟩
  | @answered inst data hinst hknown =>
    refine ⟨hsession.record _, .record _ _, fun found hfound => ?_⟩
    refine fieldResult_refers (hsession.known key name data ?_).1 hfound
    rw [Session.known?, hinst]
    exact hknown
  | circular => exact ⟨hsession, .refl _, Except.of_error_eq_ok⟩
  | undeclared => exact ⟨hsession, .refl _, Except.of_error_eq_ok⟩
  | @computed inst declared _ _ hinst hunknown hnew hdeclared hfield =>
    obtain ⟨outcome, mid, hcompute, rfl, rfl⟩ := computeField_eq_some.mp hfield
    obtain ⟨hmid, hgrows, houtcome⟩ := compute_advances hhands hcalls hasks hsession hinst hunknown
      hnew hdeclared _ _ hcompute
    have hresult {data : Data} (hdata : settled declared.typ outcome = .ok data) :=
      settled_refers houtcome hdata
    obtain ⟨hafter, hgrown, hhas⟩ := concluded_advances hmid hgrows hinst hunknown hnew
      (by rw [hdeclared]; rfl) fun _ hdata => hresult hdata
    refine ⟨hafter, hgrown, fun found hfound => ?_⟩
    rw [hhas]
    cases hsettled : settled declared.typ outcome with
    | error e =>
      rw [hsettled] at hfound
      cases hfound
    | ok data =>
      rw [hsettled] at hfound
      exact fieldResult_refers (hresult hsettled) hfound

private theorem construct_eq (hpure : s.PureFactories) {entry : ResourceEntry (Factory σ)}
    (hentry : s.registry.resource? name = some entry) (args : Dict Data) :
    ∃ outcome, (∀ calls session, s.construct calls entry.factory args session =
        some (outcome, session)) ∧
      ∀ made provider, outcome = .ok (made, provider) →
        (∀ known : Key → Prop, args.Refers known → made.Refers known) ∧
        ∀ p ∈ provider, s.Makes p := by
  cases hfactory : entry.factory with
  | none =>
    refine ⟨.ok (args, none), fun _ _ => rfl, ?_⟩
    rintro _ _ ⟨⟩
    exact ⟨fun _ h => h, nofun⟩
  | some factory =>
    obtain ⟨outcome, hrun, hmade⟩ := hpure name entry factory hentry hfactory args
    refine ⟨outcome, hrun, fun made provider houtcome => ⟨hmade made provider houtcome, ?_⟩⟩
    rintro p rfl
    subst houtcome
    exact ⟨name, entry, factory, args, made, hentry, hfactory, hrun⟩

/-- What becomes of a request to create a resource does not depend on the session: it fails, or
there is a resource of some key afterwards. -/
theorem createStep_eq (hpure : s.PureFactories) (name : String) (args : Dict Data) :
    (∃ e, ∀ calls session, s.createStep calls name args session = some (.error e, session)) ∨
      ∃ key made provider, (∀ known : Key → Prop, args.Refers known → made.Refers known) ∧
        (∀ p ∈ provider, s.Makes p) ∧
        ∀ calls session, s.createStep calls name args session =
          some (.ok key, session.adopt key (.fresh made provider)) := by
  cases hentry : s.registry.resource? name with
  | none =>
    refine .inl ⟨.unknownResource name, fun calls session => ?_⟩
    simp only [createStep, hentry]
    rfl
  | some entry =>
    obtain ⟨outcome, hconstruct, hmade⟩ := construct_eq hpure hentry args
    cases outcome with
    | error cause =>
      refine .inl ⟨.construction name cause.message, fun calls session => ?_⟩
      simp only [createStep, hentry]
      exact Work.run_bind (hconstruct calls session)
    | ok o =>
      obtain ⟨made, provider⟩ := o
      obtain ⟨hrefers, hprovider⟩ := hmade made provider rfl
      cases hfault : argsFault? entry.info made with
      | some cause =>
        refine .inl ⟨.construction name cause, fun calls session => ?_⟩
        simp only [createStep, hentry]
        rw [Work.run_bind (hconstruct calls session)]
        simp only [hfault]
        rfl
      | none =>
        refine .inr ⟨⟨name, (provider.bind (·.id made)).getD (defaultId name made)⟩, made, provider,
          hrefers, hprovider, fun calls session => ?_⟩
        simp only [createStep, hentry]
        rw [Work.run_bind (hconstruct calls session)]
        simp only [hfault]
        rfl

theorem createStep_advances (hpure : s.PureFactories) (calls : Calls σ) (name : String)
    {args : Dict Data} (hargs : args.Refers session.Has) (hsession : session.Attached s) :
    Advances s (s.createStep calls name args) session
      fun after reply => ∀ key, reply = .ok key → after.Has key := by
  intro reply after hrun
  rcases createStep_eq hpure name args with ⟨e, heq⟩ | ⟨key, made, provider, hmade, hmakes, heq⟩
  · cases (heq calls session).symm.trans hrun
    exact ⟨hsession, .refl _, Except.of_error_eq_ok⟩
  · cases (heq calls session).symm.trans hrun
    refine ⟨hsession.adopt (hmade _ hargs) hmakes, .adopt _ _, ?_⟩
    rintro _ ⟨⟩
    exact Session.has_adopt

theorem has_of_create (hpure : s.PureFactories) {args : Dict Data} {after : Session σ}
    (h : (s.calls depth).create name args session = some (.ok key, after)) : after.Has key := by
  cases depth with
  | zero => cases h
  | succ depth =>
    rcases createStep_eq hpure name args with ⟨e, heq⟩ | ⟨_, made, provider, _, _, heq⟩
    · cases (heq _ session).symm.trans h
    · cases (heq _ session).symm.trans h
      exact Session.has_adopt

theorem calls_attach (hpure : s.PureFactories) (hhands : s.HandsOutAttached memory)
    (depth : Nat) : s.Attach memory (s.calls depth) := by
  induction depth with
  | zero => exact ⟨fun _ _ _ _ _ _ _ => nofun, fun _ _ _ _ _ _ _ => nofun⟩
  | succ depth ih =>
    exact ⟨fun _ _ _ => readStep_advances hhands ih, fun name _ _ =>
      createStep_advances hpure (s.calls depth) name⟩

end Setting

end AssetQuery
