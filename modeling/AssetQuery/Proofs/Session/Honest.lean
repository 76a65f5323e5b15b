import AssetQuery.Proofs.Eval.Steps
import AssetQuery.Proofs.Session.Work

/-!
# Honest factories and providers

Where factories and providers give only data of the types that are declared of arguments and fields,
a session holds only such data, whatever is asked of it, and answers with nothing else.
-/

namespace AssetQuery

variable {F σ α β : Type}

/-- Whether a script ends only as it is to end, and on the way passes on only arguments that are
what is declared, if what it is told is what is declared and the memory is as it is to be. -/
def Script.Honest (registry : Registry F) (valid : σ → Prop) (post : α → Prop) :
    Script σ α → Prop
  | done a => post a
  | fail _ => True
  | load next => ∀ memory, valid memory → (next memory).Honest registry valid post
  | save memory next => valid memory ∧ next.Honest registry valid post
  | look next => ∀ asset, (next asset).Honest registry valid post
  | run _ next => ∀ reply, (next reply).Honest registry valid post
  | read key field next => ∀ reply, (∀ data declared, reply = .ok data →
      registry.field? key.name field = some declared → data.Within declared.typ) →
      (next reply).Honest registry valid post
  | create name args next => registry.Takes name args ∧
      ∀ reply, (∀ key : Key, reply = .ok key → key.name = name) →
        (next reply).Honest registry valid post
  | invalidate _ _ next => next.Honest registry valid post

/-- One honest script after the other. -/
theorem Script.Honest.andThen {registry : Registry F} {valid : σ → Prop} {post : α → Prop}
    {post' : β → Prop} {script : Script σ α} (h : script.Honest registry valid post)
    {f : α → Script σ β} (hf : ∀ a, post a → (f a).Honest registry valid post') :
    (script.andThen f).Honest registry valid post' := by
  induction script with
  | done a => exact hf a h
  | fail cause => trivial
  | load next ih => exact fun memory hmemory => ih memory (h memory hmemory)
  | save memory next ih => exact ⟨h.1, ih h.2⟩
  | look next ih => exact fun asset => ih asset (h asset)
  | run command next ih => exact fun reply => ih reply (h reply)
  | read key field next ih => exact fun reply hreply => ih reply (h reply hreply)
  | create name args next ih => exact ⟨h.1, fun reply hreply => ih reply (h.2 reply hreply)⟩
  | invalidate key field next ih => exact ih h

theorem Script.honest_expect {registry : Registry F} {valid : σ → Prop}
    (reply : Except ResourceError α) :
    (expect reply : Script σ α).Honest registry valid fun _ => True := by
  cases reply <;> trivial

theorem Script.honest_orFail {registry : Registry F} {valid : σ → Prop} (message : String)
    (found : Option α) :
    (orFail message found : Script σ α).Honest registry valid fun _ => True := by
  cases found <;> trivial

/-- Whether a provider of a resource computes what is declared of its fields. -/
def Provider.Honest (registry : Registry F) (valid : σ → Prop) (name : String)
    (provider : Provider σ) : Prop :=
  ∀ key args field declared, key.name = name → registry.Takes name args →
    registry.field? name field = some declared →
    (provider.compute key args field).Honest registry valid (·.Suits declared.typ)

/-- Whether the factories of a setting, and the providers that they make, are honest. -/
def Setting.Honest (s : Setting σ) (valid : σ → Prop) : Prop :=
  ∀ name entry factory args, s.registry.resource? name = some entry →
    entry.factory = some factory → s.registry.Takes name args →
    (factory args).Honest s.registry valid fun made =>
      s.registry.Takes name made.1 ∧
        ∀ provider, made.2 = some provider → provider.Honest s.registry valid name

/-- Whether a resource holds what is declared of its fields. -/
structure Instance.Holds (registry : Registry F) (valid : σ → Prop) (name : String)
    (inst : Instance σ) : Prop where
  args : registry.Takes name inst.args
  provider : ∀ provider, inst.provider = some provider → provider.Honest registry valid name
  cache : ∀ field entry declared, inst.cache.find? field = some entry →
    registry.field? name field = some declared → entry.data.Within declared.typ

/-- Whether the resources of a session hold what is declared, and its memory is as it is to be. -/
structure Session.Holds (registry : Registry F) (valid : σ → Prop) (session : Session σ) :
    Prop where
  memory : valid session.memory
  instances : ∀ key inst, session.instance? key = some inst →
    inst.Holds registry valid key.name

section Sessions

variable {registry : Registry F} {valid : σ → Prop} {name field : String} {inst : Instance σ}
  {session : Session σ}

theorem Session.holds_new {memory : σ} (h : valid memory) :
    (Session.new memory).Holds registry valid :=
  ⟨h, nofun⟩

private theorem Instance.holds_fresh {args : Dict Data} {provider : Option (Provider σ)}
    (hargs : registry.Takes name args)
    (hprovider : ∀ p, provider = some p → p.Honest registry valid name) :
    (Instance.fresh args provider).Holds registry valid name :=
  ⟨hargs, hprovider, nofun⟩

private theorem Instance.Holds.keep (h : inst.Holds registry valid name) {data : Data}
    (hdata : ∀ declared, registry.field? name field = some declared → data.Within declared.typ) :
    (inst.keep field data).Holds registry valid name := by
  refine ⟨h.args, h.provider, fun f entry declared hentry hdeclared => ?_⟩
  rw [Instance.keep, Dict.find?_insert] at hentry
  split at hentry
  · next hf =>
    subst hf
    obtain rfl := Option.some.inj hentry
    exact hdata declared hdeclared
  · exact h.cache f entry declared hentry hdeclared

private theorem Instance.Holds.invalidate (h : inst.Holds registry valid name) :
    (inst.invalidate field).Holds registry valid name := by
  rw [Instance.invalidate]
  split
  · next entry hentry =>
    refine ⟨h.args, h.provider, fun f found declared hfound hdeclared => ?_⟩
    rw [Dict.find?_insert] at hfound
    split at hfound
    · next hf =>
      subst hf
      obtain rfl := Option.some.inj hfound
      exact h.cache f entry declared hentry hdeclared
    · exact h.cache f found declared hfound hdeclared
  · exact h

theorem Session.Holds.update (h : session.Holds registry valid) {key : Key}
    {f : Instance σ → Instance σ}
    (hf : ∀ inst, inst.Holds registry valid key.name → (f inst).Holds registry valid key.name) :
    (session.update key f).Holds registry valid := by
  refine ⟨h.memory, fun k inst hinst => ?_⟩
  rw [Session.instance?_update] at hinst
  split at hinst
  · next hk =>
    subst hk
    obtain ⟨old, hold, rfl⟩ := Option.map_eq_some_iff.mp hinst
    exact hf old (h.instances k old hold)
  · exact h.instances k inst hinst

private theorem Session.Holds.adopt (h : session.Holds registry valid) {key : Key}
    (hinst : inst.Holds registry valid key.name) :
    (session.adopt key inst).Holds registry valid := by
  have hmemory : (session.adopt key inst).memory = session.memory := by
    rw [Session.adopt]
    split <;> rfl
  refine ⟨hmemory ▸ h.memory, fun k found hfound => ?_⟩
  rw [Session.instance?_adopt] at hfound
  rcases Option.or_eq_some_iff.mp hfound with hold | ⟨_, hnew⟩
  · exact h.instances k found hold
  · split at hnew
    · next hk =>
      subst hk
      exact Option.some.inj hnew ▸ hinst
    · cases hnew

end Sessions

open Work (Keeps keeps_pure keeps_modify keeps_get)

structure Calls.Honest (registry : Registry F) (valid : σ → Prop) (calls : Calls σ) : Prop where
  read : ∀ key field, Keeps (Session.Holds registry valid) (calls.read key field) fun reply =>
    ∀ data declared, reply = .ok data → registry.field? key.name field = some declared →
      data.Within declared.typ
  create : ∀ name args, registry.Takes name args →
    Keeps (Session.Holds registry valid) (calls.create name args) fun reply =>
      ∀ key : Key, reply = .ok key → key.name = name

theorem Script.Honest.perform {registry : Registry F} {valid : σ → Prop} {post : α → Prop}
    {s : Setting σ} {calls : Calls σ} (hcalls : calls.Honest registry valid) {script : Script σ α}
    (h : script.Honest registry valid post) :
    Keeps (Session.Holds registry valid) (script.perform s calls) fun reply =>
      ∀ a, reply = .ok a → post a := by
  induction script with
  | done a =>
    refine keeps_pure fun found hfound => ?_
    obtain rfl := Except.ok.inj hfound
    exact h
  | fail cause => exact keeps_pure nofun
  | load next ih => exact keeps_get fun session hkept => ih _ (h _ hkept.memory)
  | save memory next ih =>
    refine (keeps_modify fun session hkept => ?_).bind fun _ _ => ih h.2
    exact ⟨h.1, hkept.instances⟩
  | look next ih => exact ih _ (h _)
  | run command next ih =>
    have hrun : Keeps (Session.Holds registry valid) (s.runCommand command) fun _ => True := by
      rw [Setting.runCommand]
      split
      · exact keeps_pure trivial
      · exact (keeps_modify fun session hkept => ⟨hkept.memory, hkept.instances⟩).bind
          fun _ _ => keeps_pure trivial
    exact hrun.bind fun reply _ => ih reply (h reply)
  | read key field next ih =>
    exact (hcalls.read key field).bind fun reply hreply => ih reply (h reply hreply)
  | create name args next ih =>
    exact (hcalls.create name args h.1).bind fun reply hreply => ih reply (h.2 reply hreply)
  | invalidate key field next ih =>
    refine (keeps_modify fun session hkept => ?_).bind fun _ _ => ih h
    have hafter : (session.update key fun inst => inst.invalidate field).Holds registry valid :=
      hkept.update fun inst hinst => hinst.invalidate
    exact ⟨hafter.memory, hafter.instances⟩

namespace Setting

variable {s : Setting σ} {valid : σ → Prop} {calls : Calls σ} {key : Key} {name : String}
  {inst : Instance σ} {declared : Field}

private theorem settled_within {t : Ty} {outcome : Except Failure Data} {data : Data}
    (h : ∀ found, outcome = .ok found → found.Suits t) (hdata : settled t outcome = .ok data) :
    data.Within t := by
  cases outcome with
  | ok found =>
    obtain rfl := Except.ok.inj hdata
    rcases h found rfl with hwithin | ⟨hnil, htyp⟩
    · split
      · exact ⟨.refl, hwithin.conforms⟩
      · exact hwithin
    · rw [if_pos (by simp [hnil, htyp, Value.isNil])]
      exact ⟨.refl, hnil ▸ .nil⟩
  | error cause =>
    rw [settled] at hdata
    split at hdata
    · cases hdata
    · exact Except.ok.inj hdata ▸ Data.within_failed t _

private theorem suits_argument {t : Ty} {data : Data} (h : data.Suits t) :
    Data.Suits t
      (if !data.value.isNil && data.typ.containsAny then { data with typ := t } else data) := by
  split
  · next hany =>
    rcases h with hwithin | ⟨hnil, _⟩
    · exact .inl ⟨.refl, hwithin.conforms⟩
    · rw [hnil] at hany
      cases hany
  · exact h

private theorem suits_given {t : Ty} {data : Data} (h : data.Suits t) :
    Data.Suits t
      (if data.value.isNil && data.error.isNone then { data with typ := t } else data) := by
  split
  · next hnil =>
    have hvalue : data.value = .nil := by
      cases hv : data.value with
      | nil => rfl
      | _ => rw [hv] at hnil; cases hnil
    exact .inl ⟨.refl, hvalue ▸ .nil⟩
  · exact h

private theorem compute_keeps (hregular : s.registry.Regular)
    (hcalls : calls.Honest s.registry valid) (hinst : inst.Holds s.registry valid key.name)
    (hdeclared : s.registry.field? key.name name = some declared) :
    Keeps (Session.Holds s.registry valid) (s.compute calls key inst name declared) fun reply =>
      ∀ data, reply = .ok data → data.Suits declared.typ := by
  rw [compute]
  split
  · next data hdata =>
    refine keeps_pure fun found hfound => ?_
    obtain rfl := Except.ok.inj hfound
    exact suits_argument (hinst.args name data declared hdata hdeclared)
  · split
    · next himplicit =>
      refine (hcalls.create _ _ (s.registry.takes_empty _)).bind fun reply hreply => ?_
      cases reply with
      | error e => exact keeps_pure nofun
      | ok child =>
        refine keeps_pure fun found hfound => ?_
        obtain rfl := Except.ok.inj hfound
        have hfits := (hregular.field hdeclared).fits_link himplicit (key.name ++ "." ++ name)
        exact .inl ⟨hreply child rfl ▸ hfits, .resource⟩
    · split
      · exact keeps_pure nofun
      · next provider hprovider =>
        have hscript := hinst.provider provider hprovider key inst.args name declared rfl hinst.args
          hdeclared
        refine (hscript.perform hcalls).bind fun reply hreply => ?_
        cases reply with
        | error cause => exact keeps_pure nofun
        | ok data =>
          refine keeps_pure fun found hfound => ?_
          obtain rfl := Except.ok.inj hfound
          exact suits_given (hreply data rfl)

theorem fieldResult_within {data found : Data} (h : data.Within declared.typ)
    (hfound : fieldResult key name data = .ok found) : found.Within declared.typ := by
  rw [fieldResult] at hfound
  split at hfound
  · cases hfound
  · exact Except.ok.inj hfound ▸ h

private theorem computeField_keeps (hregular : s.registry.Regular)
    (hcalls : calls.Honest s.registry valid) (hinst : inst.Holds s.registry valid key.name)
    (hdeclared : s.registry.field? key.name name = some declared) :
    Keeps (Session.Holds s.registry valid) (s.computeField calls key inst name declared)
      fun reply => ∀ data, reply = .ok data → data.Within declared.typ := by
  rw [computeField]
  have hsame {f : Instance σ → Instance σ}
      (hf : ∀ inst, (f inst).args = inst.args ∧ (f inst).provider = inst.provider ∧
        (f inst).cache = inst.cache) (inst : Instance σ)
      (h : inst.Holds s.registry valid key.name) : (f inst).Holds s.registry valid key.name := by
    obtain ⟨hargs, hprovider, hcache⟩ := hf inst
    exact ⟨hargs ▸ h.args, hprovider ▸ h.provider, hcache ▸ h.cache⟩
  refine (keeps_modify fun _ hkept => hkept.update (hsame fun _ => ⟨rfl, rfl, rfl⟩)).bind
    fun _ _ => ?_
  refine (compute_keeps hregular hcalls hinst hdeclared).bind fun outcome houtcome => ?_
  refine (keeps_modify fun _ hkept => hkept.update (hsame fun _ => ⟨rfl, rfl, rfl⟩)).bind
    fun _ _ => ?_
  have hrecord (event : Event) : Keeps (Session.Holds s.registry valid)
      (modify (·.record event)) fun _ => True :=
    keeps_modify fun _ hkept => ⟨hkept.memory, hkept.instances⟩
  split
  · exact (hrecord _).bind fun _ _ => keeps_pure nofun
  · next data hsettled =>
    have hwithin := settled_within houtcome hsettled
    refine (hrecord _).bind fun _ _ => ?_
    have hresult : Keeps (Session.Holds s.registry valid)
        (pure (fieldResult key name data) : Work σ (Except ResourceError Data))
        fun reply => ∀ data, reply = .ok data → data.Within declared.typ :=
      keeps_pure fun _ => fieldResult_within hwithin
    split
    · refine (keeps_modify fun _ hkept => hkept.update fun inst hinst => ?_).bind
        fun _ _ => hresult
      refine hinst.keep fun other hother => ?_
      obtain rfl := Option.some.inj (hdeclared.symm.trans hother)
      exact hwithin
    · exact hresult

private theorem readStep_keeps (hregular : s.registry.Regular)
    (hcalls : calls.Honest s.registry valid) (key : Key) (name : String) :
    Keeps (Session.Holds s.registry valid) (s.readStep calls key name) fun reply =>
      ∀ data declared, reply = .ok data → s.registry.field? key.name name = some declared →
        data.Within declared.typ := by
  refine keeps_get fun session hkept => ?_
  split
  · exact keeps_pure fun _ _ h => by cases h
  · next inst hfound =>
    have hinst := hkept.instances key inst hfound
    split
    · next data hknown =>
      refine (keeps_modify fun _ hkept => ⟨hkept.memory, hkept.instances⟩).bind fun _ _ => ?_
      refine keeps_pure fun found declared hdata hdeclared => fieldResult_within ?_ hdata
      rw [Instance.known?] at hknown
      split at hknown
      · next entry hentry =>
        obtain rfl := Option.some.inj hknown
        exact hinst.cache name _ declared hentry hdeclared
      · cases hknown
    · split
      · exact keeps_pure fun _ _ h => by cases h
      · split
        · exact keeps_pure fun _ _ h => by cases h
        · next declared hdeclared =>
          refine (computeField_keeps hregular hcalls hinst hdeclared).imp
            fun reply hreply data other hdata hother => ?_
          obtain rfl := Option.some.inj (hdeclared.symm.trans hother)
          exact hreply data hdata

private theorem createStep_keeps (hhonest : s.Honest valid) (hcalls : calls.Honest s.registry valid)
    {args : Dict Data} (hargs : s.registry.Takes name args) :
    Keeps (Session.Holds s.registry valid) (s.createStep calls name args) fun reply =>
      ∀ key : Key, reply = .ok key → key.name = name := by
  rw [createStep]
  split
  · exact keeps_pure nofun
  · next entry hentry =>
    have hconstruct : Keeps (Session.Holds s.registry valid) (s.construct calls entry.factory args)
        fun reply => ∀ made, reply = .ok made → s.registry.Takes name made.1 ∧
          ∀ provider, made.2 = some provider → provider.Honest s.registry valid name := by
      cases hfactory : entry.factory with
      | none =>
        refine keeps_pure fun made hmade => ?_
        obtain rfl := Except.ok.inj hmade
        exact ⟨hargs, nofun⟩
      | some factory => exact (hhonest name entry factory args hentry hfactory hargs).perform hcalls
    refine hconstruct.bind fun reply hreply => ?_
    split
    · exact keeps_pure nofun
    · next made provider =>
      obtain ⟨hmade, hprovider⟩ := hreply (made, provider) rfl
      split
      · exact keeps_pure nofun
      · refine (keeps_modify fun session hkept => ?_).bind fun _ _ => keeps_pure fun key hkey => ?_
        · exact hkept.adopt (Instance.holds_fresh hmade hprovider)
        · exact Except.ok.inj hkey ▸ rfl

private theorem calls_honest (hregular : s.registry.Regular) (hhonest : s.Honest valid)
    (depth : Nat) : (s.calls depth).Honest s.registry valid := by
  induction depth with
  | zero => exact ⟨fun _ _ => nofun, fun _ _ _ => nofun⟩
  | succ depth ih =>
    exact ⟨readStep_keeps hregular ih, fun _ _ hargs => createStep_keeps hhonest ih hargs⟩

/-- A session of honest factories and providers serves what is declared. -/
theorem Honest.serves (hhonest : s.Honest valid) (hregular : s.registry.Regular) :
    s.Serves s.registry (Session.Holds s.registry valid) where
  declares _ _ declared h := h ▸ rfl
  create name args session hkept hargs reply after hrun :=
    (calls_honest hregular hhonest _).create name args hargs session hkept reply after hrun
  read key field declared session hkept hdeclared reply after hrun := by
    obtain ⟨hafter, hdata⟩ :=
      (calls_honest hregular hhonest _).read key field session hkept reply after hrun
    exact ⟨hafter, fun data hok => hdata data declared hok hdeclared⟩

end Setting

end AssetQuery
