import AssetQuery.Proofs.Session.Computations
import AssetQuery.Proofs.Session.FieldGraph
import AssetQuery.Proofs.Session.Step
import Mathlib.Data.List.Perm.Subperm

/-!
# Reads of fields that pass on fields

A read of a field that passes on another reads that on the way. However much of the way is known
already, the reply is the one that the graph of the fields tells, so that what is kept makes no
difference; and a read comes to an end, since the fields that are being computed are different
fields of the resource. On a way into a circle nothing is kept.
-/

namespace AssetQuery

open Work (Keeps keeps_pure keeps_modify keeps_get bind_eq_some run_bind)

variable {σ α : Type}

/-- Whether a script does for a field of a resource what a rule says. On the way there it may use
the memory, look at the asset and run commands. -/
inductive Script.Follows (key : Key) : FieldRule → Script σ Data → Prop
  | constant {data : Data} : Follows key (.constant data) (.done data)
  | failing {cause : Failure} : Follows key (.failing cause) (.fail cause)
  | passing {field : String} {context : Option String}
      {next : Except ResourceError Data → Script σ Data}
      (ok : ∀ data, Follows key (.constant data) (next (.ok data)))
      (error : ∀ e, Follows key (.failing (e.passedOn context)) (next (.error e))) :
      Follows key (.passing field context) (.read key field next)
  | load {rule : FieldRule} {next : σ → Script σ Data}
      (h : ∀ memory, Follows key rule (next memory)) : Follows key rule (.load next)
  | save {rule : FieldRule} {memory : σ} {next : Script σ Data}
      (h : Follows key rule next) : Follows key rule (.save memory next)
  | look {rule : FieldRule} {next : Asset → Script σ Data}
      (h : ∀ asset, Follows key rule (next asset)) : Follows key rule (.look next)
  | run {rule : FieldRule} {command : String}
      {next : Except ResourceError CommandOutput → Script σ Data}
      (h : ∀ reply, Follows key rule (next reply)) : Follows key rule (.run command next)

/-- The fields that are declared of a resource, with some rules. -/
def Setting.graph (s : Setting σ) (key : Key) (rule : String → FieldRule) : FieldGraph where
  resource := key.name
  typ? f := (s.registry.field? key.name f).map (·.typ)
  rule := rule

/-- Whether all declared fields of a resource are its provider's and follow rules. -/
structure Setting.Passes (s : Setting σ) (key : Key) (args : Dict Data) (provider : Provider σ)
    (rule : String → FieldRule) : Prop where
  own : ∀ f declared, s.registry.field? key.name f = some declared →
    args.find? f = none ∧ declared.isImplicit = false
  follows : ∀ f declared, s.registry.field? key.name f = some declared →
    (provider.compute key args f).Follows key (rule f)

namespace Failure

private theorem circle?_eq_some {cause : Failure} {e : ResourceError} (h : cause.circle? = some e) :
    ∃ name field, e = .cyclic name field := by
  induction cause with
  | text => cases h
  | resource e' =>
    cases e' <;> cases h
    exact ⟨_, _, rfl⟩
  | during _ cause ih => exact ih h

private theorem circle?_passedOn (e : ResourceError) (context : Option String) :
    (e.passedOn context).circle? = (Failure.resource e).circle? := by
  cases context <;> rfl

end Failure

private theorem Data.error_filled (t : Ty) (data : Data) : (data.filled t).error = data.error := by
  rw [Data.filled]
  split <;> rfl

private theorem Data.filled_filled (t t' : Ty) (data : Data) :
    (data.filled t).filled t' = data.filled t' := by
  by_cases h : data.value.isNil && data.error.isNone <;> simp [Data.filled, h]

private theorem Setting.settled_filled {t : Ty} {data : Data} (h : data.error = none) :
    settled t (.ok (data.filled t)) = .ok (data.filled t) := by
  by_cases hnil : data.value.isNil <;> simp [settled, Data.filled, hnil, h]

namespace FieldGraph

variable {G : FieldGraph} {f : String} {t : Ty} {pending : List String}

/-- What the reply to a read may be while fields are being computed. -/
inductive Meets (G : FieldGraph) (pending : List String) (f : String) :
    Except ResourceError Data → Prop
  | undeclared : G.typ? f = none → Meets G pending f (.error (.unknownField G.resource f))
  | ends {reply : Except ResourceError Data} : G.Ends f reply → Meets G pending f reply
  | circle {path : List String} {g : String} : (G.typ? f).isSome → G.Walk f path g →
      path.Nodup → (∀ p ∈ path, p ∉ pending) → g ∈ path ∨ g ∈ pending →
      Meets G pending f (.error (.cyclic G.resource g))

/-- The outcomes that a rule has, where reads are answered as they may be. -/
def Brings (G : FieldGraph) (pending : List String) : FieldRule → Except Failure Data → Prop
  | .constant data, outcome => outcome = .ok data
  | .failing cause, outcome => outcome = .error cause
  | .passing g context, outcome =>
    ∃ reply, G.Meets pending g reply ∧ outcome = reply.mapError (·.passedOn context)

private theorem Ends.declared {reply : Except ResourceError Data} (h : G.Ends f reply) :
    (G.typ? f).isSome := by
  obtain ⟨path, last, e, hwalk, he, -⟩ := h
  cases hwalk with
  | here =>
    by_cases hf : (G.typ? f).isSome
    · exact hf
    · rw [ending?, if_neg hf] at he
      cases he
  | on hnext => exact hnext.1

private theorem error_of_ending {data : Data} (h : G.ending? f = some (.value data)) :
    data.error = none := by
  rw [ending?] at h
  split at h
  · split at h
    · next found _ =>
      cases herror : found.error <;> rw [herror] at h <;> cases h
      exact herror
    · next cause _ => cases hcircle : cause.circle? <;> rw [hcircle] at h <;> cases h
    · split at h <;> cases h
  · cases h

private theorem circle_of_ending {e : ResourceError} (h : G.ending? f = some (.told e)) :
    ∃ name field, e = .cyclic name field := by
  rw [ending?] at h
  split at h
  · split at h
    · next found _ => cases herror : found.error <;> rw [herror] at h <;> cases h
    · next cause _ =>
      cases hcircle : cause.circle? <;> rw [hcircle] at h <;> cases h
      exact Failure.circle?_eq_some hcircle
    · split at h <;> cases h
  · cases h

/-- What is made of the outcome of a field's rule: the reply that the graph tells. -/
structure Settles (G : FieldGraph) (pending : List String) (f : String)
    (result : Except ResourceError Data) : Prop where
  ok : ∀ data, result = .ok data → ∀ id, G.Ends f (fieldResult ⟨G.resource, id⟩ f data)
  error : ∀ e, result = .error e → G.Meets pending f (.error e)

theorem settles_data {data : Data} (h : ∀ id, G.Ends f (fieldResult ⟨G.resource, id⟩ f data)) :
    G.Settles pending f (.ok data) :=
  ⟨fun _ hdata => by cases hdata; exact h, nofun⟩

private theorem settles_error {e : ResourceError} (h : G.Meets pending f (.error e)) :
    G.Settles pending f (.error e) :=
  ⟨nofun, fun _ he => by cases he; exact h⟩

theorem settles_value {data : Data} (ht : G.typ? f = some t) {path : List String} {last : String}
    {found : Data} (hwalk : G.Walk f path last) (hend : G.ending? last = some (.value found))
    (hfilled : data.filled t = found.filled t) :
    G.Settles pending f (Setting.settled t (.ok (data.filled t))) := by
  have herror := error_of_ending hend
  rw [hfilled, Setting.settled_filled herror]
  refine settles_data fun id => ⟨path, last, _, hwalk, hend, ?_⟩
  simp only [fieldResult, Data.error_filled, herror, replyAlong, ht, Option.getD_some]

theorem settles_failure {cause : Failure} (hcause : cause.circle? = none) {path : List String}
    {last : String} {message : String} (hwalk : G.Walk f path last)
    (hend : G.ending? last = some (.failure message))
    (hmessage : cause.message = G.causeAlong message path) :
    G.Settles pending f (Setting.settled t (.error cause)) := by
  simp only [Setting.settled, hcause]
  exact settles_data fun id => ⟨path, last, _, hwalk, hend, by rw [replyAlong, ← hmessage]; rfl⟩

theorem settles_circle {cause : Failure} {e : ResourceError} (hcause : cause.circle? = some e)
    (h : G.Meets pending f (.error e)) :
    G.Settles pending f (Setting.settled t (.error cause)) := by
  simp only [Setting.settled, hcause]
  exact settles_error h

private theorem settles_constant (ht : G.typ? f = some t) {data : Data}
    (hrule : G.rule f = .constant data) :
    G.Settles pending f (Setting.settled t (.ok (data.filled t))) := by
  have hdeclared : (G.typ? f).isSome := by rw [ht]; rfl
  cases herror : data.error with
  | none =>
    have hend : G.ending? f = some (.value data) := by
      simp only [ending?, hdeclared, hrule, herror, if_true, Option.elim]
    exact settles_value ht (.here f) hend rfl
  | some message =>
    have hend : G.ending? f = some (.failure message) := by
      simp only [ending?, hdeclared, hrule, herror, if_true, Option.elim]
    have hfilled : data.filled t = data := by simp [Data.filled, herror]
    simp only [hfilled, Setting.settled]
    split <;> exact settles_data fun id =>
      ⟨[], f, _, .here f, hend, by simp only [fieldResult, herror]; rfl⟩

private theorem settles_failing (ht : G.typ? f = some t) {cause : Failure}
    (hrule : G.rule f = .failing cause) :
    G.Settles pending f (Setting.settled t (.error cause)) := by
  have hdeclared : (G.typ? f).isSome := by rw [ht]; rfl
  cases hcircle : cause.circle? with
  | none =>
    have hend : G.ending? f = some (.failure cause.message) := by
      simp only [ending?, hdeclared, hrule, hcircle, if_true, Option.elim]
    exact settles_failure hcircle (.here f) hend rfl
  | some e =>
    have hend : G.ending? f = some (.told e) := by
      simp only [ending?, hdeclared, hrule, hcircle, if_true, Option.elim]
    exact settles_circle hcircle (.ends ⟨[], f, _, .here f, hend, rfl⟩)

private theorem meets_circle_of_next {path : List String} {g last : String} (hnext : G.Next f g)
    (hpending : f ∉ pending) (hwalk : G.Walk g path last) (hnodup : path.Nodup)
    (hnew : ∀ p ∈ path, p ∉ f :: pending) (hmem : last ∈ path ∨ last ∈ f :: pending) :
    G.Meets pending f (.error (.cyclic G.resource last)) := by
  -- the field itself was being computed on the way, so it is none of the fields on it
  have hf : f ∉ path := fun hf => hnew f hf List.mem_cons_self
  refine .circle hnext.1 (.on hnext hwalk) (List.nodup_cons.mpr ⟨hf, hnodup⟩) ?_ ?_
  · intro p hp
    rcases List.mem_cons.mp hp with rfl | hp
    · exact hpending
    · exact fun h => hnew p hp (List.mem_cons_of_mem _ h)
  · rcases hmem with hmem | hmem
    · exact .inl (List.mem_cons_of_mem _ hmem)
    · exact (List.mem_cons.mp hmem).imp (fun h => List.mem_cons.mpr (.inl h)) id

private theorem settles_passing (ht : G.typ? f = some t) (hpending : f ∉ pending) {g : String}
    {context : Option String} (hrule : G.rule f = .passing g context)
    {reply : Except ResourceError Data} (h : G.Meets (f :: pending) g reply) :
    G.Settles pending f
      (Setting.settled t ((reply.mapError (·.passedOn context)).map (·.filled t))) := by
  have hdeclared : (G.typ? f).isSome := by rw [ht]; rfl
  cases h with
  | undeclared hg =>
    have hend : G.ending? f =
        some (.failure ((ResourceError.unknownField G.resource g).passedOn context).message) := by
      simp only [ending?, hdeclared, hrule, hg, if_true, Option.isSome_none, Bool.false_eq_true,
        if_false]
    refine settles_failure ?_ (.here f) hend rfl
    rw [Failure.circle?_passedOn]
    rfl
  | ends hends =>
    have hnext : G.Next f g := ⟨hdeclared, hends.declared, context, hrule⟩
    obtain ⟨path, last, e, hwalk, he, rfl⟩ := hends
    cases e with
    | value data => exact settles_value ht (.on hnext hwalk) he (Data.filled_filled _ _ _)
    | failure cause =>
      refine settles_failure ?_ (.on hnext hwalk) he ?_
      · rw [Failure.circle?_passedOn]
        rfl
      · simp only [causeAlong, hrule]
    | told e =>
      obtain ⟨name, field, rfl⟩ := circle_of_ending he
      refine settles_circle (Failure.circle?_passedOn _ _) (.ends ?_)
      exact ⟨f :: path, last, _, .on hnext hwalk, he, rfl⟩
  | circle hg hwalk hnodup hnew hmem =>
    have hnext : G.Next f g := ⟨hdeclared, hg, context, hrule⟩
    exact settles_circle (Failure.circle?_passedOn _ _)
      (meets_circle_of_next hnext hpending hwalk hnodup hnew hmem)

private theorem settles_of_brings (ht : G.typ? f = some t) (hpending : f ∉ pending)
    {outcome : Except Failure Data}
    (h : G.Brings (f :: pending) (G.rule f) outcome) :
    G.Settles pending f (Setting.settled t (outcome.map (·.filled t))) := by
  cases hrule : G.rule f with
  | constant data =>
    rw [hrule] at h
    obtain rfl : outcome = .ok data := h
    exact settles_constant ht hrule
  | failing cause =>
    rw [hrule] at h
    obtain rfl : outcome = .error cause := h
    exact settles_failing ht hrule
  | passing g context =>
    rw [hrule] at h
    obtain ⟨reply, hreply, rfl⟩ := h
    exact settles_passing ht hpending hrule hreply

end FieldGraph

variable {s : Setting σ} {calls : Calls σ} {key : Key} {args : Dict Data} {provider : Provider σ}
  {rule : String → FieldRule} {pending : List String} {f : String}

structure Instance.Tracks (G : FieldGraph) (args : Dict Data) (provider : Provider σ)
    (pending : List String) (inst : Instance σ) : Prop where
  args : inst.args = args
  provider : inst.provider = some provider
  computing : inst.computing = pending
  declared : ∀ p ∈ pending, (G.typ? p).isSome
  known : ∀ f data, inst.known? f = some data →
    ∀ id, G.Ends f (fieldResult ⟨G.resource, id⟩ f data)

namespace Instance.Tracks

variable {G : FieldGraph} {inst : Instance σ}

theorem fresh : (Instance.fresh args (some provider)).Tracks G args provider [] :=
  ⟨rfl, rfl, rfl, by simp, fun _ _ h => by cases h⟩

theorem begin (h : inst.Tracks G args provider pending) (hf : (G.typ? f).isSome) :
    (inst.begin f).Tracks G args provider (f :: pending) :=
  ⟨h.args, h.provider, congrArg (f :: ·) h.computing, by simpa [hf] using h.declared, h.known⟩

private theorem finish (h : inst.Tracks G args provider (f :: pending)) (hf : f ∉ pending) :
    (inst.finish f).Tracks G args provider pending := by
  refine ⟨h.args, h.provider, ?_, fun p hp => h.declared p (List.mem_cons_of_mem _ hp), h.known⟩
  rw [Instance.finish, h.computing, List.filter_cons_of_neg (by simp), List.filter_eq_self]
  intro p hp
  simpa using fun heq : p = f => hf (heq ▸ hp)

private theorem keep (h : inst.Tracks G args provider pending) {data : Data}
    (hdata : ∀ id, G.Ends f (fieldResult ⟨G.resource, id⟩ f data)) :
    (inst.keep f data).Tracks G args provider pending := by
  refine ⟨h.args, h.provider, h.computing, h.declared, fun g found hg => ?_⟩
  rw [Instance.known?_keep] at hg
  split at hg
  · next heq =>
    cases hg
    exact heq ▸ hdata
  · exact h.known g found hg

private theorem invalidate (h : inst.Tracks G args provider pending) (f : String) :
    (inst.invalidate f).Tracks G args provider pending := by
  have hsame : (inst.invalidate f).args = inst.args ∧
      (inst.invalidate f).provider = inst.provider ∧
      (inst.invalidate f).computing = inst.computing := by
    rw [Instance.invalidate]
    split <;> exact ⟨rfl, rfl, rfl⟩
  refine ⟨hsame.1.trans h.args, hsame.2.1.trans h.provider, hsame.2.2.trans h.computing,
    h.declared, fun g found hg => ?_⟩
  rw [Instance.known?_invalidate] at hg
  split at hg
  · cases hg
  · exact h.known g found hg

end Instance.Tracks

/-- Whether a resource is there and what is known of it is as its graph tells. -/
def Session.Tracks (key : Key) (G : FieldGraph) (args : Dict Data) (provider : Provider σ)
    (pending : List String) (session : Session σ) : Prop :=
  ∃ inst, session.instance? key = some inst ∧ inst.Tracks G args provider pending

namespace Session.Tracks

variable {G : FieldGraph} {session after : Session σ}

theorem congr (h : session.Tracks key G args provider pending)
    (hsame : after.instance? key = session.instance? key) :
    after.Tracks key G args provider pending := by
  obtain ⟨inst, hinst, htracks⟩ := h
  exact ⟨inst, hsame.trans hinst, htracks⟩

theorem update_of_ne (h : session.Tracks key G args provider pending) {k : Key} (hk : key ≠ k)
    (change : Instance σ → Instance σ) :
    (session.update k change).Tracks key G args provider pending :=
  h.congr (by rw [instance?_update, if_neg hk])

private theorem adopt (h : session.Tracks key G args provider pending) (k : Key)
    (inst : Instance σ) : (session.adopt k inst).Tracks key G args provider pending := by
  obtain ⟨old, hold, htracks⟩ := h
  exact ⟨old, by rw [instance?_adopt, hold, Option.some_or], htracks⟩

theorem invalidate (h : session.Tracks key G args provider pending) (k : Key) (f : String) :
    ((session.update k (·.invalidate f)).record (.invalidated k f)).Tracks key G args provider
      pending := by
  by_cases hk : key = k
  · obtain ⟨inst, hinst, htracks⟩ := h
    refine ⟨inst.invalidate f, ?_, htracks.invalidate f⟩
    rw [instance?_record, instance?_update, if_pos hk, hinst]
    rfl
  · exact (h.update_of_ne hk (·.invalidate f)).congr rfl

theorem computing (h : session.Tracks key G args provider pending) :
    session.computing key = pending := by
  obtain ⟨inst, hinst, htracks⟩ := h
  rw [Session.computing, hinst]
  exact htracks.computing

end Session.Tracks

theorem Setting.runCommand_same (s : Setting σ) (command : String) (session : Session σ) :
    ∃ reply after, s.runCommand command session = some (reply, after) ∧
      ∀ key, after.instance? key = session.instance? key := by
  rw [Setting.runCommand]
  cases s.asset.require .runCommand with
  | error e => exact ⟨_, session, rfl, fun _ => rfl⟩
  | ok _ => exact ⟨_, _, rfl, fun _ => rfl⟩

theorem Setting.runCommand_tracks {G : FieldGraph} (command : String) :
    Keeps (Session.Tracks key G args provider pending) (s.runCommand command) fun _ => True := by
  intro session h reply after hrun
  obtain ⟨_, _, hrun', hsame⟩ := s.runCommand_same command session
  cases hrun.symm.trans hrun'
  exact ⟨h.congr (hsame key), trivial⟩

private theorem Script.Follows.perform_brings {G : FieldGraph} {r : FieldRule}
    {script : Script σ Data} (h : script.Follows key r)
    (hcalls : ∀ f, Keeps (Session.Tracks key G args provider pending) (calls.read key f)
      (G.Meets pending f)) :
    Keeps (Session.Tracks key G args provider pending) (script.perform s calls)
      (G.Brings pending r) := by
  induction h with
  | constant => exact keeps_pure rfl
  | failing => exact keeps_pure rfl
  | @passing field context next _ _ ihok iherror =>
    refine (hcalls field).bind fun reply hreply => ?_
    cases reply with
    | ok data => exact (ihok data).imp fun outcome h => ⟨.ok data, hreply, h⟩
    | error e => exact (iherror e).imp fun outcome h => ⟨.error e, hreply, h⟩
  | load _ ih => exact keeps_get fun session _ => ih session.memory
  | save _ ih => exact (keeps_modify fun _ h => h.congr rfl).bind fun _ _ => ih
  | look _ ih => exact ih s.asset
  | run _ ih => exact (Setting.runCommand_tracks _).bind fun reply _ => ih reply

namespace Setting

theorem compute_eq (hpasses : s.Passes key args provider rule) {declared : Field}
    (hdeclared : s.registry.field? key.name f = some declared) {inst : Instance σ}
    (hargs : inst.args = args) (hprovider : inst.provider = some provider)
    (session : Session σ) :
    s.compute calls key inst f declared session =
      ((provider.compute key args f).perform s calls session).map fun o =>
        (o.1.map (·.filled declared.typ), o.2) := by
  obtain ⟨hnone, himplicit⟩ := hpasses.own f declared hdeclared
  rw [compute]
  simp only [hargs, hnone, himplicit, hprovider, Bool.false_eq_true, if_false]
  cases hrun : (provider.compute key args f).perform s calls session with
  | none =>
    show Option.bind _ _ = _
    rw [hrun]
    rfl
  | some o =>
    obtain ⟨outcome, mid⟩ := o
    rw [run_bind hrun]
    cases outcome <;> rfl

theorem typ?_graph {declared : Field}
    (hdeclared : s.registry.field? key.name f = some declared) :
    (s.graph key rule).typ? f = some declared.typ := by
  simp only [graph, hdeclared, Option.map_some]

private theorem readStep_meets (hpasses : s.Passes key args provider rule)
    (hcalls : ∀ pending f, Keeps (Session.Tracks key (s.graph key rule) args provider pending)
      (calls.read key f) ((s.graph key rule).Meets pending f)) (pending : List String)
    (f : String) :
    Keeps (Session.Tracks key (s.graph key rule) args provider pending) (s.readStep calls key f)
      ((s.graph key rule).Meets pending f) := by
  intro session h reply after hrun
  obtain ⟨inst, hinst, htracks⟩ := h
  cases readStep_eq_some.mp hrun with
  | missing hnone => cases hinst.symm.trans hnone
  | answered hinst' hknown =>
    cases hinst.symm.trans hinst'
    exact ⟨⟨inst, hinst, htracks⟩, .ends (htracks.known f _ hknown key.id)⟩
  | circular hinst' _ hcomputing =>
    cases hinst.symm.trans hinst'
    rw [htracks.computing] at hcomputing
    exact ⟨⟨inst, hinst, htracks⟩, .circle (htracks.declared f hcomputing) (.here f)
      List.nodup_nil nofun (.inr hcomputing)⟩
  | undeclared hinst' _ _ hdeclared =>
    refine ⟨⟨inst, hinst, htracks⟩, .undeclared ?_⟩
    simp only [graph, hdeclared, Option.map_none]
  | @computed _ declared _ _ hinst' _ hnew hdeclared hfield =>
    cases hinst.symm.trans hinst'
    rw [htracks.computing] at hnew
    have htyp : (s.graph key rule).typ? f = some declared.typ := typ?_graph hdeclared
    obtain ⟨outcome, mid, hcompute, rfl, rfl⟩ := computeField_eq_some.mp hfield
    rw [compute_eq hpasses hdeclared htracks.args htracks.provider] at hcompute
    obtain ⟨⟨brought, mid⟩, hperform, heq⟩ := Option.map_eq_some_iff.mp hcompute
    cases heq
    have hbegun : (session.update key (·.begin f)).Tracks key (s.graph key rule) args provider
        (f :: pending) := by
      refine ⟨inst.begin f, ?_, htracks.begin (by rw [htyp]; rfl)⟩
      rw [Session.instance?_update, if_pos rfl, hinst]
      rfl
    obtain ⟨⟨there, hthere, hmid⟩, hbrings⟩ := (hpasses.follows f declared hdeclared).perform_brings
      (hcalls (f :: pending)) _ hbegun _ _ hperform
    have hsettles := FieldGraph.settles_of_brings htyp hnew hbrings
    constructor
    · rcases instance?_concluded hthere (settled declared.typ (brought.map (·.filled declared.typ)))
        with hfinished | ⟨data, hdata, hkept⟩
      · exact ⟨_, hfinished, hmid.finish hnew⟩
      · exact ⟨_, hkept, (hmid.finish hnew).keep (hsettles.ok data hdata)⟩
    · cases hresult : settled declared.typ (brought.map (·.filled declared.typ)) with
      | error e => exact hsettles.error e hresult
      | ok data => exact .ends (hsettles.ok data hresult key.id)

end Setting

/-- Whether requests keep what is known of a resource as its graph tells, and answer reads of it as
that does. -/
structure Calls.Track (key : Key) (G : FieldGraph) (args : Dict Data) (provider : Provider σ)
    (calls : Calls σ) : Prop where
  own : ∀ pending f, Keeps (Session.Tracks key G args provider pending) (calls.read key f)
    (G.Meets pending f)
  read : ∀ k f, Keeps (Session.Tracks key G args provider []) (calls.read k f) fun _ => True
  create : ∀ name given,
    Keeps (Session.Tracks key G args provider []) (calls.create name given) fun _ => True

theorem Script.perform_tracks {G : FieldGraph} (hcalls : calls.Track key G args provider)
    (script : Script σ α) :
    Keeps (Session.Tracks key G args provider []) (script.perform s calls) fun _ => True := by
  induction script with
  | done a => exact keeps_pure trivial
  | fail cause => exact keeps_pure trivial
  | load next ih => exact keeps_get fun session _ => ih session.memory
  | save memory next ih => exact (keeps_modify fun _ h => h.congr rfl).bind fun _ _ => ih
  | look next ih => exact ih s.asset
  | run command next ih => exact (Setting.runCommand_tracks _).bind fun reply _ => ih reply
  | read k field next ih => exact (hcalls.read k field).bind fun reply _ => ih reply
  | create name given next ih => exact (hcalls.create name given).bind fun reply _ => ih reply
  | invalidate k field next ih =>
    exact (keeps_modify fun _ h => h.invalidate k field).bind fun _ _ => ih

namespace Setting

private theorem compute_tracks {G : FieldGraph} (hcalls : calls.Track key G args provider) (k : Key)
    (inst : Instance σ) (name : String) (declared : Field) :
    Keeps (Session.Tracks key G args provider []) (s.compute calls k inst name declared)
      fun _ => True := by
  rw [compute]
  split
  · exact keeps_pure trivial
  · split
    · refine (hcalls.create _ _).bind fun reply _ => ?_
      cases reply <;> exact keeps_pure trivial
    · split
      · exact keeps_pure trivial
      · refine (Script.perform_tracks hcalls _).bind fun reply _ => ?_
        cases reply <;> exact keeps_pure trivial

private theorem readStep_tracks {G : FieldGraph} (hcalls : calls.Track key G args provider)
    {k : Key} (hk : key ≠ k) (name : String) :
    Keeps (Session.Tracks key G args provider []) (s.readStep calls k name) fun _ => True := by
  intro session h reply after hrun
  refine ⟨?_, trivial⟩
  cases readStep_eq_some.mp hrun with
  | missing => exact h
  | answered => exact h.congr rfl
  | circular => exact h
  | undeclared => exact h
  | computed _ _ _ _ hfield =>
    obtain ⟨outcome, mid, hcompute, rfl, rfl⟩ := computeField_eq_some.mp hfield
    have hmid := (compute_tracks hcalls k _ name _ _ (h.update_of_ne hk _) _ _ hcompute).1
    exact hmid.congr (instance?_concluded_of_ne hk _ _)

private theorem createStep_tracks {G : FieldGraph} (hcalls : calls.Track key G args provider)
    (name : String) (given : Dict Data) :
    Keeps (Session.Tracks key G args provider []) (s.createStep calls name given)
      fun _ => True := by
  rw [createStep]
  split
  · exact keeps_pure trivial
  · next entry _ =>
    have hconstruct : Keeps (Session.Tracks key G args provider [])
        (s.construct calls entry.factory given) fun _ => True := by
      cases entry.factory with
      | none => exact keeps_pure trivial
      | some factory => exact Script.perform_tracks hcalls _
    refine hconstruct.bind fun reply _ => ?_
    split
    · exact keeps_pure trivial
    · split
      · exact keeps_pure trivial
      · exact (keeps_modify fun _ h => h.adopt _ _).bind fun _ _ => keeps_pure trivial

theorem calls_track (hpasses : s.Passes key args provider rule) (depth : Nat) :
    (s.calls depth).Track key (s.graph key rule) args provider := by
  induction depth with
  | zero => exact ⟨fun _ _ => nofun, fun _ _ => nofun, fun _ _ => nofun⟩
  | succ depth ih =>
    have hown := readStep_meets hpasses ih.own
    refine ⟨hown, fun k f => ?_, createStep_tracks ih⟩
    by_cases hk : key = k
    · exact hk ▸ (hown [] f).imp fun _ _ => trivial
    · exact readStep_tracks ih hk f

theorem operateAll_tracks (hpasses : s.Passes key args provider rule)
    (operations : List Operation) :
    Keeps (Session.Tracks key (s.graph key rule) args provider []) (s.operateAll operations)
      fun _ => True := by
  have hcalls := calls_track hpasses (s.nesting + 1)
  induction operations with
  | nil => exact keeps_pure trivial
  | cons operation rest ih =>
    have hfirst : Keeps (Session.Tracks key (s.graph key rule) args provider [])
        (s.operate operation) fun _ => True := by
      cases operation with
      | create name given => exact (hcalls.create name given).bind fun _ _ => keeps_pure trivial
      | read k field => exact (hcalls.read k field).bind fun _ _ => keeps_pure trivial
      | invalidate k field => exact keeps_modify fun _ h => h.invalidate k field
    exact hfirst.bind fun _ _ => ih

end Setting

end AssetQuery
