import AssetQuery.Proofs.Entries
import AssetQuery.Proofs.Session.Computations
import AssetQuery.Proofs.Session.Step

/-!
# Resources in their places

A resource stands under the key that its arguments and its provider give, and is made of arguments
that its declaration takes. Once it is there it stays: no request takes it away or puts another in
its place, and what is known of a field changes only where the field is computed or invalidated. All
of this holds however the scripts of factories and providers make requests of their own.
-/

namespace AssetQuery

variable {σ α F : Type}

theorem argsFault?_eq_none_iff {info : ResourceInfo} {args : Dict Data} :
    argsFault? info args = none ↔
      (∀ name ∈ args.keys, info.fields.contains name) ∧
        ∀ e ∈ info.fields.entries, e.2.isMandatory → args.contains e.1 := by
  rw [argsFault?]
  cases hmissing : info.fields.entries.find? fun e => e.2.isMandatory && !args.contains e.1 with
  | some e =>
    have hfound := List.find?_some hmissing
    refine ⟨nofun, fun h => ?_⟩
    simp [h.2 e (List.mem_of_find?_eq_some hmissing) (Bool.and_eq_true_iff.mp hfound).1] at hfound
  | none =>
    have hall := List.find?_eq_none.mp hmissing
    simp only [Option.map_eq_none_iff, List.find?_eq_none]
    refine ⟨fun h => ⟨fun name hname => by simpa using h name hname, fun e he hmandatory => ?_⟩,
      fun h name hname => by simpa using h.1 name hname⟩
    simpa [hmandatory] using hall e he

/-- Whether a resource is in its place: its key is the one that its arguments and its provider give,
and its declaration takes the arguments. -/
structure Instance.Placed (registry : Registry F) (key : Key) (inst : Instance σ) : Prop where
  id : key.id = Setting.idOf key.name inst.args inst.provider
  declared : ∃ entry, registry.resource? key.name = some entry ∧
    (∀ name ∈ inst.args.keys, entry.info.fields.contains name) ∧
    ∀ e ∈ entry.info.fields.entries, e.2.isMandatory → inst.args.contains e.1

/-- Whether an event says that what is known of a field may have changed. -/
def Event.touches (key : Key) (field : String) : Event → Bool
  | .computed k f _ | .invalidated k f => k = key ∧ f = field
  | _ => false

/-- Whether a resource is the one that it was before some events. -/
structure Instance.Lasts (key : Key) (inst later : Instance σ) (events : List Event) : Prop where
  args : later.args = inst.args
  provider : later.provider = inst.provider
  computing : later.computing = inst.computing
  cache : ∀ field, (∀ e ∈ events, e.touches key field = false) →
    later.cache.find? field = inst.cache.find? field

namespace Instance.Lasts

variable {key : Key} {inst later : Instance σ} {events : List Event} {name : String}

private theorem more (h : inst.Lasts key later events) (event : Event) :
    inst.Lasts key later (event :: events) :=
  ⟨h.args, h.provider, h.computing, fun field huntouched =>
    h.cache field (List.forall_mem_cons.mp huntouched).2⟩

private theorem finish (h : (inst.begin name).Lasts key later events)
    (hnew : name ∉ inst.computing) : inst.Lasts key (later.finish name) events := by
  refine ⟨h.args, h.provider, ?_, h.cache⟩
  have hkeep : inst.computing.filter (· ≠ name) = inst.computing :=
    List.filter_eq_self.mpr fun field hfield => decide_eq_true fun heq => hnew (heq ▸ hfield)
  rw [Instance.finish, h.computing, Instance.begin]
  simpa using hkeep

private theorem keep {outcome : Option Data}
    (h : inst.Lasts key later (.computed key name outcome :: events)) (data : Data) :
    inst.Lasts key (later.keep name data) (.computed key name outcome :: events) := by
  refine ⟨h.args, h.provider, h.computing, fun field huntouched => ?_⟩
  have hne : field ≠ name := by
    rintro rfl
    simpa [Event.touches] using huntouched _ List.mem_cons_self
  rw [Instance.keep, Dict.find?_insert, if_neg hne]
  exact h.cache field huntouched

end Instance.Lasts

namespace Session

variable {registry : Registry F} {base session mid after : Session σ} {key : Key}
  {inst : Instance σ} {f : Instance σ → Instance σ}

/-- Whether every resource is in its place, and no two are in the same. -/
structure Placed (registry : Registry F) (session : Session σ) : Prop where
  distinct : Table.Distinct session.instances
  placed : ∀ e ∈ session.instances, e.2.Placed registry e.1

/-- Whether all resources of a session are still there after more was done. -/
def Lasts (session after : Session σ) : Prop :=
  ∃ events, after.journal = events ++ session.journal ∧
    ∀ key inst, session.instance? key = some inst →
      ∃ later, after.instance? key = some later ∧ inst.Lasts key later events

private theorem placed_new (memory : σ) : (Session.new memory).Placed registry :=
  ⟨List.Pairwise.nil, nofun⟩

theorem Placed.of_instances_eq (h : session.Placed registry)
    (hsame : after.instances = session.instances) : after.Placed registry :=
  ⟨hsame ▸ h.distinct, hsame ▸ h.placed⟩

theorem Placed.update (h : session.Placed registry)
    (hargs : ∀ inst, (f inst).args = inst.args)
    (hprovider : ∀ inst, (f inst).provider = inst.provider) :
    (session.update key f).Placed registry := by
  have hplaced : ∀ {k : Key} {inst : Instance σ}, inst.Placed registry k →
      (f inst).Placed registry k := by
    intro k inst hinst
    refine ⟨?_, ?_⟩
    · rw [hargs, hprovider]
      exact hinst.id
    · rw [hargs]
      exact hinst.declared
  constructor
  · have hkey : ∀ e : Key × Instance σ, (if e.1 = key then (e.1, f e.2) else e).1 = e.1 := by
      intro e
      split <;> rfl
    simp only [Session.update, Table.Distinct, List.pairwise_map, hkey]
    exact h.distinct
  · intro e he
    obtain ⟨old, hold, rfl⟩ := List.mem_map.mp he
    have hold := h.placed old hold
    by_cases hkey : old.1 = key
    · rw [if_pos hkey]
      exact hplaced hold
    · rw [if_neg hkey]
      exact hold

private theorem instances_adopt_of_none (h : session.instance? key = none) (inst : Instance σ) :
    (session.adopt key inst).instances = session.instances ++ [(key, inst)] := by
  rw [adopt, if_neg (by simp [h])]

theorem adopt_of_instance (h : session.instance? key = some inst) (other : Instance σ) :
    session.adopt key other = session := by
  rw [adopt, if_pos (by simp [h])]

private theorem Placed.adopt (h : session.Placed registry) (hinst : inst.Placed registry key) :
    (session.adopt key inst).Placed registry := by
  cases hold : session.instance? key with
  | some old =>
    rw [adopt_of_instance hold]
    exact h
  | none =>
    have hnew : ∀ e ∈ session.instances, e.1 ≠ key := by
      rintro ⟨k, found⟩ he rfl
      have hnone := List.lookup_eq_none_iff.mp hold _ he
      simp at hnone
    constructor
    · rw [instances_adopt_of_none hold]
      refine List.pairwise_append.mpr ⟨h.distinct, List.pairwise_singleton _ _, ?_⟩
      intro a ha b hb
      rw [List.mem_singleton.mp hb]
      exact hnew a ha
    · rw [instances_adopt_of_none hold]
      intro e he
      rcases List.mem_append.mp he with he | he
      · exact h.placed e he
      · rw [List.mem_singleton.mp he]
        exact hinst

namespace Lasts

theorem refl (session : Session σ) : session.Lasts session :=
  ⟨[], rfl, fun _ inst hinst => ⟨inst, hinst, rfl, rfl, rfl, fun _ _ => rfl⟩⟩

theorem trans (h : session.Lasts mid) (h' : mid.Lasts after) : session.Lasts after := by
  obtain ⟨events, hjournal, hlasts⟩ := h
  obtain ⟨events', hjournal', hlasts'⟩ := h'
  refine ⟨events' ++ events, by rw [hjournal', hjournal, List.append_assoc], ?_⟩
  intro key inst hinst
  obtain ⟨there, hthere, hfirst⟩ := hlasts key inst hinst
  obtain ⟨later, hlater, hsecond⟩ := hlasts' key there hthere
  refine ⟨later, hlater, hsecond.args.trans hfirst.args, hsecond.provider.trans hfirst.provider,
    hsecond.computing.trans hfirst.computing, fun field huntouched => ?_⟩
  obtain ⟨hlate, hearly⟩ := List.forall_mem_append.mp huntouched
  exact (hsecond.cache field hlate).trans (hfirst.cache field hearly)

theorem of_instances_eq (hsame : after.instances = session.instances) (events : List Event)
    (hjournal : after.journal = events ++ session.journal) : session.Lasts after := by
  refine ⟨events, hjournal, fun key inst hinst => ⟨inst, ?_, rfl, rfl, rfl, fun _ _ => rfl⟩⟩
  rw [instance?, hsame]
  exact hinst

private theorem adopt (session : Session σ) (key : Key) (inst : Instance σ) :
    session.Lasts (session.adopt key inst) := by
  refine ⟨[], journal_adopt inst, fun k old hold => ⟨old, ?_, rfl, rfl, rfl, fun _ _ => rfl⟩⟩
  rw [instance?_adopt, hold]
  rfl

private theorem invalidate (session : Session σ) (key : Key) (field : String) :
    session.Lasts ((session.update key (·.invalidate field)).record (.invalidated key field)) := by
  refine ⟨[.invalidated key field], rfl, fun k inst hinst => ?_⟩
  rw [instance?_record, instance?_update, hinst]
  by_cases hk : k = key
  · refine ⟨inst.invalidate field, by rw [if_pos hk]; rfl, ?_⟩
    rw [Instance.invalidate]
    cases hentry : inst.cache.find? field with
    | none => exact ⟨rfl, rfl, rfl, fun _ _ => rfl⟩
    | some entry =>
      refine ⟨rfl, rfl, rfl, fun other huntouched => ?_⟩
      have hne : other ≠ field := by
        rintro rfl
        simpa [Event.touches, hk] using huntouched _ (List.mem_singleton_self _)
      rw [Dict.find?_insert, if_neg hne]
  · exact ⟨inst, by rw [if_neg hk], rfl, rfl, rfl, fun _ _ => rfl⟩

private theorem journal_concluded (s : Setting σ) (key : Key) (name : String) (mid : Session σ)
    (result : Except ResourceError Data) : ∃ outcome,
      (s.concluded key name mid result).journal = .computed key name outcome :: mid.journal := by
  cases result with
  | error e => exact ⟨none, rfl⟩
  | ok data =>
    refine ⟨some data, ?_⟩
    simp only [Setting.concluded]
    split <;> rfl

/-- Once a field was computed that was not being computed before, its resource is as it was but for
what is known of that field. -/
private theorem concluded {s : Setting σ} {name : String}
    (h : (session.update key (·.begin name)).Lasts mid)
    (hinst : session.instance? key = some inst) (hnew : name ∉ inst.computing)
    (result : Except ResourceError Data) :
    session.Lasts (s.concluded key name mid result) := by
  obtain ⟨events, hjournal, hlasts⟩ := h
  obtain ⟨outcome, hafter⟩ := journal_concluded s key name mid result
  refine ⟨.computed key name outcome :: events, by rw [hafter, hjournal]; rfl,
    fun k found hfound => ?_⟩
  by_cases hk : k = key
  · subst hk
    cases hinst.symm.trans hfound
    have hbegun : (session.update k (·.begin name)).instance? k = some (inst.begin name) := by
      rw [instance?_update, if_pos rfl, hinst]
      rfl
    obtain ⟨there, hthere, hlast⟩ := hlasts k _ hbegun
    have hfinish := (hlast.finish hnew).more (.computed k name outcome)
    rcases Setting.instance?_concluded hthere result with hlater | ⟨data, -, hlater⟩
    · exact ⟨_, hlater, hfinish⟩
    · exact ⟨_, hlater, hfinish.keep data⟩
  · have hbegun : (session.update key (·.begin name)).instance? k = some found := by
      rw [instance?_update, if_neg hk, hfound]
    obtain ⟨later, hlater, hlast⟩ := hlasts k found hbegun
    refine ⟨later, ?_, hlast.more _⟩
    rw [Setting.instance?_concluded_of_ne hk]
    exact hlater

end Lasts

/-- Whether a session, all resources of which are in their places, is what became of another. -/
def Descends (registry : Registry F) (base session : Session σ) : Prop :=
  session.Placed registry ∧ base.Lasts session

end Session

open Work (Keeps keeps_pure keeps_modify keeps_get)

structure Calls.Descend (registry : Registry F) (calls : Calls σ) : Prop where
  read : ∀ base key field,
    Keeps (Session.Descends registry base) (calls.read key field) fun _ => True
  create : ∀ base name args,
    Keeps (Session.Descends registry base) (calls.create name args) fun _ => True

variable {s : Setting σ} {calls : Calls σ}

theorem Setting.invalidate_descends (base : Session σ) (key : Key) (field : String) :
    Keeps (Session.Descends s.registry base) (s.invalidate key field) fun _ => True := by
  refine keeps_modify fun session h => ⟨?_, h.2.trans (.invalidate session key field)⟩
  have hupdated : (session.update key (·.invalidate field)).Placed s.registry := by
    refine h.1.update (fun inst => ?_) fun inst => ?_
    · rw [Instance.invalidate]
      split <;> rfl
    · rw [Instance.invalidate]
      split <;> rfl
  exact hupdated.of_instances_eq rfl

theorem Script.perform_descends (hcalls : calls.Descend s.registry) (base : Session σ)
    (script : Script σ α) :
    Keeps (Session.Descends s.registry base) (script.perform s calls) fun _ => True := by
  induction script with
  | done a => exact keeps_pure trivial
  | fail cause => exact keeps_pure trivial
  | load next ih => exact keeps_get fun session _ => ih session.memory
  | save memory next ih =>
    refine (keeps_modify fun session h => ?_).bind fun _ _ => ih
    exact ⟨h.1.of_instances_eq rfl, h.2.trans (.of_instances_eq rfl [] rfl)⟩
  | look next ih => exact ih s.asset
  | run command next ih =>
    have hrun : Keeps (Session.Descends s.registry base) (s.runCommand command) fun _ => True := by
      rw [Setting.runCommand]
      split
      · exact keeps_pure trivial
      · refine (keeps_modify fun session h => ?_).bind fun _ _ => keeps_pure trivial
        exact ⟨h.1.of_instances_eq rfl, h.2.trans (.of_instances_eq rfl [_] rfl)⟩
    exact hrun.bind fun reply _ => ih reply
  | read key field next ih => exact (hcalls.read base key field).bind fun reply _ => ih reply
  | create name args next ih => exact (hcalls.create base name args).bind fun reply _ => ih reply
  | invalidate key field next ih =>
    exact (Setting.invalidate_descends base key field).bind fun _ _ => ih

namespace Setting

private theorem compute_descends (hcalls : calls.Descend s.registry) (base : Session σ) (key : Key)
    (inst : Instance σ) (name : String) (declared : Field) :
    Keeps (Session.Descends s.registry base) (s.compute calls key inst name declared)
      fun _ => True := by
  rw [compute]
  split
  · exact keeps_pure trivial
  · split
    · refine (hcalls.create base _ _).bind fun reply _ => ?_
      cases reply <;> exact keeps_pure trivial
    · split
      · exact keeps_pure trivial
      · refine (Script.perform_descends hcalls base _).bind fun outcome _ => ?_
        cases outcome <;> exact keeps_pure trivial

private theorem placed_concluded {session : Session σ} (h : session.Placed s.registry) (key : Key)
    (name : String) (result : Except ResourceError Data) :
    (s.concluded key name session result).Placed s.registry := by
  have hfinished : (session.update key (·.finish name)).Placed s.registry :=
    h.update (fun _ => rfl) fun _ => rfl
  cases result with
  | error e => exact hfinished.of_instances_eq rfl
  | ok data =>
    have hrecorded : ((session.update key (·.finish name)).record
        (.computed key name (some data))).Placed s.registry := hfinished.of_instances_eq rfl
    simp only [concluded]
    split
    · exact hrecorded.update (fun _ => rfl) fun _ => rfl
    · exact hrecorded

private theorem readStep_descends (hcalls : calls.Descend s.registry) (base : Session σ) (key : Key)
    (name : String) :
    Keeps (Session.Descends s.registry base) (s.readStep calls key name) fun _ => True := by
  intro session h reply after hrun
  refine ⟨?_, trivial⟩
  cases readStep_eq_some.mp hrun with
  | missing => exact h
  | answered =>
    exact ⟨h.1.of_instances_eq rfl, h.2.trans (.of_instances_eq rfl [_] rfl)⟩
  | circular => exact h
  | undeclared => exact h
  | @computed inst declared _ _ hinst _ hnew _ hfield =>
    obtain ⟨outcome, mid, hcompute, _, rfl⟩ := computeField_eq_some.mp hfield
    -- What becomes of the resource while its field is computed is told from where that began.
    have hbegun : (session.update key (·.begin name)).Descends s.registry
        (session.update key (·.begin name)) :=
      ⟨h.1.update (fun _ => rfl) fun _ => rfl, .refl _⟩
    obtain ⟨⟨hplaced, hlasts⟩, _⟩ :=
      compute_descends hcalls _ key inst name declared _ hbegun _ _ hcompute
    exact ⟨placed_concluded hplaced key name _, h.2.trans (hlasts.concluded hinst hnew _)⟩

theorem construct_descends (hcalls : calls.Descend s.registry) (base : Session σ)
    (factory : Option (Factory σ)) (args : Dict Data) :
    Keeps (Session.Descends s.registry base) (s.construct calls factory args) fun _ => True := by
  cases factory with
  | none => exact keeps_pure trivial
  | some factory => exact Script.perform_descends hcalls base _

private theorem createStep_descends (hcalls : calls.Descend s.registry) (base : Session σ)
    (name : String) (args : Dict Data) :
    Keeps (Session.Descends s.registry base) (s.createStep calls name args) fun _ => True := by
  intro session h reply after hrun
  refine ⟨?_, trivial⟩
  have hmid {factory outcome mid} (hconstruct : s.construct calls factory args session =
      some (outcome, mid)) : Session.Descends s.registry base mid :=
    (construct_descends hcalls base factory args session h _ _ hconstruct).1
  cases creates_of_createStep hrun with
  | undeclared => exact h
  | failed _ hconstruct => exact hmid hconstruct
  | refused _ hconstruct => exact hmid hconstruct
  | adopted hentry hconstruct hfault =>
    obtain ⟨hplaced, hlasts⟩ := hmid hconstruct
    exact ⟨hplaced.adopt ⟨rfl, _, hentry, argsFault?_eq_none_iff.mp hfault⟩,
      hlasts.trans (.adopt _ _ _)⟩

theorem calls_descend (depth : Nat) : (s.calls depth).Descend s.registry := by
  induction depth with
  | zero => exact ⟨fun _ _ _ => nofun, fun _ _ _ => nofun⟩
  | succ depth ih => exact ⟨readStep_descends ih, createStep_descends ih⟩

private theorem operateAll_descends (operations : List Operation) (base : Session σ) :
    Keeps (Session.Descends s.registry base) (s.operateAll operations) fun _ => True := by
  induction operations with
  | nil => exact keeps_pure trivial
  | cons operation rest ih =>
    have hcalls : (s.calls (s.nesting + 1)).Descend s.registry := calls_descend _
    have hfirst : Keeps (Session.Descends s.registry base) (s.operate operation) fun _ => True := by
      cases operation with
      | create name args => exact (hcalls.create base name args).bind fun _ _ => keeps_pure trivial
      | read key field => exact (hcalls.read base key field).bind fun _ _ => keeps_pure trivial
      | invalidate key field => exact invalidate_descends base key field
    exact hfirst.bind fun _ _ => ih

end Setting

/-- Whether a script does nothing but look at what is there. -/
def Script.Quiet : Script σ α → Prop
  | done _ | fail _ => True
  | load next => ∀ memory, (next memory).Quiet
  | look next => ∀ asset, (next asset).Quiet
  | save .. | run .. | read .. | create .. | invalidate .. => False

private theorem Script.Quiet.perform {script : Script σ α} (h : script.Quiet)
    (session : Session σ) :
    ∃ outcome, script.perform s calls session = some (outcome, session) := by
  induction script with
  | done a => exact ⟨.ok a, rfl⟩
  | fail cause => exact ⟨.error cause, rfl⟩
  | load next ih => exact ih session.memory (h session.memory)
  | look next ih => exact ih s.asset (h s.asset)
  | save | run | read | create | invalidate => exact h.elim

namespace Setting

/-- The session that the factory of a resource leaves, where its requests may nest to some depth. -/
def prepared (s : Setting σ) (depth : Nat) (name : String) (args : Dict Data)
    (session : Session σ) : Option (Session σ) :=
  match s.registry.resource? name with
  | none => some session
  | some entry => (s.construct (s.calls depth) entry.factory args session).map (·.2)

/-- What becomes of the session that the factory of a resource leaves: it stays as it is, unless a
resource is added under a key that is free. -/
inductive Adds (s : Setting σ) (name : String) (mid : Session σ) :
    Except ResourceError Key → Session σ → Prop
  | failed (e : ResourceError) : Adds s name mid (.error e) mid
  | found {key : Key} {inst : Instance σ} : key.name = name → mid.instance? key = some inst →
    Adds s name mid (.ok key) mid
  | added {key : Key} {inst : Instance σ} : key.name = name → mid.instance? key = none →
    inst.Placed s.registry key → inst.cache = .empty → inst.computing = [] →
    Adds s name mid (.ok key) { mid with instances := mid.instances ++ [(key, inst)] }

variable {depth : Nat} {name : String} {args : Dict Data} {session after : Session σ}
  {reply : Except ResourceError Key}

private theorem exists_adds_of_create
    (hrun : (s.calls (depth + 1)).create name args session = some (reply, after)) :
    ∃ mid, s.prepared depth name args session = some mid ∧ s.Adds name mid reply after := by
  have hmid {entry : ResourceEntry (Factory σ)} {outcome mid}
      (hentry : s.registry.resource? name = some entry)
      (hconstruct : s.construct (s.calls depth) entry.factory args session = some (outcome, mid)) :
      s.prepared depth name args session = some mid := by
    simp only [prepared, hentry, hconstruct, Option.map_some]
  cases creates_of_createStep hrun with
  | undeclared hentry => exact ⟨session, by simp only [prepared, hentry], .failed _⟩
  | failed hentry hconstruct => exact ⟨_, hmid hentry hconstruct, .failed _⟩
  | refused hentry hconstruct => exact ⟨_, hmid hentry hconstruct, .failed _⟩
  | @adopted entry made provider mid hentry hconstruct hfault =>
    refine ⟨mid, hmid hentry hconstruct, ?_⟩
    cases hold : mid.instance? ⟨name, idOf name made provider⟩ with
    | some inst =>
      rw [Session.adopt_of_instance hold]
      exact .found rfl hold
    | none =>
      have hplaced : (Instance.fresh made provider).Placed s.registry
          ⟨name, idOf name made provider⟩ := ⟨rfl, entry, hentry, argsFault?_eq_none_iff.mp hfault⟩
      rw [Session.adopt, if_neg (by simp [hold])]
      exact .added rfl hold hplaced rfl rfl

private theorem descends_of_prepared {base mid : Session σ}
    (hprepared : s.prepared depth name args session = some mid)
    (h : Session.Descends s.registry base session) : Session.Descends s.registry base mid := by
  rw [prepared] at hprepared
  split at hprepared
  · cases hprepared
    exact h
  · obtain ⟨⟨outcome, _⟩, hconstruct, rfl⟩ := Option.map_eq_some_iff.mp hprepared
    exact (construct_descends (calls_descend depth) base _ args session h _ _ hconstruct).1

private theorem prepared_of_quiet
    (hquiet : ∀ entry factory, s.registry.resource? name = some entry →
      entry.factory = some factory → (factory args).Quiet) :
    s.prepared depth name args session = some session := by
  rw [prepared]
  cases hentry : s.registry.resource? name with
  | none => rfl
  | some entry =>
    dsimp only
    cases hfactory : entry.factory with
    | none => rfl
    | some factory =>
      have hperform : ∃ outcome, (factory args).perform s (s.calls depth) session =
          some (outcome, session) := (hquiet entry factory hentry hfactory).perform session
      obtain ⟨outcome, hrun⟩ := hperform
      rw [construct, hrun]
      rfl

/-- Requests from outside lead to sessions in which every resource is in its place, and stays there
whatever is requested later. The creation of a resource in such a session, from outside or by a
script, does no more to what its factory leaves than to add a resource under a free key; one that
fails adds none, and one that finds its key taken hands out what is there. A factory that only looks
leaves the session as it is. -/
theorem operateAll_placed {operations : List Operation} {memory : σ}
    (hrun : s.operateAll operations (.new memory) = some ((), session)) :
    session.Placed s.registry ∧
    (∀ more after, s.operateAll more session = some ((), after) → session.Lasts after) ∧
    ∀ depth name args before reply after, before.Placed s.registry →
      (s.calls (depth + 1)).create name args before = some (reply, after) →
      after.Placed s.registry ∧ before.Lasts after ∧
      ∃ mid, s.prepared depth name args before = some mid ∧ before.Lasts mid ∧
        s.Adds name mid reply after ∧
        ((∀ entry factory, s.registry.resource? name = some entry →
          entry.factory = some factory → (factory args).Quiet) → mid = before) := by
  have hnew : Session.Descends s.registry (.new memory) (.new memory) :=
    ⟨Session.placed_new memory, .refl _⟩
  have hplaced := (operateAll_descends operations _ _ hnew _ _ hrun).1.1
  refine ⟨hplaced, fun more after hmore => ?_, ?_⟩
  · exact (operateAll_descends more session session ⟨hplaced, .refl _⟩ _ _ hmore).1.2
  · intro depth name args before reply after hbefore hcreate
    have hsame : Session.Descends s.registry before before := ⟨hbefore, .refl _⟩
    obtain ⟨mid, hprepared, hadds⟩ := exists_adds_of_create hcreate
    have hafter := ((calls_descend (depth + 1)).create before name args before hsame _ _ hcreate).1
    refine ⟨hafter.1, hafter.2, mid, hprepared, (descends_of_prepared hprepared hsame).2, hadds,
      fun hquiet => ?_⟩
    rw [prepared_of_quiet hquiet] at hprepared
    exact (Option.some.inj hprepared).symm

def roomInfo : ResourceInfo :=
  { ResourceInfo.plain "room" with
    fields := .ofList [("name", { Field.plain "name" .string with isMandatory := true }),
      ("size", .plain "size" .int)] }

def houseInfo : ResourceInfo :=
  { ResourceInfo.plain "house" with
    fields := .ofList [("owner", { Field.plain "owner" .string with isMandatory := true })] }

/-- A room is as large as the one below it, which comes to be where it is asked for its size. -/
def roomProvider : Provider Unit where
  id _ := none
  compute _ _ _ :=
    .create "room" (Dict.empty.insert "name" (.string "cellar")) fun _ => .done (.int 3)

/-- A house has a hall. It is not told who asked for it, but who owns it. -/
def houseFactory : Factory Unit := fun args =>
  .create "room" (Dict.empty.insert "name" (.string "hall")) fun
    | .ok hall => .read hall "size" fun _ =>
      .done ((args.erase "asker").insert "owner" (.string "ann"), none)
    | .error e => .fail (.resource e)

def estateSetting : Setting Unit where
  registry := ((Registry.empty.addResource roomInfo).bind fun r =>
    (r.addResource houseInfo).bind fun r =>
      (r.addFactory "house" houseFactory).bind
        (·.addFactory "room" fun args => .done (args, some roomProvider))).toOption.getD .empty
  asset := default
  config := .default

/-- Two houses that are the same, one with a door, which houses do not have, and a room without a
name. -/
def estateOperations : List Operation :=
  [.create "house" (Dict.empty.insert "asker" (.string "bob")), .create "house" .empty,
    .create "house" (Dict.empty.insert "door" (.int 1)), .create "room" .empty]

theorem operateAll_placed_estateOperations :
    ∃ session, estateSetting.operateAll estateOperations (.new ()) = some ((), session) ∧
      session.instances.map (·.1) =
        [⟨"room", "room(name=\"hall\")"⟩, ⟨"room", "room(name=\"cellar\")"⟩,
          ⟨"house", "house(owner=\"ann\")"⟩] ∧
      session.Placed estateSetting.registry := by
  have hlast : (estateSetting.operateAll estateOperations (.new ())).map
      (fun o => o.2.instances.map (·.1)) =
        some [⟨"room", "room(name=\"hall\")"⟩, ⟨"room", "room(name=\"cellar\")"⟩,
          ⟨"house", "house(owner=\"ann\")"⟩] := by
    decide +kernel
  obtain ⟨⟨⟨⟩, session⟩, hrun, hkeys⟩ := Option.map_eq_some_iff.mp hlast
  exact ⟨session, hrun, hkeys, (operateAll_placed hrun).1⟩

end Setting

end AssetQuery
