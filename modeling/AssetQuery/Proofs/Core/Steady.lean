import AssetQuery.Proofs.Core.Outcome

/-!
# The core resources are steady

Whatever was asked of a session before, a field of a core resource is read as what its outcome is,
and resources are created of the same arguments.
-/

namespace AssetQuery

private theorem Instance.finish_begin {σ : Type} {inst : Instance σ} (h : inst.computing = [])
    (field : String) : (inst.begin field).finish field = inst := by
  obtain ⟨args, provider, cache, computing⟩ := inst
  obtain rfl : computing = [] := h
  simp [begin, finish]

namespace Core

variable {τ : Type}

theorem registry_field_plain {name field : String} {declared : Field}
    (h : (registry : Registry (Factory (Memory τ))).field? name field = some declared) :
    declared.isImplicit = false := by
  have hall : ∀ info ∈ [commandInfo.completed, fileInfo.completed, platformInfo.completed],
      ∀ f ∈ info.fields.entries, f.2.isImplicit = false := by decide
  obtain ⟨entry, hentry, hfield⟩ := Option.bind_eq_some_iff.mp h
  have hinfo := List.mem_map_of_mem (f := fun e => e.2.info) (mem_registry hentry)
  exact hall entry.info hinfo _ (Table.mem_of_lookup hfield)

/-- Whether no field of a resource is being computed, and what is known of its fields is what would
be found out again. -/
structure Settled (s : Setting (Memory τ)) (key : Key) (inst : Instance (Memory τ)) : Prop where
  computing : inst.computing = []
  known : ∀ field data, inst.known? field = some data →
    ∃ declared, s.registry.field? key.name field = some declared ∧
      kept s.asset key.name inst.args field declared = .ok data

/-- Whether what is known in a session is what would be found out again, and only resources that are
there are arguments of others. -/
structure Steady (s : Setting (Memory τ)) (slotOf : Key → Nat) (session : Session (Memory τ)) :
    Prop where
  slots : Slotted slotOf session
  recalls : Recalls s.asset slotOf session
  settled : ∀ key inst, session.instance? key = some inst → Settled s key inst
  resources : ∀ key args, session.args? key = some args → args.Refers session.Has

/-- Whether a session is steady and has the resources of another. -/
structure Stays (s : Setting (Memory τ)) (slotOf : Key → Nat) (session after : Session (Memory τ)) :
    Prop where
  steady : Steady s slotOf after
  args : after.args? = session.args?

section Sessions

variable {s : Setting (Memory τ)} {slotOf : Key → Nat} {calls : Calls (Memory τ)}
  {session mid after : Session (Memory τ)} {key : Key} {args : Dict Data}
  {inst : Instance (Memory τ)} {field : String} {declared : Field} {data : Data}

theorem steady_new (rest : τ) : Steady s slotOf (.new ⟨.empty, rest⟩) :=
  ⟨⟨nofun, nofun, nofun⟩, nofun, nofun, nofun⟩

theorem Steady.refers_of_args?_eq (h : Steady s slotOf session)
    (hsame : after.args? = session.args?) :
    ∀ key args, after.args? key = some args → args.Refers after.Has := by
  intro k found hk
  rw [hsame] at hk
  refine (h.resources k found hk).imp fun other hother => ?_
  rwa [Session.Has, hsame]

theorem Steady.congr (h : Steady s slotOf session) (hinstance : after.instance? = session.instance?)
    (hnext : session.memory.slots.next ≤ after.memory.slots.next)
    (hrecalls : Recalls s.asset slotOf after) : Stays s slotOf session after := by
  have hsame : after.args? = session.args? := by
    funext k
    rw [Session.args?, Session.args?, hinstance]
  exact ⟨⟨h.slots.congr hinstance hnext, hrecalls, hinstance ▸ h.settled,
    h.refers_of_args?_eq hsame⟩, hsame⟩

theorem Steady.record (h : Steady s slotOf session) (event : Event) :
    Stays s slotOf session (session.record event) := h.congr rfl (Nat.le_refl _) h.recalls

private theorem Settled.keep (h : Settled s key inst)
    (hdeclared : s.registry.field? key.name field = some declared)
    (hkept : kept s.asset key.name inst.args field declared = .ok data) :
    Settled s key (inst.keep field data) := by
  refine ⟨h.computing, fun f found hfound => ?_⟩
  rw [Instance.known?_keep] at hfound
  split at hfound
  · next hf =>
    subst hf
    obtain rfl := Option.some.inj hfound
    exact ⟨declared, hdeclared, hkept⟩
  · exact h.known f found hfound

private theorem Steady.keep (h : Steady s slotOf session) (hargs : session.args? key = some args)
    (hdeclared : s.registry.field? key.name field = some declared)
    (hkept : kept s.asset key.name args field declared = .ok data) :
    Stays s slotOf session (session.update key (·.keep field data)) := by
  refine ⟨⟨h.slots.update fun _ => rfl, h.recalls.congr rfl Session.args?_keep,
    fun k inst hinst => ?_,
    h.refers_of_args?_eq Session.args?_keep⟩, Session.args?_keep⟩
  rw [Session.instance?_update] at hinst
  split at hinst
  · next hk =>
    subst hk
    obtain ⟨old, hold, rfl⟩ := Option.map_eq_some_iff.mp hinst
    obtain ⟨_, hother, rfl⟩ := Session.args?_eq_some.mp hargs
    obtain rfl := Option.some.inj (hold.symm.trans hother)
    exact (h.settled k old hold).keep hdeclared hkept
  · exact h.settled k inst hinst

private theorem Steady.finish (h : Steady s slotOf session)
    (hleaves : Leaves s slotOf (session.update key (·.begin field)) mid) :
    Stays s slotOf session (mid.update key (·.finish field)) := by
  refine h.congr ?_ (Nat.le_of_eq hleaves.next.symm)
    (hleaves.recalls.congr rfl Session.args?_finish)
  funext k
  have hmid : mid.instance? k = (session.update key (·.begin field)).instance? k := by
    rw [Session.instance?, hleaves.instances]
    rfl
  rw [Session.instance?_update, hmid, Session.instance?_update]
  split
  · next hk =>
    cases hinst : session.instance? k with
    | none => rfl
    | some inst => simp [Instance.finish_begin (h.settled k inst hinst).computing]
  · rfl

private theorem compute_run (calls : Calls (Memory τ)) (field : String)
    (hrecalls : Recalls s.asset slotOf session) (hslots : Slotted slotOf session)
    (hargs : session.args? key = some inst.args)
    (hprovider : inst.provider = some (provider (slotOf key) key.name))
    (hplain : declared.isImplicit = false) :
    ∃ after, s.compute calls key inst field declared session =
        some (outcome s.asset key.name inst.args field declared, after) ∧
      Leaves s slotOf session after := by
  rw [Setting.compute, outcome]
  cases inst.args.find? field with
  | some data => exact ⟨session, rfl, rfl, rfl, hrecalls⟩
  | none =>
    obtain ⟨after, hrun, hleaves⟩ := perform_provider calls field hrecalls hslots hargs
    refine ⟨after, ?_, hleaves⟩
    simp only [hplain, hprovider]
    show (Script.perform s calls _ session).bind _ = _
    rw [hrun]
    cases provided s.asset key.name inst.args field <;> rfl

private theorem computeField_run (calls : Calls (Memory τ)) (h : Steady s slotOf session)
    (hinst : session.instance? key = some inst)
    (hdeclared : s.registry.field? key.name field = some declared)
    (hplain : declared.isImplicit = false) :
    ∃ after, s.computeField calls key inst field declared session =
        some (kept s.asset key.name inst.args field declared >>= fieldResult key field, after) ∧
      Stays s slotOf session after := by
  have hargs : session.args? key = some inst.args := Session.args?_eq_some.mpr ⟨inst, hinst, rfl⟩
  have hrecalls : Recalls s.asset slotOf (session.update key (·.begin field)) :=
    h.recalls.congr rfl Session.args?_begin
  obtain ⟨mid, hrun, hleaves⟩ := compute_run calls field hrecalls (h.slots.update fun _ => rfl)
    ((congrFun Session.args?_begin key).trans hargs) (h.slots.provider key inst hinst) hplain
  obtain ⟨hsteady, hsame⟩ := h.finish hleaves
  have hsettled : Setting.settled declared.typ (outcome s.asset key.name inst.args field declared) =
      kept s.asset key.name inst.args field declared := rfl
  rw [Setting.computeField, Work.run_modify_bind, Work.run_bind hrun, Work.run_modify_bind,
    hsettled]
  cases hkept : kept s.asset key.name inst.args field declared with
  | error e => exact ⟨_, rfl, (hsteady.record _).steady, hsame⟩
  | ok data =>
    obtain ⟨hrecorded, _⟩ := hsteady.record (.computed key field (some data))
    have hlater := hrecorded.keep (hsame ▸ hargs) hdeclared hkept
    dsimp only
    split
    · exact ⟨_, rfl, hlater.steady, hlater.args.trans hsame⟩
    · exact ⟨_, rfl, hrecorded, hsame⟩

private theorem readStep_run (calls : Calls (Memory τ)) (field : String)
    (hregistry : s.registry = registry)
    (h : Steady s slotOf session) (hargs : session.args? key = some args) :
    ∃ after, s.readStep calls key field session = some (replyTo s key args field, after) ∧
      Stays s slotOf session after := by
  obtain ⟨inst, hinst, rfl⟩ := Session.args?_eq_some.mp hargs
  have hsettled := h.settled key inst hinst
  rw [Setting.readStep, Work.run_get_bind, hinst, replyTo]
  dsimp only
  cases hknown : inst.known? field with
  | some data =>
    obtain ⟨declared, hdeclared, hkept⟩ := hsettled.known field data hknown
    refine ⟨session.record (.answered key field (fieldResult key field data)), ?_, h.record _⟩
    rw [hdeclared]
    simp only [hkept]
    rfl
  | none =>
    simp only [hsettled.computing, List.contains_nil]
    cases hdeclared : s.registry.field? key.name field with
    | none => exact ⟨session, rfl, h, rfl⟩
    | some declared =>
      have hplain : declared.isImplicit = false := registry_field_plain (hregistry ▸ hdeclared)
      exact computeField_run calls h hinst hdeclared hplain

/-- A field of a resource that is there is read alike in every session that made the resource of the
same. -/
theorem read_repeats (hregistry : s.registry = registry) (h : Steady s slotOf session)
    (hkey : session.Has key) :
    Work.Repeats (fun session => ∃ slotOf, Steady s slotOf session) (s.readStep calls key field)
      session fun after reply => ∀ data, reply = .ok data → data.value.Refers after.Has := by
  obtain ⟨args, hargs⟩ := Option.isSome_iff_exists.mp hkey
  obtain ⟨after, hrun, hafter, hsame⟩ := readStep_run calls field hregistry h hargs
  refine ⟨_, after, hrun, ⟨_, hafter⟩, .of_args?_eq hsame, fun data hdata => ?_, ?_⟩
  · exact replyTo_refers (hafter.resources key args (hsame ▸ hargs)) hdata
  · rintro earlier shared ⟨_, hshared⟩ hjoins _
    obtain ⟨last, hlast, hsteady, hkept⟩ := readStep_run calls field hregistry hshared
      (hjoins.args? hargs)
    exact ⟨last, hlast, ⟨_, hsteady⟩, hjoins.congr hkept hsame⟩

private theorem withSlot_of_unknown (hregistry : s.registry = registry) {name : String}
    (h : s.registry.resource? name = none) (session : Session (Memory τ)) :
    withSlot name session = session := by
  refine if_neg ?_
  rintro rfl
  rw [hregistry] at h
  cases h

/-- A core factory makes of some arguments what does not depend on the session, and holds only
resources that are in the arguments. The provider that it makes has the slot that is added next. -/
private theorem construct_run (calls : Calls (Memory τ)) (hregistry : s.registry = registry)
    {name : String}
    {entry : ResourceEntry (Factory (Memory τ))} (hentry : s.registry.resource? name = some entry)
    (args : Dict Data) :
    ∃ made, (∀ known : Key → Prop, args.Refers known → made.Refers known) ∧
      ∀ session, s.construct calls entry.factory args session =
        some (.ok (made, some (provider session.memory.slots.next name)),
          withSlot name session) := by
  rw [hregistry] at hentry
  have hmem := mem_registry hentry
  simp only [List.mem_cons, Prod.mk.injEq, List.not_mem_nil, or_false] at hmem
  rcases hmem with ⟨rfl, rfl⟩ | ⟨rfl, rfl⟩ | ⟨rfl, rfl⟩
  · exact ⟨args, fun _ h => h, fun _ => rfl⟩
  · exact ⟨args, fun _ h => h, fun _ => rfl⟩
  · exact ⟨platformArgs s.asset.platform args, fun _ => platformArgs_refers _, fun _ => rfl⟩

/-- Whether a resource is created does not depend on the session, nor does what it is made of, which
holds only resources that are in the arguments. Its id is the one that its provider gives it. -/
theorem createStep_cases (calls : Calls (Memory τ)) (hregistry : s.registry = registry)
    (name : String) (args : Dict Data) :
    (∃ e, ∀ session, s.createStep calls name args session =
        some (.error e, withSlot name session)) ∨
      ∃ key made, (∀ known : Key → Prop, args.Refers known → made.Refers known) ∧
        key.id = ((provider 0 key.name : Provider (Memory τ)).id made).getD
          (defaultId key.name made) ∧
        ∀ session, s.createStep calls name args session =
          some (.ok key, created key made session) := by
  rw [Setting.createStep]
  cases hentry : s.registry.resource? name with
  | none =>
    refine .inl ⟨.unknownResource name, fun session => ?_⟩
    rw [withSlot_of_unknown hregistry hentry]
    rfl
  | some entry =>
    obtain ⟨made, hmade, hrun⟩ := construct_run calls hregistry hentry args
    cases hfault : argsFault? entry.info made with
    | some cause =>
      refine .inl ⟨.construction name cause, fun session => ?_⟩
      refine (Work.run_bind (hrun session)).trans ?_
      simp only [hfault]
      rfl
    | none =>
      let id := ((provider 0 name : Provider (Memory τ)).id made).getD (defaultId name made)
      refine .inr ⟨⟨name, id⟩, made, hmade, rfl, fun session => ?_⟩
      refine (Work.run_bind (hrun session)).trans ?_
      simp only [hfault, Option.bind_some, provider_id _ name]
      rfl

private theorem Steady.withSlot (h : Steady s slotOf session) (name : String) :
    Stays s slotOf session (withSlot name session) := by
  refine h.congr instance?_withSlot next_le_withSlot fun id args output hargs houtput => ?_
  rw [args?_withSlot] at hargs
  rw [output?_withSlot] at houtput
  exact h.recalls id args output hargs houtput

private theorem Steady.recalls_created (h : Steady s slotOf session) (key : Key)
    (args : Dict Data) : Recalls s.asset (placed slotOf session) (created key args session) := by
  intro id found output hfound houtput
  rw [memory_created, output?_withSlot] at houtput
  by_cases hold : session.Has ⟨"command", id⟩
  · obtain ⟨before, hbefore⟩ := Option.isSome_iff_exists.mp hold
    obtain rfl := Option.some.inj (hfound.symm.trans (extends_created _ _ hbefore))
    rw [placed_of_has hold] at houtput
    exact h.recalls id found output hbefore houtput
  · rw [placed_of_not_has hold, Slots.output?_next] at houtput
    cases houtput

private theorem Steady.created (h : Steady s slotOf session) (hargs : args.Refers session.Has) :
    Steady s (placed slotOf session) (created key args session) := by
  refine ⟨h.slots.created key args, h.recalls_created key args, fun k inst hinst => ?_,
    fun k found hfound => ?_⟩
  · rw [instance?_created] at hinst
    rcases Option.or_eq_some_iff.mp hinst with hold | ⟨_, hnew⟩
    · exact h.settled k inst hold
    · split at hnew
      · obtain rfl := Option.some.inj hnew
        refine ⟨rfl, ?_⟩
        rintro _ _ ⟨⟩
      · cases hnew
  · have hknown : found.Refers session.Has := by
      rw [Core.created, Session.args?_adopt, args?_withSlot] at hfound
      rcases Option.or_eq_some_iff.mp hfound with hold | ⟨_, hnew⟩
      · exact h.resources k found hold
      · split at hnew
        · exact Option.some.inj hnew ▸ hargs
        · cases hnew
    exact hknown.imp fun _ => extends_created.has

/-- A resource is created alike in every session. -/
theorem create_repeats (hregistry : s.registry = registry) (h : Steady s slotOf session)
    {name : String} (hargs : args.Refers session.Has) :
    Work.Repeats (fun session => ∃ slotOf, Steady s slotOf session) (s.createStep calls name args)
      session fun after reply => ∀ key, reply = .ok key → after.Has key := by
  rcases createStep_cases calls hregistry name args with
    ⟨e, hrun⟩ | ⟨key, made, hmade, _, hrun⟩
  · obtain ⟨hsteady, hsame⟩ := h.withSlot name
    refine ⟨_, _, hrun session, ⟨_, hsteady⟩, .of_args?_eq hsame, nofun, ?_⟩
    rintro earlier shared ⟨_, hshared⟩ hjoins _
    obtain ⟨hlast, hsame'⟩ := hshared.withSlot name
    exact ⟨_, hrun shared, ⟨_, hlast⟩, hjoins.congr hsame' hsame⟩
  · refine ⟨_, _, hrun session, ⟨_, h.created (hmade _ hargs)⟩, extends_created, ?_, ?_⟩
    · rintro _ ⟨⟩
      exact has_created
    · rintro earlier shared ⟨_, hshared⟩ hjoins hagrees
      have hslots : (withSlot key.name shared).Joins earlier (withSlot key.name session) :=
        hjoins.congr args?_withSlot args?_withSlot
      exact ⟨_, hrun shared, ⟨_, hshared.created ((hmade _ hargs).imp fun _ => hjoins.has)⟩,
        hslots.adopt hagrees rfl⟩

end Sessions

end Core

end AssetQuery
