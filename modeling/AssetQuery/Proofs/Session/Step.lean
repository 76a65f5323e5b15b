import AssetQuery.Proofs.Session.Work

/-!
# What requests do

The ways in which a read of a field goes and those in which a resource is created, and what a
session is after a field was computed.
-/

namespace AssetQuery

open Work (bind_eq_some run_bind)

variable {σ : Type}

namespace Setting

variable {s : Setting σ} {calls : Calls σ} {key : Key} {name : String}

/-- A read of a field with its reply and the session after it. -/
inductive Reads (s : Setting σ) (calls : Calls σ) (key : Key) (name : String)
    (session : Session σ) : Except ResourceError Data → Session σ → Prop
  | missing : session.instance? key = none →
      Reads s calls key name session (.error (.unknownResource key.name)) session
  | answered {inst : Instance σ} {data : Data} : session.instance? key = some inst →
      inst.known? name = some data →
      Reads s calls key name session (fieldResult key name data)
        (session.record (.answered key name (fieldResult key name data)))
  | circular {inst : Instance σ} : session.instance? key = some inst →
      inst.known? name = none → name ∈ inst.computing →
      Reads s calls key name session (.error (.cyclic key.name name)) session
  | undeclared {inst : Instance σ} : session.instance? key = some inst →
      inst.known? name = none → name ∉ inst.computing → s.registry.field? key.name name = none →
      Reads s calls key name session (.error (.unknownField key.name name)) session
  | computed {inst : Instance σ} {declared : Field} {reply : Except ResourceError Data}
      {after : Session σ} : session.instance? key = some inst →
      inst.known? name = none → name ∉ inst.computing →
      s.registry.field? key.name name = some declared →
      s.computeField calls key inst name declared session = some (reply, after) →
      Reads s calls key name session reply after

theorem readStep_eq_some {session after : Session σ} {reply : Except ResourceError Data} :
    s.readStep calls key name session = some (reply, after) ↔
      s.Reads calls key name session reply after := by
  have hstart : s.readStep calls key name session = _ := Work.run_get_bind _ session
  rw [hstart]
  constructor
  · intro hrun
    cases hinst : session.instance? key with
    | none =>
      rw [hinst] at hrun
      cases hrun
      exact .missing hinst
    | some inst =>
      rw [hinst] at hrun
      cases hknown : inst.known? name with
      | some data =>
        simp only [hknown] at hrun
        cases hrun
        exact .answered hinst hknown
      | none =>
        simp only [hknown] at hrun
        by_cases hnew : name ∈ inst.computing
        · rw [if_pos (by simpa using hnew)] at hrun
          cases hrun
          exact .circular hinst hknown hnew
        · rw [if_neg (by simpa using hnew)] at hrun
          cases hdeclared : s.registry.field? key.name name with
          | none =>
            rw [hdeclared] at hrun
            cases hrun
            exact .undeclared hinst hknown hnew hdeclared
          | some declared =>
            rw [hdeclared] at hrun
            exact .computed hinst hknown hnew hdeclared hrun
  · rintro (hinst | ⟨hinst, hknown⟩ | ⟨hinst, hknown, hcomputing⟩ |
      ⟨hinst, hknown, hnew, hdeclared⟩ | ⟨hinst, hknown, hnew, hdeclared, hrun⟩)
    · rw [hinst]
      rfl
    · simp only [hinst, hknown]
      rfl
    · simp only [hinst, hknown]
      rw [if_pos (by simpa using hcomputing)]
      rfl
    · simp only [hinst, hknown, hdeclared]
      rw [if_neg (by simpa using hnew)]
      rfl
    · simp only [hinst, hknown, hdeclared]
      rwa [if_neg (by simpa using hnew)]

/-- The session after a field was computed, with the data that stands for its outcome or the circle
that it depends on itself by. -/
def concluded (s : Setting σ) (key : Key) (name : String) (session : Session σ) :
    Except ResourceError Data → Session σ
  | .error _ => (session.update key (·.finish name)).record (.computed key name none)
  | .ok data =>
    let done := (session.update key (·.finish name)).record (.computed key name (some data))
    if data.error.isNone || s.config.cacheErrors then done.update key (·.keep name data) else done

theorem computeField_eq_some {inst : Instance σ} {declared : Field} {session after : Session σ}
    {reply : Except ResourceError Data} :
    s.computeField calls key inst name declared session = some (reply, after) ↔
      ∃ outcome mid, s.compute calls key inst name declared (session.update key (·.begin name)) =
          some (outcome, mid) ∧
        reply = (settled declared.typ outcome).bind (fieldResult key name) ∧
        after = s.concluded key name mid (settled declared.typ outcome) := by
  have hrest (outcome : Except Failure Data) (mid : Session σ) :
      (do modify (·.update key (·.finish name))
          match settled declared.typ outcome with
          | .error e =>
            modify (·.record (.computed key name none))
            return .error e
          | .ok data =>
            modify (·.record (.computed key name (some data)))
            if data.error.isNone || s.config.cacheErrors then
              modify (·.update key (·.keep name data))
            return fieldResult key name data : Work σ (Except ResourceError Data)) mid =
        some ((settled declared.typ outcome).bind (fieldResult key name),
          s.concluded key name mid (settled declared.typ outcome)) := by
    cases settled declared.typ outcome with
    | error e => rfl
    | ok data =>
      simp only [concluded, Except.bind]
      split <;> rfl
  rw [computeField, Work.run_modify_bind]
  constructor
  · intro hrun
    obtain ⟨outcome, mid, hcompute, hrun⟩ := bind_eq_some.mp hrun
    obtain ⟨rfl, rfl⟩ := Prod.mk.inj (Option.some.inj ((hrest outcome mid).symm.trans hrun))
    exact ⟨outcome, mid, hcompute, rfl, rfl⟩
  · rintro ⟨outcome, mid, hcompute, rfl, rfl⟩
    rw [run_bind hcompute]
    exact hrest outcome mid

/-- What becomes of the resource whose field was computed. -/
theorem instance?_concluded {session : Session σ} {inst : Instance σ}
    (h : session.instance? key = some inst) (result : Except ResourceError Data) :
    (s.concluded key name session result).instance? key = some (inst.finish name) ∨
      ∃ data, result = .ok data ∧
        (s.concluded key name session result).instance? key =
          some ((inst.finish name).keep name data) := by
  have hfinished :
      (session.update key (·.finish name)).instance? key = some (inst.finish name) := by
    rw [Session.instance?_update, if_pos rfl, h]
    rfl
  cases result with
  | error e => exact .inl hfinished
  | ok data =>
    simp only [concluded]
    split
    · refine .inr ⟨data, rfl, ?_⟩
      rw [Session.instance?_update, if_pos rfl, Session.instance?_record, hfinished]
      rfl
    · exact .inl hfinished

theorem instance?_concluded_of_ne {k : Key} (h : k ≠ key) (session : Session σ)
    (result : Except ResourceError Data) :
    (s.concluded key name session result).instance? k = session.instance? k := by
  cases result with
  | error e => simp [concluded, Session.instance?_update, h]
  | ok data =>
    simp only [concluded]
    split <;> simp [Session.instance?_update, h]

/-- The id of a resource that is made of some arguments. -/
def idOf (name : String) (args : Dict Data) (provider : Option (Provider σ)) : String :=
  (provider.bind (·.id args)).getD (defaultId name args)

/-- The creation of a resource with its reply and the session after it. -/
inductive Creates (s : Setting σ) (calls : Calls σ) (name : String) (args : Dict Data)
    (session : Session σ) : Except ResourceError Key → Session σ → Prop
  | undeclared : s.registry.resource? name = none →
      Creates s calls name args session (.error (.unknownResource name)) session
  | failed {entry : ResourceEntry (Factory σ)} {cause : Failure} {mid : Session σ} :
      s.registry.resource? name = some entry →
      s.construct calls entry.factory args session = some (.error cause, mid) →
      Creates s calls name args session (.error (.construction name cause.message)) mid
  | refused {entry : ResourceEntry (Factory σ)} {made : Dict Data} {provider : Option (Provider σ)}
      {cause : String} {mid : Session σ} : s.registry.resource? name = some entry →
      s.construct calls entry.factory args session = some (.ok (made, provider), mid) →
      argsFault? entry.info made = some cause →
      Creates s calls name args session (.error (.construction name cause)) mid
  | adopted {entry : ResourceEntry (Factory σ)} {made : Dict Data} {provider : Option (Provider σ)}
      {mid : Session σ} : s.registry.resource? name = some entry →
      s.construct calls entry.factory args session = some (.ok (made, provider), mid) →
      argsFault? entry.info made = none →
      Creates s calls name args session (.ok ⟨name, idOf name made provider⟩)
        (mid.adopt ⟨name, idOf name made provider⟩ (.fresh made provider))

theorem creates_of_createStep {args : Dict Data} {session after : Session σ}
    {reply : Except ResourceError Key}
    (hrun : s.createStep calls name args session = some (reply, after)) :
    s.Creates calls name args session reply after := by
  rw [createStep] at hrun
  cases hentry : s.registry.resource? name with
  | none =>
    rw [hentry] at hrun
    cases hrun
    exact .undeclared hentry
  | some entry =>
    rw [hentry] at hrun
    obtain ⟨outcome, mid, hconstruct, hrun⟩ := bind_eq_some.mp hrun
    cases outcome with
    | error cause =>
      cases hrun
      exact .failed hentry hconstruct
    | ok o =>
      obtain ⟨made, provider⟩ := o
      dsimp only at hrun
      cases hfault : argsFault? entry.info made with
      | some cause =>
        rw [hfault] at hrun
        cases hrun
        exact .refused hentry hconstruct hfault
      | none =>
        rw [hfault] at hrun
        obtain ⟨_, _, ⟨⟩, hrun⟩ := bind_eq_some.mp hrun
        cases hrun
        exact .adopted hentry hconstruct hfault

end Setting

end AssetQuery
