import AssetQuery.Proofs.Session.Work

/-!
# How often fields are computed

A field that is known is not computed again before it is invalidated. So it is computed at most once
more than it is invalidated, not counting computations that found it to depend on itself, and a read
that is answered from what is known gives the outcome of the latest of these computations. Both hold
however the scripts of factories and providers read, create and invalidate on the way.
-/

namespace AssetQuery

variable {σ α : Type}

/-- Something that is asked of a session. -/
inductive Operation where
  | create (name : String) (args : Dict Data)
  | read (key : Key) (field : String)
  | invalidate (key : Key) (field : String)

def Setting.operate (s : Setting σ) : Operation → Work σ Unit
  | .create name args => do let _ ← s.create name args
  | .read key field => do let _ ← s.read key field
  | .invalidate key field => s.invalidate key field

/-- One operation after the other. -/
def Setting.operateAll (s : Setting σ) (operations : List Operation) : Work σ Unit :=
  operations.forM s.operate

namespace Event

/-- What a field was computed to be. -/
def outcome? (key : Key) (field : String) : Event → Option Data
  | computed k f (some data) => if k = key ∧ f = field then some data else none
  | _ => none

def invalidates (key : Key) (field : String) : Event → Bool
  | invalidated k f => k = key ∧ f = field
  | _ => false

/-- What a field was computed to be, the latest first. -/
def outcomes (journal : List Event) (key : Key) (field : String) : List Data :=
  journal.filterMap (outcome? key field)

/-- How often a field was invalidated. -/
def invalidations (journal : List Event) (key : Key) (field : String) : Nat :=
  journal.countP (invalidates key field)

/-- Whether a reply, if the event is one, is the latest outcome in the journal before it. -/
def Justified (earlier : List Event) : Event → Prop
  | answered key field reply => ∃ data, (outcomes earlier key field).head? = some data ∧
      reply = fieldResult key field data
  | _ => True

variable {journal : List Event} {event : Event} {key : Key} {field : String}

theorem outcomes_cons_of_none (h : event.outcome? key field = none) :
    outcomes (event :: journal) key field = outcomes journal key field :=
  List.filterMap_cons_none h

private theorem outcomes_cons_of_some {data : Data} (h : event.outcome? key field = some data) :
    outcomes (event :: journal) key field = data :: outcomes journal key field :=
  List.filterMap_cons_some h

theorem invalidations_cons_of_false (h : event.invalidates key field = false) :
    invalidations (event :: journal) key field = invalidations journal key field :=
  List.countP_cons_of_neg (by simp [h])

private theorem invalidations_cons_of_true (h : event.invalidates key field = true) :
    invalidations (event :: journal) key field = invalidations journal key field + 1 :=
  List.countP_cons_of_pos h

end Event

open Event (outcomes invalidations)

structure Tallied (known : Option Data) (outcomes : List Data) (invalidations : Nat) : Prop where
  count : outcomes.length ≤ known.toList.length + invalidations
  latest : ∀ data, known = some data → outcomes.head? = some data

namespace Tallied

variable {known : Option Data} {outcomes : List Data} {invalidations : Nat}

private theorem forget (h : Tallied known outcomes invalidations) :
    Tallied none outcomes (invalidations + 1) := by
  refine ⟨?_, nofun⟩
  have hcount := h.count
  have hknown : known.toList.length ≤ 1 := by cases known <;> simp
  simp only [Option.toList_none, List.length_nil]
  omega

private theorem keep (h : Tallied none outcomes invalidations) (data : Data) :
    Tallied (some data) (data :: outcomes) invalidations := by
  refine ⟨?_, fun _ hdata => hdata⟩
  have hcount := h.count
  simp only [Option.toList_none, Option.toList_some, List.length_nil, List.length_cons] at hcount ⊢
  omega

end Tallied

namespace Session

variable {session : Session σ} {key : Key} {field : String}

/-- What is known of a field of a resource that is there. -/
def known? (session : Session σ) (key : Key) (field : String) : Option Data :=
  (session.instance? key).bind (·.known? field)

/-- The fields of a resource that are being computed. -/
def computing (session : Session σ) (key : Key) : List String :=
  ((session.instance? key).map (·.computing)).getD []

private theorem exists_of_mem_computing {name : String} (h : name ∈ session.computing key) :
    ∃ inst, session.instance? key = some inst := by
  rw [computing] at h
  cases hinst : session.instance? key with
  | none => simp [hinst] at h
  | some inst => exact ⟨inst, rfl⟩

theorem known?_update {f : Instance σ → Instance σ} (hf : ∀ inst, (f inst).cache = inst.cache) :
    (session.update key f).known? = session.known? := by
  funext k field
  rw [known?, known?, instance?_update]
  split
  · cases session.instance? k <;> simp [Instance.known?, hf]
  · rfl

theorem computing_update {f : Instance σ → Instance σ}
    (hf : ∀ inst, (f inst).computing = inst.computing) :
    (session.update key f).computing = session.computing := by
  funext k
  rw [computing, computing, instance?_update]
  split
  · cases session.instance? k <;> simp [hf]
  · rfl

theorem known?_invalidate (k : Key) (f : String) :
    (session.update key (·.invalidate field)).known? k f =
      if k = key ∧ f = field then none else session.known? k f := by
  rw [known?, known?, instance?_update]
  by_cases hk : k = key
  · cases session.instance? k <;> simp [hk, Instance.known?_invalidate]
  · simp [hk]

theorem known?_keep {inst : Instance σ} (hinst : session.instance? key = some inst) {data : Data}
    (k : Key) (f : String) :
    (session.update key (·.keep field data)).known? k f =
      if k = key ∧ f = field then some data else session.known? k f := by
  rw [known?, known?, instance?_update]
  by_cases hk : k = key
  · subst hk
    simp [hinst, Instance.known?_keep]
  · simp [hk]

theorem known?_adopt (args : Dict Data) (provider : Option (Provider σ)) :
    (session.adopt key (.fresh args provider)).known? = session.known? := by
  funext k f
  rw [known?, known?, instance?_adopt]
  cases session.instance? k with
  | none => split <;> rfl
  | some inst => rfl

theorem computing_adopt (args : Dict Data) (provider : Option (Provider σ)) :
    (session.adopt key (.fresh args provider)).computing = session.computing := by
  funext k
  rw [computing, computing, instance?_adopt]
  cases session.instance? k with
  | none => split <;> rfl
  | some inst => rfl

theorem journal_adopt (inst : Instance σ) :
    (session.adopt key inst).journal = session.journal := by
  rw [adopt]
  split <;> rfl

/-- What is being computed once one more field is. -/
def adding (pending : Key → List String) (key : Key) (name : String) : Key → List String :=
  fun k => if k = key then name :: pending k else pending k

section Computing

variable {pending : Key → List String} {name : String}

theorem computing_begin {inst : Instance σ} (hinst : session.instance? key = some inst) :
    (session.update key (·.begin name)).computing = adding session.computing key name := by
  funext k
  rw [computing, instance?_update, adding, computing]
  split
  · next hk =>
    subst hk
    simp [hinst, Instance.begin]
  · rfl

theorem computing_finish (hnew : name ∉ pending key)
    (h : session.computing = adding pending key name) :
    (session.update key (·.finish name)).computing = pending := by
  have hfilter : (pending key).filter (· ≠ name) = pending key :=
    List.filter_eq_self.mpr fun f hf => decide_eq_true fun heq => hnew (heq ▸ hf)
  funext k
  have hbefore := congrFun h k
  rw [adding, computing] at hbefore
  rw [computing, instance?_update]
  split
  · next hk =>
    subst hk
    cases hinst : session.instance? k with
    | none => simp [hinst] at hbefore
    | some inst =>
      simp only [hinst, Option.map_some, Option.getD_some, if_true] at hbefore
      simp only [Option.map_some, Option.getD_some, Instance.finish, hbefore]
      simpa using hfilter
  · next hk => rwa [if_neg hk] at hbefore

theorem computing_invalidate :
    (session.update key (·.invalidate field)).computing = session.computing :=
  computing_update fun inst => by
    rw [Instance.invalidate]
    split <;> rfl

end Computing

structure Memoized (pending : Key → List String) (session : Session σ) : Prop where
  computing : session.computing = pending
  unknown : ∀ key, ∀ field ∈ pending key, session.known? key field = none
  tallied : ∀ key field, Tallied (session.known? key field)
    (outcomes session.journal key field) (invalidations session.journal key field)
  answers : ∀ later event earlier, session.journal = later ++ event :: earlier →
    event.Justified earlier

namespace Memoized

variable {pending : Key → List String} {event : Event}

private theorem new (memory : σ) : (Session.new memory).Memoized fun _ => [] where
  computing := rfl
  unknown _ _ := nofun
  tallied _ _ := ⟨Nat.le_refl 0, nofun⟩
  answers later _ _ h := by
    have hlength := congrArg List.length h
    simp [Session.new] at hlength

theorem answers_cons (h : session.Memoized pending) (hevent : event.Justified session.journal)
    (later : List Event) (e : Event) (earlier : List Event)
    (hjournal : event :: session.journal = later ++ e :: earlier) : e.Justified earlier := by
  cases later with
  | nil =>
    obtain ⟨rfl, rfl⟩ := List.cons.inj hjournal
    exact hevent
  | cons first later => exact h.answers later e earlier (List.cons.inj hjournal).2

theorem record (h : session.Memoized pending)
    (houtcome : ∀ key field, event.outcome? key field = none)
    (hinvalidates : ∀ key field, event.invalidates key field = false)
    (hevent : event.Justified session.journal) : (session.record event).Memoized pending where
  computing := h.computing
  unknown := h.unknown
  tallied key field := by
    rw [Session.record, Event.outcomes_cons_of_none (houtcome key field),
      Event.invalidations_cons_of_false (hinvalidates key field)]
    exact h.tallied key field
  answers := h.answers_cons hevent

theorem congr (h : session.Memoized pending) {other : Session σ}
    (hcomputing : other.computing = session.computing) (hknown : other.known? = session.known?)
    (hjournal : other.journal = session.journal) : other.Memoized pending := by
  refine ⟨hcomputing.trans h.computing, ?_, ?_, ?_⟩
  · rw [hknown]
    exact h.unknown
  · rw [hknown, hjournal]
    exact h.tallied
  · rw [hjournal]
    exact h.answers

theorem invalidate (h : session.Memoized pending) (key : Key) (field : String) :
    ((session.update key (·.invalidate field)).record (.invalidated key field)).Memoized
      pending := by
  refine ⟨computing_invalidate.trans h.computing, fun k f hf => ?_, fun k f => ?_,
    h.answers_cons trivial⟩
  · refine (known?_invalidate k f).trans ?_
    split
    · rfl
    · exact h.unknown k f hf
  · have htallied := h.tallied k f
    change Tallied ((session.update key (·.invalidate field)).known? k f)
      (outcomes (.invalidated key field :: session.journal) k f)
      (invalidations (.invalidated key field :: session.journal) k f)
    rw [known?_invalidate, Event.outcomes_cons_of_none rfl]
    by_cases hkey : k = key ∧ f = field
    · obtain ⟨rfl, rfl⟩ := hkey
      rw [if_pos ⟨rfl, rfl⟩, Event.invalidations_cons_of_true (by simp [Event.invalidates])]
      exact htallied.forget
    · have hother : Event.invalidates k f (.invalidated key field) = false :=
        decide_eq_false fun h => hkey ⟨h.1.symm, h.2.symm⟩
      rw [if_neg hkey, Event.invalidations_cons_of_false hother]
      exact htallied

private theorem adopt (h : session.Memoized pending) (args : Dict Data)
    (provider : Option (Provider σ)) :
    (session.adopt key (.fresh args provider)).Memoized pending :=
  h.congr (computing_adopt args provider) (known?_adopt args provider) (journal_adopt _)

private theorem begin {inst : Instance σ} {name : String} (h : session.Memoized pending)
    (hinst : session.instance? key = some inst) (hunknown : inst.known? name = none) :
    (session.update key (·.begin name)).Memoized (adding pending key name) := by
  have hknown : (session.update key (·.begin name)).known? = session.known? :=
    known?_update fun _ => rfl
  refine ⟨h.computing ▸ computing_begin hinst, fun k f hf => ?_, ?_, h.answers⟩
  · rw [hknown]
    rw [adding] at hf
    split at hf
    · next hk =>
      subst hk
      rcases List.mem_cons.mp hf with rfl | hf
      · simp [known?, hinst, hunknown]
      · exact h.unknown k f hf
    · exact h.unknown k f hf
  · rw [hknown]
    exact h.tallied

private theorem finish {name : String} (h : session.Memoized (adding pending key name))
    (hnew : name ∉ pending key) : (session.update key (·.finish name)).Memoized pending := by
  have hknown : (session.update key (·.finish name)).known? = session.known? :=
    known?_update fun _ => rfl
  refine ⟨computing_finish hnew h.computing, fun k f hf => ?_, ?_, h.answers⟩
  · rw [hknown]
    refine h.unknown k f ?_
    rw [adding]
    split
    · exact List.mem_cons_of_mem _ hf
    · exact hf
  · rw [hknown]
    exact h.tallied

private theorem keep {inst : Instance σ} {name : String} (h : session.Memoized pending)
    (hinst : session.instance? key = some inst) (hunknown : session.known? key name = none)
    (hnew : name ∉ pending key) (data : Data) :
    ((session.record (.computed key name (some data))).update key
      (·.keep name data)).Memoized pending := by
  have hknown : ∀ k f, ((session.record (.computed key name (some data))).update key
      (·.keep name data)).known? k f =
        if k = key ∧ f = name then some data else session.known? k f :=
    known?_keep hinst
  have hcomputing : ((session.record (.computed key name (some data))).update key
      (·.keep name data)).computing = session.computing := computing_update fun _ => rfl
  refine ⟨hcomputing.trans h.computing, fun k f hf => ?_, fun k f => ?_,
    h.answers_cons trivial⟩
  · rw [hknown, if_neg]
    · exact h.unknown k f hf
    · rintro ⟨rfl, rfl⟩
      exact hnew hf
  · have htallied := h.tallied k f
    rw [hknown]
    change Tallied _ (outcomes (.computed key name (some data) :: session.journal) k f)
      (invalidations (.computed key name (some data) :: session.journal) k f)
    rw [Event.invalidations_cons_of_false rfl]
    by_cases hkey : k = key ∧ f = name
    · obtain ⟨rfl, rfl⟩ := hkey
      rw [hunknown] at htallied
      have houtcome : Event.outcome? k f (.computed k f (some data)) = some data :=
        if_pos ⟨rfl, rfl⟩
      rw [if_pos ⟨rfl, rfl⟩, Event.outcomes_cons_of_some houtcome]
      exact htallied.keep data
    · have hother : Event.outcome? k f (.computed key name (some data)) = none :=
        if_neg fun h => hkey ⟨h.1.symm, h.2.symm⟩
      rw [if_neg hkey, Event.outcomes_cons_of_none hother]
      exact htallied

end Memoized

end Session

open Work (Keeps keeps_pure keeps_modify keeps_get bind_eq_some)

structure Calls.Memoize (calls : Calls σ) : Prop where
  read : ∀ pending key field,
    Keeps (Session.Memoized pending) (calls.read key field) fun _ => True
  create : ∀ pending name args,
    Keeps (Session.Memoized pending) (calls.create name args) fun _ => True

theorem Script.perform_memoized {s : Setting σ} {calls : Calls σ} (hcalls : calls.Memoize)
    (pending : Key → List String) (script : Script σ α) :
    Keeps (Session.Memoized pending) (script.perform s calls) fun _ => True := by
  induction script with
  | done a => exact keeps_pure trivial
  | fail cause => exact keeps_pure trivial
  | load next ih => exact keeps_get fun session _ => ih session.memory
  | save memory next ih =>
    exact (keeps_modify fun _ h => h.congr rfl rfl rfl).bind fun _ _ => ih
  | look next ih => exact ih s.asset
  | run command next ih =>
    have hrun : Keeps (Session.Memoized pending) (s.runCommand command) fun _ => True := by
      rw [Setting.runCommand]
      split
      · exact keeps_pure trivial
      · exact (keeps_modify fun _ h => h.record (fun _ _ => rfl) (fun _ _ => rfl) trivial).bind
          fun _ _ => keeps_pure trivial
    exact hrun.bind fun reply _ => ih reply
  | read key field next ih => exact (hcalls.read pending key field).bind fun reply _ => ih reply
  | create name args next ih =>
    exact (hcalls.create pending name args).bind fun reply _ => ih reply
  | invalidate key field next ih =>
    exact (keeps_modify fun _ h => h.invalidate key field).bind fun _ _ => ih

namespace Setting

variable {s : Setting σ} {calls : Calls σ} {pending : Key → List String}

private theorem compute_memoized (hcalls : calls.Memoize) (pending : Key → List String) (key : Key)
    (inst : Instance σ) (name : String) (declared : Field) :
    Keeps (Session.Memoized pending) (s.compute calls key inst name declared) fun _ => True := by
  rw [compute]
  split
  · exact keeps_pure trivial
  · split
    · refine (hcalls.create _ _ _).bind fun reply _ => ?_
      cases reply <;> exact keeps_pure trivial
    · split
      · exact keeps_pure trivial
      · refine (Script.perform_memoized hcalls _ _).bind fun reply _ => ?_
        cases reply <;> exact keeps_pure trivial

private theorem computeField_cases (hcached : s.config.cacheErrors = true) {key : Key}
    {inst : Instance σ} {name : String} {declared : Field} {session after : Session σ}
    {reply : Except ResourceError Data}
    (hrun : s.computeField calls key inst name declared session = some (reply, after)) :
    ∃ outcome mid, s.compute calls key inst name declared (session.update key (·.begin name)) =
        some (outcome, mid) ∧
      (after = (mid.update key (·.finish name)).record (.computed key name none) ∨
        ∃ data, after = ((mid.update key (·.finish name)).record
          (.computed key name (some data))).update key (·.keep name data)) := by
  rw [computeField] at hrun
  obtain ⟨_, _, ⟨⟩, hrun⟩ := bind_eq_some.mp hrun
  obtain ⟨outcome, mid, hcompute, hrun⟩ := bind_eq_some.mp hrun
  obtain ⟨_, _, ⟨⟩, hrun⟩ := bind_eq_some.mp hrun
  refine ⟨outcome, mid, hcompute, ?_⟩
  cases hsettled : settled declared.typ outcome with
  | error e =>
    rw [hsettled] at hrun
    obtain ⟨_, _, ⟨⟩, hrun⟩ := bind_eq_some.mp hrun
    obtain ⟨_, rfl⟩ := Prod.mk.inj (Option.some.inj hrun)
    exact .inl rfl
  | ok data =>
    rw [hsettled] at hrun
    obtain ⟨_, _, ⟨⟩, hrun⟩ := bind_eq_some.mp hrun
    rw [hcached, Bool.or_true, if_pos rfl] at hrun
    obtain ⟨_, _, ⟨⟩, hrun⟩ := bind_eq_some.mp hrun
    obtain ⟨_, rfl⟩ := Prod.mk.inj (Option.some.inj hrun)
    exact .inr ⟨data, rfl⟩

private theorem computeField_memoized (hcached : s.config.cacheErrors = true)
    (hcalls : calls.Memoize) {key : Key} {inst : Instance σ} {name : String} {declared : Field}
    {session after : Session σ} {reply : Except ResourceError Data}
    (h : session.Memoized pending) (hinst : session.instance? key = some inst)
    (hunknown : inst.known? name = none) (hnew : name ∉ pending key)
    (hrun : s.computeField calls key inst name declared session = some (reply, after)) :
    after.Memoized pending := by
  obtain ⟨outcome, mid, hcompute, hafter⟩ := computeField_cases hcached hrun
  have hbegun := h.begin hinst hunknown
  -- While the field is computed it is pending, so nothing that is read on the way makes it known.
  have hmid := (compute_memoized hcalls _ key inst name declared _ hbegun _ _ hcompute).1
  have hpending : name ∈ Session.adding pending key name key := by simp [Session.adding]
  have hfinished := hmid.finish hnew
  rcases hafter with rfl | ⟨data, rfl⟩
  · exact hfinished.record (fun _ _ => rfl) (fun _ _ => rfl) trivial
  · obtain ⟨there, hthere⟩ := Session.exists_of_mem_computing (hmid.computing ▸ hpending)
    have hfound : (mid.update key (·.finish name)).instance? key = some (there.finish name) := by
      rw [Session.instance?_update, if_pos rfl, hthere]
      rfl
    have hstill : (mid.update key (·.finish name)).known? key name = none := by
      rw [Session.known?_update fun inst => by rfl]
      exact hmid.unknown key name hpending
    exact hfinished.keep hfound hstill hnew data

private theorem readStep_memoized (hcached : s.config.cacheErrors = true) (hcalls : calls.Memoize)
    (pending : Key → List String) (key : Key) (name : String) :
    Keeps (Session.Memoized pending) (s.readStep calls key name) fun _ => True := by
  intro session h reply after hrun
  refine ⟨?_, trivial⟩
  obtain ⟨_, _, ⟨⟩, hrun⟩ := bind_eq_some.mp hrun
  cases hinst : session.instance? key with
  | none =>
    rw [hinst] at hrun
    exact (Prod.mk.inj (Option.some.inj hrun)).2 ▸ h
  | some inst =>
    rw [hinst] at hrun
    cases hknown : inst.known? name with
    | some data =>
      simp only [hknown] at hrun
      obtain ⟨_, _, ⟨⟩, hrun⟩ := bind_eq_some.mp hrun
      obtain ⟨_, rfl⟩ := Prod.mk.inj (Option.some.inj hrun)
      refine h.record (fun _ _ => rfl) (fun _ _ => rfl) ⟨data, ?_, rfl⟩
      refine (h.tallied key name).latest data ?_
      rw [Session.known?, hinst]
      exact hknown
    | none =>
      simp only [hknown] at hrun
      by_cases hnew : name ∈ inst.computing
      · rw [if_pos (by simpa using hnew)] at hrun
        exact (Prod.mk.inj (Option.some.inj hrun)).2 ▸ h
      · rw [if_neg (by simpa using hnew)] at hrun
        cases hdeclared : s.registry.field? key.name name with
        | none =>
          rw [hdeclared] at hrun
          exact (Prod.mk.inj (Option.some.inj hrun)).2 ▸ h
        | some declared =>
          rw [hdeclared] at hrun
          refine computeField_memoized hcached hcalls h hinst hknown ?_ hrun
          rw [← h.computing, Session.computing, hinst]
          exact hnew

private theorem createStep_memoized (hcalls : calls.Memoize) (pending : Key → List String)
    (name : String) (args : Dict Data) :
    Keeps (Session.Memoized pending) (s.createStep calls name args) fun _ => True := by
  rw [createStep]
  split
  · exact keeps_pure trivial
  · next entry _ =>
    have hconstruct :
        Keeps (Session.Memoized pending) (s.construct calls entry.factory args) fun _ => True := by
      cases entry.factory with
      | none => exact keeps_pure trivial
      | some factory => exact Script.perform_memoized hcalls _ _
    refine hconstruct.bind fun reply _ => ?_
    split
    · exact keeps_pure trivial
    · split
      · exact keeps_pure trivial
      · exact (keeps_modify fun _ h => h.adopt _ _).bind fun _ _ => keeps_pure trivial

private theorem calls_memoize (hcached : s.config.cacheErrors = true) (depth : Nat) :
    (s.calls depth).Memoize := by
  induction depth with
  | zero => exact ⟨fun _ _ _ => nofun, fun _ _ _ => nofun⟩
  | succ depth ih =>
    exact ⟨readStep_memoized hcached ih, createStep_memoized ih⟩

private theorem operateAll_memoized (hcached : s.config.cacheErrors = true)
    (operations : List Operation) :
    Keeps (Session.Memoized fun _ => []) (s.operateAll operations) fun _ => True := by
  induction operations with
  | nil => exact keeps_pure trivial
  | cons operation rest ih =>
    have hcalls := calls_memoize hcached (s.nesting + 1)
    have hfirst : Keeps (Session.Memoized fun _ => []) (s.operate operation) fun _ => True := by
      cases operation with
      | create name args =>
        exact (hcalls.create _ name args).bind fun _ _ => keeps_pure trivial
      | read key field => exact (hcalls.read _ key field).bind fun _ _ => keeps_pure trivial
      | invalidate key field => exact keeps_modify fun _ h => h.invalidate key field
    exact hfirst.bind fun _ _ => ih

/-- A field is computed at most once and once more for each time it is invalidated, and a read that
is answered from what is known gives the outcome of the latest computation. -/
theorem operateAll_computes_once {s : Setting σ} (hcached : s.config.cacheErrors = true)
    {operations : List Operation} {memory : σ} {session : Session σ}
    (hrun : s.operateAll operations (.new memory) = some ((), session)) :
    (∀ key field, (outcomes session.journal key field).length ≤
      1 + invalidations session.journal key field) ∧
    ∀ later key field reply earlier,
      session.journal = later ++ .answered key field reply :: earlier →
        ∃ data, (outcomes earlier key field).head? = some data ∧
          reply = fieldResult key field data := by
  have h := (operateAll_memoized hcached operations _ (.new memory) _ _ hrun).1
  refine ⟨fun key field => ?_, fun later key field reply earlier hjournal =>
    h.answers later _ earlier hjournal⟩
  have hcount := (h.tallied key field).count
  have hknown : (session.known? key field).toList.length ≤ 1 := by
    cases session.known? key field <;> simp
  omega

def clockInfo : ResourceInfo :=
  { ResourceInfo.plain "clock" with
    fields := .ofList [("now", .plain "now" .int), ("lap", .plain "lap" .int)] }

/-- A clock goes on whenever it is looked at. Its lap is the time that is read after another, which
is invalidated. -/
def clockProvider : Provider Int64 where
  id _ := none
  compute key _ field :=
    if field = "now" then .load fun time => .save (time + 1) (.done (.int time))
    else .read key "now" fun _ => .invalidate key "now" <| .read key "now" .expect

def clockSetting : Setting Int64 where
  registry := ((Registry.empty.addResource clockInfo).bind
    (·.addFactory "clock" fun args => .done (args, some clockProvider))).toOption.getD .empty
  asset := default
  config := .default

/-- Two laps, of which the second is known, and the time after one more. -/
def clockOperations : List Operation :=
  [.create "clock" .empty, .read ⟨"clock", "clock"⟩ "lap", .read ⟨"clock", "clock"⟩ "lap",
    .invalidate ⟨"clock", "clock"⟩ "now", .read ⟨"clock", "clock"⟩ "now"]

theorem operateAll_clockOperations :
    clockSetting.config.cacheErrors = true ∧
      ∃ session, clockSetting.operateAll clockOperations (.new 0) = some ((), session) ∧
        (outcomes session.journal ⟨"clock", "clock"⟩ "now").length = 3 ∧
        invalidations session.journal ⟨"clock", "clock"⟩ "now" = 2 ∧
        (outcomes session.journal ⟨"clock", "clock"⟩ "lap").length = 1 ∧
        ∀ key field, (outcomes session.journal key field).length ≤
          1 + invalidations session.journal key field := by
  have hlast : (clockSetting.operateAll clockOperations (.new 0)).map (fun o =>
      ((outcomes o.2.journal ⟨"clock", "clock"⟩ "now").length,
        invalidations o.2.journal ⟨"clock", "clock"⟩ "now",
        (outcomes o.2.journal ⟨"clock", "clock"⟩ "lap").length)) = some (3, 2, 1) := by
    decide +kernel
  obtain ⟨⟨⟨⟩, session⟩, hrun, hlast⟩ := Option.map_eq_some_iff.mp hlast
  obtain ⟨hnow, hlast⟩ := Prod.mk.inj hlast
  obtain ⟨hinvalidations, hlap⟩ := Prod.mk.inj hlast
  exact ⟨rfl, session, hrun, hnow, hinvalidations, hlap, (operateAll_computes_once rfl hrun).1⟩

end Setting

end AssetQuery
